import SharpOutline.Proofs.Tree.Edits

/-!
# Histories of a tree

A tree is known by the edits that led to it. An edit that is refused leaves the tree as it was, so a
history goes on after a refusal, and every list of edits is one. What an edit does that is not
refused is said once for all edits (`Edit.Does`). The main result is that the links of a tree agree
after every history.
-/

namespace SharpOutline

/-- An edit of a tree, with the elements that it names. -/
inductive Edit where
  | create (name : Text) (element : Element)
  | setName (id : ElementId) (name : Text)
  | addRoot (id : ElementId)
  | addChild (parent child : ElementId)
  | insertChild (parent : ElementId) (index : Nat) (child : ElementId)
  | removeChild (parent child : ElementId)
  | clearChildren (id : ElementId)
  | addHeaderComment (owner comment : ElementId)
  | addAttribute (owner used : ElementId)
  | removeAttribute (owner used : ElementId)
  | setOtherwise (id : ElementId) (branch : Option ElementId)
  | detach (id : ElementId)
  | copy (id : ElementId)
deriving DecidableEq, Repr

namespace Edit

/-- The tree after the edit, or why the edit is refused. -/
def apply (t : Tree) : Edit → Except Refusal Tree
  | create name element => .ok (t.create name element)
  | setName id name => t.setName id name
  | addRoot id => t.addRoot id
  | addChild parent child => t.addChild parent child
  | insertChild parent index child => t.insertChild parent index child
  | removeChild parent child => (t.removeChild parent child).map Prod.fst
  | clearChildren id => t.clearChildren id
  | addHeaderComment owner comment => t.addHeaderComment owner comment
  | addAttribute owner used => t.addAttribute owner used
  | removeAttribute owner used => (t.removeAttribute owner used).map Prod.fst
  | setOtherwise id branch => t.setOtherwise id branch
  | detach id => t.detach id
  | copy id => (t.copy id).map Prod.fst

end Edit

namespace Tree

/-- The tree after an edit, which may have been refused. -/
def edited (t : Tree) (e : Edit) : Tree :=
  match e.apply t with
  | .ok u => u
  | .error _ => t

/-- The tree that a list of edits leads to, starting from nothing. -/
def built (edits : List Edit) : Tree := edits.foldl edited {}

variable {k : Kind} {parent child owner : ElementId}

theorem built_concat (edits : List Edit) (e : Edit) :
    built (edits ++ [e]) = (built edits).edited e := by
  rw [built, List.foldl_append]
  rfl

variable {t u : Tree} {id p x : ElementId}

theorem node_eq_ok {n : Node} : t.node id = .ok n ↔ t.get? id = some n := by
  rw [node]
  cases t.get? id with
  | none => simp
  | some m => simp

theorem expectKind_eq_ok (h : t.expectKind id k = .ok ()) : t.kind? id = some k := by
  obtain ⟨n, hn, h⟩ := bind_eq_ok.mp h
  rw [kind?_of_get? (node_eq_ok.mp hn)]
  split at h
  · rename_i hk
    rw [hk]
  · simp at h

theorem lt_of_kind? (h : t.kind? id = some k) : id < t.size := by
  by_contra hid
  rw [kind?, get?_eq_none_iff.mpr (Nat.not_lt.mp hid)] at h
  simp at h

theorem checkNoCycle_eq_ok (h : t.checkNoCycle parent child = .ok ()) :
    parent < t.size := by
  rw [checkNoCycle] at h
  split at h
  · simp at h
  · obtain ⟨n, hn, -⟩ := bind_eq_ok.mp h
    exact lt_of_get? (node_eq_ok.mp hn)

theorem expectKind_of_kind? (h : t.kind? id = some k) : t.expectKind id k = .ok () := by
  obtain ⟨n, hn, hk⟩ := Option.map_eq_some_iff.mp h
  simp [expectKind, node, hn, hk, bind, Except.bind]

theorem not_mem_lineage_of_checkNoCycle (h : t.checkNoCycle parent child = .ok ()) :
    child ∉ t.lineage parent := by
  rw [checkNoCycle] at h
  split at h
  · cases h
  · assumption

/-- The tree in the result of an edit that also says something else. -/
theorem map_fst_eq_ok {α : Type} {r : Except Refusal (Tree × α)}
    (h : r.map Prod.fst = .ok u) : ∃ a, r = .ok (u, a) := by
  cases r with
  | error e => simp [Except.map] at h
  | ok v =>
    obtain ⟨v, a⟩ := v
    obtain rfl : v = u := by simpa [Except.map] using h
    exact ⟨a, rfl⟩

/-! ## Data of elements -/

theorem ext_get? (hroots : t.roots = u.roots) (h : ∀ x, t.get? x = u.get? x) : t = u := by
  have hnodes : t.nodes = u.nodes := Array.ext_getElem? h
  cases t
  cases u
  simp_all

def element? (t : Tree) (id : ElementId) : Option Element := (t.get? id).map Node.element

theorem otherwise?_eq (t : Tree) (x : Nat) :
    t.otherwise? x = (t.element? x).bind Element.otherwise? := by
  rw [otherwise?, element?]
  cases t.get? x <;> rfl

theorem otherwise?_congr (h : u.element? x = t.element? x) : u.otherwise? x = t.otherwise? x := by
  rw [otherwise?_eq, otherwise?_eq, h]

theorem element?_create (name : Text) (e : Element) (x : Nat) :
    (t.create name e).element? x = if x = t.size then some e else t.element? x := by
  rw [element?, get?_create]
  split <;> rfl

theorem element?_modify (t : Tree) (id x : Nat) {f : Node → Node}
    (hf : ∀ n, (f n).element = n.element) : (t.modify id f).element? x = t.element? x :=
  view_modify (Option.map Node.element) (fun n ↦ congrArg some (hf n)) t id x

theorem element?_linked (t : Tree) (owner : ElementId) (slot : Slot)
    (put : List ElementId → List ElementId) (id x : ElementId) :
    (t.linked owner slot put id).element? x = t.element? x := by
  rw [linked, element?_modify _ id x fun n ↦ by rfl,
    element?_modify _ owner x fun n ↦ by cases slot <;> rfl]

theorem element?_detached (t : Tree) (id x : Nat) : (t.detached id).element? x = t.element? x := by
  rw [detached]
  split
  · rw [element?_modify _ _ x fun n ↦ by rfl, element?_modify _ _ x fun n ↦ by rfl]
  · rfl

theorem element?_withOtherwise (t : Tree) (id x : Nat) (b : Option ElementId) :
    (t.withOtherwise id b).element? x =
      if id = x then (t.element? x).map (Element.withOtherwise b) else t.element? x := by
  rw [withOtherwise, element?, get?_modify, element?]
  split
  · cases t.get? x <;> rfl
  · rfl

theorem otherwise?_withOtherwise (hkind : t.kind? id = some .conditionDirective)
    (b : Option ElementId) (x : Nat) :
    (t.withOtherwise id b).otherwise? x = if id = x then b else t.otherwise? x := by
  rw [otherwise?_eq, element?_withOtherwise]
  split
  · rename_i hx
    subst hx
    obtain ⟨n, hn, hk⟩ := Option.map_eq_some_iff.mp hkind
    rw [element?, hn]
    cases he : n.element <;> simp_all [Node.kind, Element.kind, Element.withOtherwise,
      Element.otherwise?]
  · rw [otherwise?_eq]

theorem listOf_withOtherwise (t : Tree) (id x : Nat) (b : Option ElementId) (slot : Slot) :
    (t.withOtherwise id b).listOf x slot = t.listOf x slot :=
  listOf_modify t id x slot fun _ s ↦ by cases s <;> rfl

theorem parent?_withOtherwise (t : Tree) (id x : Nat) (b : Option ElementId) :
    (t.withOtherwise id b).parent? x = t.parent? x :=
  parent?_modify t id x fun _ ↦ rfl

/-! ## Comments and attributes -/

/-- An element is put at the end of a list for its kind, unless it is there already. -/
structure Given (t : Tree) (owner : ElementId) (slot : Slot) (id : ElementId) (u : Tree) :
    Prop where
  admits : ∃ k l, t.kind? owner = some k ∧ t.kind? id = some l ∧ slot.admits k l = true
  eq : u = if id ∈ t.listOf owner slot then t else (t.detached id).appended owner slot id

theorem addTo_eq_ok {slot : Slot} {kind : Kind} {able : Kind → Bool} {refusal : Kind → Refusal}
    (hadmits : ∀ k l, slot.admits k l = (able k && l == kind)) :
    t.addTo slot kind able refusal owner id = .ok u ↔ t.Given owner slot id u := by
  have hput : ∀ n, t.get? owner = some n → ((if (n.list slot).contains id then .ok t
      else .ok ((t.detached id).appended owner slot id) : Except Refusal Tree) = .ok u ↔
        u = if id ∈ t.listOf owner slot then t else (t.detached id).appended owner slot id) := by
    intro n hn
    rw [listOf_of_get? hn, ← apply_ite Except.ok, Except.ok.injEq, eq_comm]
    simp only [List.contains_iff_mem]
  simp only [addTo, bind_eq_ok, node_eq_ok]
  constructor
  · rintro ⟨n, hn, hu⟩
    split at hu
    · cases hu
    · rename_i hable
      obtain ⟨⟨⟩, hkind, hu⟩ := bind_eq_ok.mp hu
      refine ⟨⟨_, _, kind?_of_get? hn, expectKind_eq_ok hkind, ?_⟩, (hput n hn).mp hu⟩
      simpa [hadmits] using hable
  · rintro ⟨⟨k, l, hk, hl, hkl⟩, hu⟩
    obtain ⟨n, hn, rfl⟩ := Option.map_eq_some_iff.mp hk
    rw [hadmits, Bool.and_eq_true, beq_iff_eq] at hkl
    obtain ⟨hable, rfl⟩ := hkl
    refine ⟨n, hn, ?_⟩
    rw [hable, if_neg (by decide), expectKind_of_kind? hl]
    exact (hput n hn).mpr hu

theorem addHeaderComment_eq_ok :
    t.addHeaderComment owner id = .ok u ↔ t.Given owner .headerComments id u :=
  addTo_eq_ok fun _ _ ↦ rfl

theorem addAttribute_eq_ok :
    t.addAttribute owner id = .ok u ↔ t.Given owner .attributes id u :=
  addTo_eq_ok fun _ _ ↦ rfl

/-- A next branch is taken out of its place first. -/
theorem eq_of_setOtherwise {b : ElementId} (hu : t.setOtherwise id (some b) = .ok u) :
    t.kind? id = some .conditionDirective ∧ t.kind? b = some .conditionDirective ∧ b ≠ id ∧
      u = (t.detached b).withOtherwise id (some b) := by
  obtain ⟨⟨⟩, hid, hu⟩ := bind_eq_ok.mp hu
  obtain ⟨⟨⟩, hb, hu⟩ := bind_eq_ok.mp hu
  split at hu
  · cases hu
  · rename_i hne
    obtain ⟨branches, -, hu⟩ := bind_eq_ok.mp hu
    split at hu
    · cases hu
    · exact ⟨expectKind_eq_ok hid, expectKind_eq_ok hb, hne, (Except.ok.inj hu).symm⟩

end Tree

/-! ## What edits do -/

namespace Edit

open SharpOutline.Tree

/-- The list into which an edit puts an element: whose it is and which one, and the element. -/
def into : Edit → Option (ElementId × Slot × ElementId)
  | addChild parent child => some (parent, .children, child)
  | insertChild parent _ child => some (parent, .children, child)
  | addHeaderComment owner comment => some (owner, .headerComments, comment)
  | addAttribute owner used => some (owner, .attributes, used)
  | _ => none

/-- A list after the edit has put an element into it. -/
def put (e : Edit) (id : ElementId) (l : List ElementId) : List ElementId :=
  match e with
  | insertChild _ index _ => l.insertIdx (min index l.length) id
  | _ => l ++ [id]

theorem perm_put (e : Edit) (id : ElementId) (l : List ElementId) :
    (e.put id l).Perm (id :: l) := by
  cases e with
  | insertChild parent index child =>
    exact List.perm_insertIdx id l (Nat.min_le_right index l.length)
  | _ => exact List.perm_append_singleton id l

/-- The edit only takes elements out of the places where they stand. -/
def Frees : Edit → Prop
  | removeChild _ _ | clearChildren _ | removeAttribute _ _ | detach _ => True
  | _ => False

/-- What an edit does to a tree if it is not refused. -/
inductive Does (t : Tree) : Edit → Tree → Prop
  | create (name : Text) (element : Element) : Does t (.create name element) (t.create name element)
  | setName (id : ElementId) (name : Text) :
    Does t (.setName id name) (t.modify id fun n ↦ { n with name })
  | keepsRoot {id : ElementId} (hroot : id ∈ t.roots) : Does t (.addRoot id) t
  | addRoot {id : ElementId} (hid : id < t.size) :
    Does t (.addRoot id) { t.detached id with roots := (t.detached id).roots ++ [id] }
  /-- The element stays where it stands. -/
  | keeps {e : Edit} {owner id : ElementId} {slot : Slot} (he : e.into = some (owner, slot, id))
    (hmem : id ∈ t.listOf owner slot) : Does t e t
  | moves {e : Edit} {owner id : ElementId} {slot : Slot} {k l : Kind}
    (he : e.into = some (owner, slot, id)) (hk : t.kind? owner = some k) (hl : t.kind? id = some l)
    (hkl : slot.admits k l = true) (hbeneath : slot = .children → id ∉ t.lineage owner) :
    Does t e ((t.detached id).linked owner slot (e.put id) id)
  | frees {e : Edit} {u : Tree} (he : e.Frees) (released : t.Linked → ∃ gone, Released t u gone)
    (hdata : ∀ x, u.element? x = t.element? x) : Does t e u
  | ends {id : ElementId} (hid : t.kind? id = some .conditionDirective) :
    Does t (.setOtherwise id none) (t.withOtherwise id none)
  | branches {id b : ElementId} (hid : t.kind? id = some .conditionDirective)
    (hb : t.kind? b = some .conditionDirective) (hne : b ≠ id) :
    Does t (.setOtherwise id (some b)) ((t.detached b).withOtherwise id (some b))
  | copies {id c : ElementId} {u : Tree} (hu : t.copy id = .ok (u, c)) : Does t (.copy id) u

variable {t u : Tree} {e : Edit} {owner id : ElementId} {slot : Slot}

theorem Does.of_given (he : e.into = some (owner, slot, id)) (hput : e.put id = (· ++ [id]))
    (hslot : slot ≠ .children) (hu : t.Given owner slot id u) : Does t e u := by
  obtain ⟨⟨k, l, hk, hl, hkl⟩, rfl⟩ := hu
  split
  · rename_i hmem
    exact .keeps he hmem
  · rw [appended, ← hput]
    exact .moves he hk hl hkl fun h ↦ absurd h hslot

theorem Does.of_removeFrom {found : Bool} (he : e.Frees)
    (hu : t.removeFrom owner slot id = .ok (u, found)) : Does t e u := by
  obtain ⟨n, hn, hu⟩ := bind_eq_ok.mp hu
  split at hu
  · rename_i hmem
    cases Except.ok.inj hu
    rw [← listOf_of_get? (node_eq_ok.mp hn), List.contains_iff_mem] at hmem
    refine .frees he (fun h ↦ ⟨_, released_erase h hmem⟩) fun x ↦ ?_
    rw [element?_modify _ id x fun n ↦ by rfl,
      element?_modify _ owner x fun n ↦ by cases slot <;> rfl]
  · cases Except.ok.inj hu
    exact .frees he (fun _ ↦ ⟨_, .refl t⟩) fun _ ↦ rfl

theorem does_clearChildren (hu : t.clearChildren id = .ok u) : Does t (.clearChildren id) u := by
  have hdata : ∀ (ids : List ElementId) (v : Tree) (x : ElementId), (ids.foldl
      (fun w child ↦ w.modify child fun n ↦ { n with parent := none }) v).element? x =
        v.element? x := by
    intro ids
    induction ids with
    | nil => exact fun _ _ ↦ rfl
    | cons y ids ih =>
      intro v x
      rw [List.foldl_cons, ih]
      exact element?_modify v y x fun _ ↦ rfl
  obtain ⟨n, hn, hu⟩ := bind_eq_ok.mp hu
  cases hu
  have hn := node_eq_ok.mp hn
  refine .frees trivial (fun h ↦ ?_)
    fun x ↦ (hdata _ _ x).trans (element?_modify t id x fun _ ↦ rfl)
  have r := released_children h (lt_of_get? hn)
  rw [listOf_of_get? hn] at r
  exact ⟨_, r⟩

/-- **What an edit does** if it is not refused. -/
theorem does_apply (hu : e.apply t = .ok u) : Does t e u := by
  cases e with
  | create name element =>
    cases hu
    exact .create name element
  | setName id name =>
    obtain ⟨n, -, hu⟩ := bind_eq_ok.mp hu
    cases hu
    exact .setName id name
  | addRoot id =>
    obtain ⟨n, hn, hu⟩ := bind_eq_ok.mp hu
    split at hu
    · rename_i hroot
      cases hu
      rw [Bool.and_eq_true, List.contains_iff_mem] at hroot
      exact .keepsRoot hroot.2
    · cases hu
      exact .addRoot (lt_of_get? (node_eq_ok.mp hn))
  | addChild parent child =>
    obtain ⟨n, hn, hu⟩ := bind_eq_ok.mp hu
    split at hu
    · rename_i hstays
      cases hu
      rw [Bool.and_eq_true, Option.any_eq_true] at hstays
      obtain ⟨-, m, hm, hlisted⟩ := hstays
      refine .keeps rfl ?_
      rw [listOf_of_get? hm]
      exact List.contains_iff_mem.mp hlisted
    · obtain ⟨⟨⟩, hcheck, hu⟩ := bind_eq_ok.mp hu
      cases hu
      obtain ⟨m, hm⟩ := exists_get?_of_lt (checkNoCycle_eq_ok hcheck)
      exact .moves rfl (kind?_of_get? hm) (kind?_of_get? (node_eq_ok.mp hn)) rfl
        fun _ ↦ not_mem_lineage_of_checkNoCycle hcheck
  | insertChild parent index child =>
    obtain ⟨⟨⟩, hcheck, hu⟩ := bind_eq_ok.mp hu
    obtain ⟨v, hv, hu⟩ := bind_eq_ok.mp hu
    obtain ⟨n, hn, hv⟩ := bind_eq_ok.mp hv
    cases hv
    cases hu
    obtain ⟨m, hm⟩ := exists_get?_of_lt (checkNoCycle_eq_ok hcheck)
    exact .moves rfl (kind?_of_get? hm) (kind?_of_get? (node_eq_ok.mp hn)) rfl
      fun _ ↦ not_mem_lineage_of_checkNoCycle hcheck
  | removeChild parent child =>
    obtain ⟨found, hu⟩ := map_fst_eq_ok hu
    exact .of_removeFrom trivial hu
  | clearChildren id => exact does_clearChildren hu
  | addHeaderComment owner comment =>
    exact .of_given rfl rfl nofun (addHeaderComment_eq_ok.mp hu)
  | addAttribute owner used => exact .of_given rfl rfl nofun (addAttribute_eq_ok.mp hu)
  | removeAttribute owner used =>
    obtain ⟨found, hu⟩ := map_fst_eq_ok hu
    exact .of_removeFrom trivial hu
  | setOtherwise id branch =>
    cases branch with
    | none =>
      obtain ⟨⟨⟩, hid, hu⟩ := bind_eq_ok.mp hu
      cases hu
      exact .ends (expectKind_eq_ok hid)
    | some b =>
      obtain ⟨hid, hb, hne, rfl⟩ := eq_of_setOtherwise hu
      exact .branches hid hb hne
  | detach id =>
    obtain ⟨n, -, hu⟩ := bind_eq_ok.mp hu
    cases hu
    exact .frees trivial (fun h ↦ ⟨_, released_detached h id⟩) (element?_detached t id)
  | copy id =>
    obtain ⟨c, hu⟩ := map_fst_eq_ok hu
    exact .copies hu

theorem cases_of_into (he : e.into = some (owner, slot, id)) (hu : e.apply t = .ok u) :
    (id ∈ t.listOf owner slot ∧ u = t) ∨ (owner < t.size ∧ id < t.size ∧
      u = (t.detached id).linked owner slot (e.put id) id) := by
  cases does_apply hu with
  | keeps he' hmem =>
    cases he.symm.trans he'
    exact .inl ⟨hmem, rfl⟩
  | moves he' hk hl =>
    cases he.symm.trans he'
    exact .inr ⟨lt_of_kind? hk, lt_of_kind? hl, rfl⟩
  | frees hfrees => cases e <;> cases he <;> cases hfrees
  | _ => cases he

end Edit

/-! ## Links -/

namespace Tree

variable {t u : Tree} {id : ElementId}

namespace Linked

theorem empty : Linked {} where
  parent_of_mem hx := by simp [listOf, get?] at hx
  occurrences_eq_one hx := by simp [parent?, get?] at hx
  parent_of_mem_roots hx := by simp at hx
  count_roots_eq_one hx := by simp at hx
  admits_of_mem hx := by simp [listOf, get?] at hx

theorem detached (h : t.Linked) (id : ElementId) : (t.detached id).Linked :=
  h.released (released_detached h id)

theorem free_detached (h : t.Linked) (hid : id < t.size) : (t.detached id).Free id :=
  (released_detached h id).free hid (beq_self_eq_true id)

theorem moved (h : t.Linked) {owner : ElementId} {slot : Slot}
    {put : List ElementId → List ElementId}
    {k l : Kind} (hown : t.kind? owner = some k) (hid : t.kind? id = some l)
    (hkl : slot.admits k l = true) (hput : ∀ m, (put m).Perm (id :: m)) :
    ((t.detached id).linked owner slot put id).Linked := by
  have r := released_detached h id
  refine (h.detached id).placed (h.free_detached (lt_of_kind? hid))
    ⟨k, l, by rw [r.kind, hown], by rw [r.kind, hid], hkl⟩ (placed_linked ?_ ?_ hput)
  · rw [r.size]
    exact lt_of_kind? hown
  · rw [r.size]
    exact lt_of_kind? hid

theorem withOtherwise (h : t.Linked) (id : ElementId) (branch : Option ElementId) :
    (t.withOtherwise id branch).Linked := by
  refine h.congr (size_modify _ _ _) (fun x ↦ kind?_modify t id x fun n ↦ ?_)
    (fun x ↦ parent?_modify t id x fun _ ↦ rfl) (fun x s ↦ ?_) rfl
  · exact Element.kind_withOtherwise branch n.element
  · exact listOf_modify t id x s fun _ s ↦ by cases s <;> rfl

theorem copy (h : t.Linked) {copied : ElementId} (hu : t.copy id = .ok (u, copied)) : u.Linked :=
  (planted_unfold h t.size h hu).linked

/-- An edit that is not refused keeps the links in agreement. -/
theorem apply (h : t.Linked) {e : Edit} (hu : e.apply t = .ok u) : u.Linked := by
  cases Edit.does_apply hu with
  | create name element => exact h.create name element
  | setName id name =>
    refine h.congr (size_modify _ _ _) (fun x ↦ kind?_modify t id x fun _ ↦ rfl)
      (fun x ↦ parent?_modify t id x fun _ ↦ rfl) (fun x s ↦ ?_) rfl
    exact listOf_modify t id x s fun _ s ↦ by cases s <;> rfl
  | keepsRoot => exact h
  | addRoot hid => exact (h.detached _).rooted (h.free_detached hid)
  | keeps => exact h
  | moves he hk hl hkl => exact h.moved hk hl hkl (e.perm_put _)
  | frees he released =>
    obtain ⟨gone, r⟩ := released h
    exact h.released r
  | ends => exact h.withOtherwise _ none
  | branches => exact (h.detached _).withOtherwise _ _
  | copies hu => exact h.copy hu

end Linked

/-! ## Histories -/

/-- **One edit.** Whatever the edit is and whether or not it is refused, links that agree before it
agree after it. -/
theorem Linked.edited (h : t.Linked) (e : Edit) : (t.edited e).Linked := by
  rw [Tree.edited]
  cases hu : e.apply t with
  | error r => exact h -- a refused edit leaves the tree as it is
  | ok u => exact h.apply hu

theorem Linked.foldl_edited (h : t.Linked) (edits : List Edit) :
    (edits.foldl Tree.edited t).Linked := by
  induction edits generalizing t with
  | nil => exact h
  | cons e edits ih => exact ih (h.edited e)

/-- **Links always agree.** After every history, an element in a list of another one has that one as
its parent, an element with a parent stands in exactly one place of the lists of its parent, roots
have no parent and stand only once among the roots, and the lists for comments and attributes hold
only comments and attributes, of elements that may have them. -/
theorem linked_built (edits : List Edit) : (built edits).Linked :=
  Linked.empty.foldl_edited edits

end Tree

end SharpOutline
