import SharpOutline.Proofs.Tree.History
import SharpOutline.Proofs.Tree.Shows

/-!
# Trees that grow

While a source text is read the tree only grows: new elements are created, and they become children,
comments or next branches of elements that were there before or are new as well. `Tree.Sprouts`
describes one stretch of growth. It says which elements are new on the top level, what they look
like, and that nothing else has changed. Stretches can be put one after the other
(`Tree.Sprouts.append`) and beneath a new element (`Tree.Sprouts.beneath`). `Tree.Continues` does
the same for the further branches of a conditional.
-/

namespace SharpOutline

namespace Tree

-- Numbers of elements are compared in this file, so they are plain numbers here.
variable {t u v w : Tree} {id x p low : Nat} {n : Node}

/-! ## Growth -/

/-- The first tree has become the second one: the elements that it had are still there, each changed
as `change` says. Elements that are being read stand nowhere yet, so there are no roots. -/
structure Grown (t u : Tree) (change : ElementId → Node → Node) : Prop where
  size_le : t.size ≤ u.size
  roots : u.roots = []
  get?_old : ∀ x : Nat, x < t.size → u.get? x = (t.get? x).map (change x)

/-- An element gains children. -/
def gaining (owner : Option ElementId) (ids : List ElementId) (x : ElementId) (n : Node) : Node :=
  if owner = some x then { n with children := n.children ++ ids } else n

/-- A branch of a conditional gets a next branch. -/
def branching (current : ElementId) (next : Option ElementId) (x : ElementId) (n : Node) : Node :=
  match next with
  | none => n
  | some b => if current = x then { n with element := n.element.withOtherwise (some b) } else n

/-- The tree has grown by elements that look like the given outlines. They are children of `owner`,
or they stand nowhere yet. -/
structure Sprouts (t u : Tree) (owner : Option Nat) (ids : List Nat) (os : List Outline) : Prop
    extends Grown t u (gaining owner ids) where
  increasing : ids.Pairwise (· < ·)
  parent : ∀ id ∈ ids, u.parent? id = owner
  shows : u.ShowsAll t.size os ids
  room : t.size + Outline.countAll os ≤ u.size

/-- The tree has grown by the further branches of a conditional after the current one. -/
structure Continues (t u : Tree) (current : Nat) (next : Option Nat) (o : Option Outline) : Prop
    extends Grown t u (branching current next) where
  shows : u.ShowsNext t.size o next
  room : t.size + Outline.countNext o ≤ u.size

variable {current : Nat} {next : Option Nat} {o : Option Outline} {ids : List Nat} {name : Text}

theorem gaining_of_ne {owner : Option ElementId} (h : owner ≠ some x) (ids : List ElementId) :
    gaining owner ids x n = n := if_neg h

theorem gaining_gaining (owner : Option ElementId) (ids ids' : List ElementId) :
    gaining owner ids' x (gaining owner ids x n) = gaining owner (ids ++ ids') x n := by
  by_cases h : owner = some x
  · simp [gaining, h]
  · simp [gaining, h]

@[simp] theorem parent_gaining (owner : Option ElementId) (ids : List ElementId) :
    (gaining owner ids x n).parent = n.parent := by
  rw [gaining]
  split <;> rfl

theorem branching_of_ne {current : ElementId} (h : current ≠ x) (next : Option ElementId) :
    branching current next x n = n := by
  cases next with
  | none => rfl
  | some b => exact if_neg h

/-! ### What stays -/

theorem Keeps.trans (h : Keeps t u low) (h' : Keeps u v low) : Keeps t v low := by
  intro x n hx hn
  obtain ⟨k, hk, hkn⟩ := Option.map_eq_some_iff.mp (h x n hx hn)
  rw [h' x k hx hk, hkn]

theorem keeps_of_get?_eq (h : ∀ x : Nat, low ≤ x → x < t.size → u.get? x = t.get? x) :
    Keeps t u low := by
  intro x n hx hn
  rw [h x hx (lt_of_get? hn), hn, Option.map_some]

namespace Sprouts

variable {owner : Option Nat} {ids ids' : List Nat} {os os' : List Outline}

theorem new (h : Sprouts t u owner ids os) : ∀ id ∈ ids, t.size ≤ id ∧ id < u.size := by
  intro id hid
  obtain ⟨o, -, ho⟩ := h.shows.exists_of_mem id hid
  exact ho.le

theorem get?_of_ne (h : Sprouts t u owner ids os) (hx : x < t.size) (hne : owner ≠ some x) :
    u.get? x = t.get? x := by
  rw [h.get?_old x hx]
  cases t.get? x with
  | none => rfl
  | some n => rw [Option.map_some, gaining_of_ne hne]

theorem parent?_old (h : Sprouts t u owner ids os) (hx : x < t.size) :
    u.parent? x = t.parent? x := by
  obtain ⟨n, hn⟩ := exists_get?_of_lt hx
  rw [parent?_of_get? hn, parent?, h.get?_old x hx, hn]
  simp

theorem keeps (h : Sprouts t u owner ids os) (howner : ∀ p ∈ owner, p < low) : Keeps t u low :=
  keeps_of_get?_eq fun x hx hlt ↦ h.get?_of_ne hlt fun heq ↦ by
    have := howner x heq
    omega

theorem nil (hroots : t.roots = []) : Sprouts t t owner [] [] where
  size_le := Nat.le_refl _
  roots := hroots
  get?_old x _ := by
    cases t.get? x <;> simp [gaining]
  increasing := .nil
  parent := by simp
  shows := rfl
  room := by simp [Outline.countAll]

theorem append (h : Sprouts t u owner ids os) (h' : Sprouts u v owner ids' os')
    (howner : ∀ p ∈ owner, p < t.size) : Sprouts t v owner (ids ++ ids') (os ++ os') where
  size_le := Nat.le_trans h.size_le h'.size_le
  roots := h'.roots
  get?_old x hx := by
    rw [h'.get?_old x (Nat.lt_of_lt_of_le hx h.size_le), h.get?_old x hx, Option.map_map]
    exact Option.map_congr fun n _ ↦ gaining_gaining owner ids ids'
  increasing := by
    refine List.pairwise_append.mpr ⟨h.increasing, h'.increasing, fun a ha b hb ↦ ?_⟩
    exact Nat.lt_of_lt_of_le (h.new a ha).2 (h'.new b hb).1
  parent id hid := by
    rcases List.mem_append.mp hid with hid | hid
    · rw [h'.parent?_old (h.new id hid).2, h.parent id hid]
    · exact h'.parent id hid
  shows := (ShowsAll.keep (h'.keeps howner) _ _ h.shows).append
    (ShowsAll.mono h.size_le _ _ h'.shows)
  room := by
    have := h.room
    have := h'.room
    rw [Outline.countAll_append]
    omega

end Sprouts

theorem Continues.get?_of_ne (h : Continues t u current next o) (hx : x < t.size)
    (hne : current ≠ x) :
    u.get? x = t.get? x := by
  rw [h.get?_old x hx]
  cases t.get? x with
  | none => rfl
  | some n => rw [Option.map_some, branching_of_ne hne]

theorem Continues.keeps (h : Continues t u current next o) (hcurrent : current < low) :
    Keeps t u low :=
  keeps_of_get?_eq fun x hx hlt ↦ h.get?_of_ne hlt (by omega)

theorem Continues.nil (hroots : t.roots = []) (current : Nat) :
    Continues t t current none none where
  size_le := Nat.le_refl _
  roots := hroots
  get?_old x _ := by
    cases t.get? x <;> rfl
  shows := rfl
  room := by simp [Outline.countNext]

/-! ### Adoption -/

/-- An element gains others in one of its lists, which get it as their parent. -/
def adopting (p : ElementId) (slot : Slot) (ids : List ElementId) (x : ElementId) (n : Node) :
    Node :=
  if x = p then n.modifyList (· ++ ids) slot
  else if x ∈ ids then { n with parent := some p } else n

section Adoption

variable {slot : Slot} {ids : List Nat}

theorem adopting_eq_gaining (h : x ∉ ids) :
    adopting p .children ids x n = gaining (some p) ids x n := by
  simp [adopting, gaining, h, eq_comm, Node.modifyList]

theorem unplaced_adopting (h : x ≠ p) : (adopting p slot ids x n).unplaced = n.unplaced := by
  rw [adopting, if_neg h]
  split <;> rfl

theorem adopting_of_not_mem (h : x ≠ p) (hx : x ∉ ids) : adopting p slot ids x n = n := by
  rw [adopting, if_neg h, if_neg hx]

theorem adopting_nil : adopting p slot [] x n = n := by
  cases slot <;> simp [adopting, Node.modifyList]

theorem adopting_adopting (hne : p ≠ id) :
    adopting p slot ids x (adopting p slot [id] x n) = adopting p slot (id :: ids) x n := by
  by_cases hx : x = p
  · cases slot <;> simp [adopting, hx, Node.modifyList]
  · by_cases hid : x = id
    · subst hid
      by_cases hids : x ∈ ids <;> simp [adopting, hx, hids]
    · simp [adopting, hx, hid]

theorem kind_adopting : (adopting p slot ids x n).kind = n.kind := by
  rw [adopting]
  split
  · exact n.kind_modifyList _ slot
  · split <;> rfl

theorem get?_appended (hne : p ≠ id) (x : Nat) :
    (t.appended p slot id).get? x = (t.get? x).map (adopting p slot [id] x) := by
  rw [appended, linked, get?_modify, get?_modify]
  by_cases hp : p = x
  · subst hp
    cases t.get? p <;> simp [Ne.symm hne, adopting]
  · by_cases hid : id = x
    · subst hid
      cases t.get? id <;> simp [hp, Ne.symm hne, adopting]
    · cases t.get? x <;> simp [hp, hid, Ne.symm hp, Ne.symm hid, adopting]

@[simp] theorem size_appended : (t.appended p slot id).size = t.size := by
  simp [appended, linked]

@[simp] theorem roots_appended : (t.appended p slot id).roots = t.roots := by
  simp [appended, linked]

theorem parent?_appended (hne : p ≠ id) (hx : x ≠ id) :
    (t.appended p slot id).parent? x = t.parent? x := by
  rw [parent?, parent?, get?_appended hne]
  cases t.get? x with
  | none => rfl
  | some n => by_cases hxp : x = p <;> simp [adopting, hx, hxp]

theorem kind?_appended (hne : p ≠ id) (x : Nat) : (t.appended p slot id).kind? x = t.kind? x := by
  rw [kind?, kind?, get?_appended hne, Option.map_map]
  exact Option.map_congr fun n _ ↦ kind_adopting

/-- The tree with elements put into a list of another one. -/
def adopted (t : Tree) (p : ElementId) (slot : Slot) (ids : List ElementId) : Tree :=
  ids.foldl (fun u id ↦ u.appended p slot id) t

theorem get?_adopted (hp : p ∉ ids) (x : Nat) :
    (t.adopted p slot ids).get? x = (t.get? x).map (adopting p slot ids x) := by
  induction ids generalizing t with
  | nil =>
    rw [adopted, List.foldl_nil]
    cases t.get? x <;> simp [adopting_nil]
  | cons id ids ih =>
    obtain ⟨hne, hp⟩ := List.ne_and_not_mem_of_not_mem_cons hp
    rw [adopted, List.foldl_cons, ← adopted, ih hp, get?_appended hne, Option.map_map]
    exact Option.map_congr fun n _ ↦ adopting_adopting hne

@[simp] theorem size_adopted (t : Tree) (p : ElementId) (slot : Slot) (ids : List ElementId) :
    (t.adopted p slot ids).size = t.size := by
  induction ids generalizing t with
  | nil => rfl
  | cons id ids ih => rw [adopted, List.foldl_cons, ← adopted, ih, size_appended]

@[simp] theorem roots_adopted (t : Tree) (p : ElementId) (slot : Slot) (ids : List ElementId) :
    (t.adopted p slot ids).roots = t.roots := by
  induction ids generalizing t with
  | nil => rfl
  | cons id ids ih => rw [adopted, List.foldl_cons, ← adopted, ih, roots_appended]

theorem keeps_adopted (hp : p ∉ ids) (h : ∀ x : Nat, low ≤ x → x < t.size → x ≠ p) :
    Keeps t (t.adopted p slot ids) low := by
  intro x n hx hn
  rw [get?_adopted hp, hn, Option.map_some, Option.map_some,
    unplaced_adopting (h x hx (lt_of_get? hn))]

/-! ### Edits that adopt -/

theorem detached_of_parent?_eq_none (hid : t.parent? id = none) (hroots : id ∉ t.roots) :
    t.detached id = t := by
  have hfilter : t.roots.filter (· != id) = t.roots :=
    List.filter_eq_self.mpr fun x hx ↦ by
      simpa using fun h : x = id ↦ hroots (h ▸ hx)
  rw [detached, hid]
  simp only [hfilter]

/-- Elements that stand nowhere, to be put into a list of another element that stands nowhere. -/
structure Adoptable (t : Tree) (p : Nat) (ids : List Nat) : Prop where
  owner : p < t.size
  parent : t.parent? p = none
  roots : t.roots = []
  ne : p ∉ ids
  free : ∀ id ∈ ids, id < t.size ∧ t.parent? id = none
  increasing : ids.Pairwise (· < ·)

theorem Adoptable.tail (slot : Slot) (h : Adoptable t p (id :: ids)) :
    Adoptable (t.appended p slot id) p ids := by
  obtain ⟨hne, hmem⟩ := List.ne_and_not_mem_of_not_mem_cons h.ne
  refine ⟨?_, ?_, ?_, hmem, fun y hy ↦ ?_, (List.pairwise_cons.mp h.increasing).2⟩
  · rw [size_appended]
    exact h.owner
  · rw [parent?_appended hne hne, h.parent]
  · rw [roots_appended, h.roots]
  · have hlt := (List.pairwise_cons.mp h.increasing).1 y hy
    obtain ⟨hy', hyp⟩ := h.free y (by simp [hy])
    rw [size_appended, parent?_appended hne (by omega)]
    exact ⟨hy', hyp⟩

theorem foldlM_addChild (h : Adoptable t p ids) :
    ids.foldlM (fun u id ↦ u.addChild p id) t = .ok (t.adopted p .children ids) := by
  induction ids generalizing t with
  | nil => rfl
  | cons id ids ih =>
    obtain ⟨hid, hidp⟩ := h.free id (by simp)
    obtain ⟨n, hn⟩ := exists_get?_of_lt hid
    obtain ⟨k, hk⟩ := exists_get?_of_lt h.owner
    have hne : p ≠ id := (List.ne_and_not_mem_of_not_mem_cons h.ne).1
    have hparent : n.parent = none := by rw [← parent?_of_get? hn, hidp]
    have hlineage : t.lineage p = [p] := by rw [lineage, lineageUpTo, h.parent]
    have hdetached := detached_of_parent?_eq_none hidp (by simp [h.roots])
    have hadd : t.addChild p id = .ok (t.appended p .children id) := by
      simp [addChild, node, hn, hk, hparent, checkNoCycle, hlineage, Ne.symm hne, hdetached, bind,
        Except.bind]
    rw [List.foldlM_cons, hadd]
    exact ih (h.tail .children)

theorem kind?_adopted (hp : p ∉ ids) (x : Nat) :
    (t.adopted p slot ids).kind? x = t.kind? x := by
  rw [kind?, kind?, get?_adopted hp, Option.map_map]
  exact Option.map_congr fun n _ ↦ kind_adopting

/-- Elements are put into a list for their kind, and others may follow them. -/
theorem foldlM_given {add : Tree → ElementId → ElementId → Except Refusal Tree} {k l : Kind}
    {ids' : List Nat} (hadd : ∀ {t u owner id}, add t owner id = .ok u ↔ t.Given owner slot id u)
    (h : Adoptable t p (ids ++ ids')) (hp : t.kind? p = some k)
    (hids : ∀ id ∈ ids, t.kind? id = some l ∧ slot.admits k l = true)
    (hnew : ∀ id ∈ ids, id ∉ t.listOf p slot) :
    ids.foldlM (fun u id ↦ add u p id) t = .ok (t.adopted p slot ids) ∧
      Adoptable (t.adopted p slot ids) p ids' := by
  induction ids generalizing t with
  | nil => exact ⟨rfl, h⟩
  | cons id ids ih =>
    obtain ⟨hid, hidp⟩ := h.free id (by simp)
    obtain ⟨n, hn⟩ := exists_get?_of_lt h.owner
    have hne : p ≠ id := (List.ne_and_not_mem_of_not_mem_cons h.ne).1
    have hdetached := detached_of_parent?_eq_none hidp (by simp [h.roots])
    have hfirst : add t p id = .ok (t.appended p slot id) := by
      refine hadd.mpr ⟨⟨k, l, hp, hids id (by simp)⟩, ?_⟩
      rw [if_neg (hnew id (by simp)), hdetached]
    rw [List.foldlM_cons, hfirst]
    -- numbers increase, so none of the others is the one that was just added
    refine ih (h.tail slot) (by rw [kind?_appended hne, hp]) (fun y hy ↦ ?_) fun y hy ↦ ?_
    · rw [kind?_appended hne]
      exact hids y (by simp [hy])
    · have hlt := (List.pairwise_cons.mp h.increasing).1 y (by simp [hy])
      have hget : (t.appended p slot id).get? p = some (n.modifyList (· ++ [id]) slot) := by
        rw [get?_appended hne, hn]
        simp [adopting]
      have hold := hnew y (by simp [hy])
      rw [listOf_of_get? hn] at hold
      rw [listOf_of_get? hget, Node.list_modifyList, if_pos rfl]
      simp only [List.mem_append, List.mem_singleton, not_or]
      exact ⟨hold, by omega⟩

end Adoption

namespace Sprouts

variable {ids : List Nat} {os : List Outline}

/-- New elements that stand nowhere may be put into a list of an older one. -/
theorem adoptable (h : Sprouts t u none ids os) (hp : p < t.size) (hpp : t.parent? p = none) :
    Adoptable u p ids where
  owner := Nat.lt_of_lt_of_le hp h.size_le
  parent := by rw [h.parent?_old hp, hpp]
  roots := h.roots
  ne hmem := Nat.not_lt.mpr (h.new p hmem).1 hp
  free id hid := ⟨(h.new id hid).2, h.parent id hid⟩
  increasing := h.increasing

theorem adopt (h : Sprouts t u none ids os) (hp : p < t.size) (hpp : t.parent? p = none) :
    ids.foldlM (fun v id ↦ v.addChild p id) u = .ok (u.adopted p .children ids) ∧
      Sprouts t (u.adopted p .children ids) (some p) ids os := by
  have hadoptable := h.adoptable hp hpp
  have hmem := hadoptable.ne
  refine ⟨foldlM_addChild hadoptable, ⟨?_, ?_, fun x hx ↦ ?_⟩, h.increasing,
    fun id hid ↦ ?_, ?_, ?_⟩
  · rw [size_adopted]
    exact h.size_le
  · rw [roots_adopted, h.roots]
  · have hx' : x ∉ ids := fun hmem ↦ Nat.not_lt.mpr (h.new x hmem).1 hx
    rw [get?_adopted hmem, h.get?_of_ne hx (by simp)]
    exact Option.map_congr fun n _ ↦ adopting_eq_gaining hx'
  · obtain ⟨n, hn⟩ := exists_get?_of_lt (h.new id hid).2
    have hne : id ≠ p := fun heq ↦ hmem (heq ▸ hid)
    rw [parent?, get?_adopted hmem, hn]
    simp [adopting, hne, hid]
  · exact ShowsAll.keep (keeps_adopted hmem fun x hx _ ↦ by omega) _ _ h.shows
  · rw [size_adopted]
    exact h.room

end Sprouts

/-! ### New elements -/

/-- An element that has gained children, and then a next branch if it is a branch. -/
theorem shows_of_continues {b : Nat} {os : List Outline} {e : Element}
    (hb : t.get? b = some { name := name, element := e }) (he : e.otherwise? = none)
    (hnext : next = none ∨ e.kind = .conditionDirective)
    (h : Sprouts t u (some b) ids os) (h' : Continues u v b next o) :
    v.parent? b = none ∧ ∀ k f, f.withOtherwise none = e.withOtherwise none →
      v.Shows b (.node k name f [] [] os o) b := by
  have hbt : b < t.size := lt_of_get? hb
  have hbu : b < u.size := Nat.lt_of_lt_of_le hbt h.size_le
  have hchildren : v.ShowsAll t.size os ids := ShowsAll.keep (h'.keeps hbt) _ _ h.shows
  obtain ⟨e', hbv, he', hotherwise⟩ : ∃ e', v.get? b =
      some { name := name, children := ids, element := e' } ∧
      e'.withOtherwise none = e.withOtherwise none ∧ e'.otherwise? = next := by
    rw [h'.get?_old b hbu, h.get?_old b hbt, hb]
    cases next with
    | none => exact ⟨e, by simp [gaining, branching], rfl, he⟩
    | some c =>
      have hkind : e.kind = .conditionDirective := by simpa using hnext
      refine ⟨e.withOtherwise (some c), by simp [gaining, branching], ?_, ?_⟩
      · cases e <;> rfl
      · cases e <;> simp_all [Element.kind, Element.withOtherwise, Element.otherwise?]
  refine ⟨parent?_of_get? hbv, fun k f hf ↦ ⟨Nat.le_refl _, _, hbv, rfl, he'.trans hf.symm,
    rfl, rfl, ShowsAll.mono hbt _ _ hchildren, ?_⟩⟩
  rw [hotherwise]
  exact ShowsNext.mono hbu h'.shows

section Beneath

variable {name : Text} {e : Element} {ids : List Nat} {os : List Outline} {next : Option Nat}
  {o : Option Outline}

theorem Sprouts.beneath (he : e.otherwise? = none)
    (hnext : next = none ∨ e.kind = .conditionDirective)
    (h : Sprouts (t.create name e) u (some t.size) ids os) (h' : Continues u v t.size next o)
    (k : ElementId) {f : Element} (hf : f.withOtherwise none = e.withOtherwise none) :
    Sprouts t v none [t.size] [.node k name f [] [] os o] := by
  have hnew : (t.create name e).get? t.size = some { name := name, element := e } := by
    rw [get?_create, if_pos rfl]
  have hsize : t.size < u.size := Nat.lt_of_lt_of_le (lt_of_get? hnew) h.size_le
  obtain ⟨hparent, hshows⟩ := shows_of_continues hnew he hnext h h'
  refine ⟨⟨?_, h'.roots, fun x hx ↦ ?_⟩, .cons (by simp) .nil, ?_, ?_, ?_⟩
  · exact Nat.le_trans (Nat.le_of_lt hsize) h'.size_le
  · have hne : t.size ≠ x := Nat.ne_of_gt hx
    rw [h'.get?_of_ne (Nat.lt_trans hx hsize) hne,
      h.get?_of_ne (by rw [size_create]; omega) (by simpa using hne), get?_create,
      if_neg (Ne.symm hne)]
    cases t.get? x <;> simp [gaining]
  · intro id hid
    rw [List.mem_singleton.mp hid, hparent]
  · exact ⟨t.size, [], rfl, hshows k f hf, rfl⟩
  · have hroom := h.room
    have hroom' := h'.room
    simp only [size_create, Outline.countAll, Outline.count] at hroom ⊢
    omega

theorem Sprouts.leaf (hroots : t.roots = []) (he : e.otherwise? = none) (k : ElementId) :
    Sprouts t (t.create name e) none [t.size] [.node k name e [] [] [] none] :=
  .beneath he (.inl rfl) (.nil hroots) (Continues.nil (t := t.create name e) hroots t.size) k rfl

/-- A new element gets the comments and attributes that were there before it. -/
theorem Sprouts.headed {ps qs : List Nat} {headers applied : List Outline} {k : ElementId}
    {id : Nat} (h : Sprouts t u none ps headers) (hheaders : ∀ o ∈ headers, o.kind? = some .comment)
    (h₁ : Sprouts u v none qs applied)
    (happlied : ∀ o ∈ applied, o.kind? = some .attributeUse ∧ e.kind.isAttributable = true)
    (h' : Sprouts v w none [id] [.node k name e [] [] os o]) (he : e.kind.isCommentable = true) :
    ps.foldlM (fun w c ↦ w.addHeaderComment id c) w = .ok (w.adopted id .headerComments ps) ∧
      qs.foldlM (fun w a ↦ w.addAttribute id a) (w.adopted id .headerComments ps) =
        .ok ((w.adopted id .headerComments ps).adopted id .attributes qs) ∧
      Sprouts t ((w.adopted id .headerComments ps).adopted id .attributes qs) none [id]
        [.node k name e headers applied os o] := by
  obtain ⟨_, _, hid, hshows, rfl⟩ := h'.shows
  obtain rfl : id = _ := (List.cons.inj hid).1
  have hkind := hshows.kind?
  obtain ⟨hle, n, hn, hname, helement, hnone, hnone', hchildren, hotherwise⟩ := hshows
  obtain ⟨hc, ha⟩ : n.headerComments = [] ∧ n.attributes = [] := ⟨hnone, hnone'⟩
  have hall := h.append h₁ (by simp)
  have hbefore : ∀ p ∈ ps ++ qs, p < v.size := fun p hp ↦ (hall.new p hp).2
  have hmem : id ∉ ps ++ qs := fun hmem ↦ Nat.not_lt.mpr hle (hbefore id hmem)
  obtain ⟨hps, hqs⟩ : id ∉ ps ∧ id ∉ qs := by simpa using hmem
  set x := (w.adopted id .headerComments ps).adopted id .attributes qs
  have hget (y : Nat) : x.get? y = (w.get? y).map fun n ↦
      adopting id .attributes qs y (adopting id .headerComments ps y n) := by
    rw [get?_adopted hqs, get?_adopted hps, Option.map_map]
    rfl
  -- what waited was there before the declaration, and it still looks the same
  have hkeeps : Keeps v x t.size := by
    intro y k hy hk
    have hlt : y < v.size := lt_of_get? hk
    rw [hget, h'.get?_of_ne hlt (by simp), hk, Option.map_some, Option.map_some,
      unplaced_adopting (by omega), unplaced_adopting (by omega)]
  have hkept : Keeps u v t.size := h₁.keeps (by simp)
  have hshown := ShowsAll.keep hkept _ _ h.shows
  have hold {p : Nat} (hp : p ∈ ps ++ qs) : w.kind? p = v.kind? p := by
    rw [kind?, kind?, h'.get?_of_ne (hbefore p hp) (by simp)]
  have hadoptable : Adoptable w id (ps ++ qs) := by
    refine ⟨lt_of_get? hn, h'.parent id (by simp), h'.roots, hmem, fun p hp ↦ ?_, hall.increasing⟩
    rw [h'.parent?_old (hbefore p hp)]
    exact ⟨Nat.lt_of_lt_of_le (hbefore p hp) h'.size_le, hall.parent p hp⟩
  obtain ⟨hcomments, hadoptable⟩ := foldlM_given addHeaderComment_eq_ok hadoptable hkind
    (l := .comment) (fun p hp ↦ by
      obtain ⟨o, ho, hpo⟩ := hshown.exists_of_mem p hp
      rw [hold (by simp [hp]), hpo.kind?, hheaders o ho]
      exact ⟨rfl, by simp [Slot.admits, he]⟩)
    fun p _ ↦ by simp [listOf_of_get? hn, Node.list, hc]
  rw [← List.append_nil qs] at hadoptable
  obtain ⟨hattributes, -⟩ := foldlM_given addAttribute_eq_ok hadoptable
    ((kind?_adopted hps id).trans hkind) (l := .attributeUse)
    (fun q hq ↦ by
      obtain ⟨o, ho, hqo⟩ := h₁.shows.exists_of_mem q hq
      rw [kind?_adopted hps, hold (by simp [hq]), hqo.kind?, (happlied o ho).1]
      exact ⟨rfl, by simp [Slot.admits, (happlied o ho).2]⟩)
    fun q _ ↦ by
      have hid : (w.adopted id .headerComments ps).get? id =
          some { n with headerComments := ps } := by
        rw [get?_adopted hps, hn]
        simp [adopting, Node.modifyList, hc]
      simp [listOf_of_get? hid, Node.list, ha]
  refine ⟨hcomments, hattributes, ?_⟩
  have hnew : x.get? id = some { n with headerComments := ps, attributes := qs } := by
    rw [hget, hn]
    simp [adopting, Node.modifyList, hc, ha]
  -- what stands beneath the declaration has larger numbers than the declaration itself
  have hbeneath : Keeps w x (id + 1) :=
    (keeps_adopted hps fun x hx _ ↦ by omega).trans (keeps_adopted hqs fun x hx _ ↦ by omega)
  refine ⟨⟨?_, ?_, fun y hy ↦ ?_⟩, .cons (by simp) .nil, ?_, ?_, ?_⟩
  · rw [size_adopted, size_adopted]
    exact Nat.le_trans hall.size_le h'.size_le
  · rw [roots_adopted, roots_adopted, h'.roots]
  · have hyv : y < v.size := Nat.lt_of_lt_of_le hy hall.size_le
    have hyp : y ∉ ps ++ qs := fun hmem ↦ Nat.not_lt.mpr (hall.new y hmem).1 hy
    obtain ⟨hyp, hyq⟩ : y ∉ ps ∧ y ∉ qs := by simpa using hyp
    rw [hget, h'.get?_of_ne hyv (by simp), hall.get?_of_ne hy (by simp)]
    refine Option.map_congr fun n _ ↦ ?_
    rw [adopting_of_not_mem (by omega) hyp, adopting_of_not_mem (by omega) hyq,
      gaining_of_ne (by simp)]
  · intro p hp
    rw [List.mem_singleton.mp hp, parent?_of_get? hnew, ← parent?_of_get? hn,
      h'.parent id (by simp)]
  · refine ⟨id, [], rfl, ⟨Nat.le_trans hall.size_le hle, _, hnew, hname, helement, ?_, ?_, ?_, ?_⟩,
      rfl⟩
    · exact ShowsAll.keep hkeeps _ _ hshown
    · exact ShowsAll.keep hkeeps _ _ (ShowsAll.mono h.size_le _ _ h₁.shows)
    · exact ShowsAll.keep hbeneath _ _ hchildren
    · exact ShowsNext.keep hbeneath _ _ hotherwise
  · have hroom := hall.room
    have hroom' := h'.room
    simp only [Outline.countAll, Outline.count, Outline.countAll_append, x,
      size_adopted] at hroom hroom' ⊢
    omega

end Beneath

/-! ### New branches -/

/-- The tree with a new branch after the current one. -/
def branched (t : Tree) (current : ElementId) (name : Text) (condition : Option Text) : Tree :=
  (t.create name (.conditionDirective condition none)).withOtherwise current (some t.size)

section Branched

variable {current : Nat} {name : Text} {condition : Option Text}

@[simp] theorem size_branched : (t.branched current name condition).size = t.size + 1 := by
  rw [branched, withOtherwise, size_modify, size_create]

@[simp] theorem roots_branched : (t.branched current name condition).roots = t.roots := by
  simp [branched, withOtherwise, create]

theorem get?_branched (x : Nat) : (t.branched current name condition).get? x =
    ((t.create name (.conditionDirective condition none)).get? x).map
      (branching current (some t.size) x) := by
  rw [branched, withOtherwise, get?_modify]
  cases (t.create name (.conditionDirective condition none)).get? x <;>
    by_cases hx : current = x <;> simp [branching, hx]

theorem get?_branched_size (name : Text) (condition : Option Text) (hcurrent : current < t.size) :
    (t.branched current name condition).get? t.size =
      some { name := name, element := .conditionDirective condition none } := by
  rw [get?_branched, get?_create, if_pos rfl, Option.map_some,
    branching_of_ne (Nat.ne_of_lt hcurrent)]

theorem Continues.beneath {ids : List Nat} {os : List Outline} {next : Option Nat}
    {o : Option Outline} (hcurrent : current < t.size)
    (h : Sprouts (t.branched current name condition) u (some t.size) ids os)
    (h' : Continues u v t.size next o) (k : ElementId) (i : Option ElementId) :
    Continues t v current (some t.size)
      (some (.node k name (.conditionDirective condition i) [] [] os o)) := by
  have hnew := get?_branched_size name condition hcurrent
  have hsize : t.size < u.size := Nat.lt_of_lt_of_le (lt_of_get? hnew) h.size_le
  obtain ⟨-, hshows⟩ := shows_of_continues hnew rfl (.inr rfl) h h'
  refine ⟨⟨?_, h'.roots, fun x hx ↦ ?_⟩, ?_, ?_⟩
  · exact Nat.le_trans (Nat.le_of_lt hsize) h'.size_le
  · have hx' : t.size ≠ x := Nat.ne_of_gt hx
    rw [h'.get?_of_ne (Nat.lt_trans hx hsize) hx',
      h.get?_of_ne (by rw [size_branched]; omega) (by simpa using hx'), get?_branched, get?_create,
      if_neg (Ne.symm hx')]
  · exact ⟨t.size, rfl, hshows k (.conditionDirective condition i) rfl⟩
  · have hroom := h.room
    have hroom' := h'.room
    simp only [size_branched, Outline.countNext, Outline.count, Outline.countAll] at hroom ⊢
    omega

end Branched

/-- A new branch may become the next one of an older branch. -/
theorem setOtherwise_create {condition : Option Text} (hroots : t.roots = [])
    (hcurrent : t.kind? current = some .conditionDirective) :
    (t.create name (.conditionDirective condition none)).setOtherwise current (some t.size) =
      .ok (t.branched current name condition) := by
  obtain ⟨n, hn, hk⟩ := Option.map_eq_some_iff.mp hcurrent
  have hne : current ≠ t.size := Nat.ne_of_lt (lt_of_get? hn)
  have hnew : (t.create name (.conditionDirective condition none)).get? t.size =
      some { name := name, element := .conditionDirective condition none } := by
    rw [get?_create, if_pos rfl]
  have hold : (t.create name (.conditionDirective condition none)).get? current = some n := by
    rw [get?_create, if_neg hne, hn]
  -- the new branch leads nowhere yet, so the current one cannot be reached from it
  have hchain : (t.create name (.conditionDirective condition none)).chain t.size =
      .ok [t.size] := by
    simp [chain, chainUpTo, node, hnew, Element.otherwise?, bind, Except.bind]
  have hdetached : (t.create name (.conditionDirective condition none)).detached t.size =
      t.create name (.conditionDirective condition none) :=
    detached_of_parent?_eq_none (by rw [parent?_of_get? hnew]) (by simp [create, hroots])
  rw [setOtherwise, expectKind_of_kind? (by rw [kind?_of_get? hold, hk])]
  simp only [bind, Except.bind]
  rw [expectKind_of_kind? (by rw [kind?_of_get? hnew]; rfl)]
  simp [hchain, hne, Ne.symm hne, hdetached, branched]

theorem foldlM_addRoot (hids : ∀ id ∈ ids, id < t.size ∧ t.parent? id = none) (hnodup : ids.Nodup)
    (hroots : ∀ id ∈ ids, id ∉ t.roots) :
    ids.foldlM (fun u id ↦ u.addRoot id) t = .ok { t with roots := t.roots ++ ids } := by
  induction ids generalizing t with
  | nil => simp [pure, Except.pure]
  | cons id ids ih =>
    obtain ⟨hid, hidp⟩ := hids id (by simp)
    obtain ⟨n, hn⟩ := exists_get?_of_lt hid
    have hadd : t.addRoot id = .ok { t with roots := t.roots ++ [id] } := by
      have hcontains : id ∉ t.roots := hroots id (by simp)
      simp [addRoot, node, hn, hcontains, detached_of_parent?_eq_none hidp hcontains, bind,
        Except.bind]
    rw [List.foldlM_cons, hadd]
    refine (ih (t := { t with roots := t.roots ++ [id] }) (fun x hx ↦ hids x (by simp [hx]))
      (List.nodup_cons.mp hnodup).2 fun x hx ↦ ?_).trans (by simp)
    have hx' := hroots x (by simp [hx])
    simp only [List.mem_append, List.mem_singleton, not_or]
    exact ⟨hx', fun heq ↦ (List.nodup_cons.mp hnodup).1 (heq ▸ hx)⟩

end Tree

end SharpOutline
