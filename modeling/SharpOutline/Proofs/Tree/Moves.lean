import Mathlib.Data.List.InsertIdx
import SharpOutline.Proofs.Tree.InPlace
import SharpOutline.Proofs.Tree.SingleOwners

/-!
# Moves

Elements stand in rows: the roots, and the lists of each element (`Shelf`). An edit that puts an
element into a row takes it out of the row in which it stood before, and that may be the same row,
so the index at which it is put counts what is left there. Nothing else in the tree changes
(`Tree.Relocated`): a tree is known by the labels of its elements, their parents and its rows.

The main result is `Tree.moves_exact`. It also says that taking a child away and inserting it where
it was gives the old tree back.
-/

namespace SharpOutline

/-- Where elements stand in a row: among the roots, or in a list of an element. -/
inductive Shelf where
  | roots
  | list (owner : ElementId) (slot : Slot)
deriving DecidableEq, Repr

def Shelf.owner? : Shelf → Option ElementId
  | roots => none
  | list owner _ => some owner

theorem Node.ext_list {n m : Node} (hname : n.name = m.name) (hparent : n.parent = m.parent)
    (hlist : ∀ s, n.list s = m.list s) (helement : n.element = m.element) : n = m := by
  cases n
  cases m
  rw [Node.mk.injEq]
  exact ⟨hname, hparent, hlist .children, hlist .headerComments, hlist .attributes, helement⟩

namespace Tree

variable {t u v : Tree} {id owner x p : ElementId} {slot : Slot}

/-! ## Labels and rows -/

/-- What an element is apart from its links: its name and its data. -/
def label? (t : Tree) (id : ElementId) : Option (Text × Element) :=
  (t.get? id).map fun n ↦ (n.name, n.element)

def shelf (t : Tree) : Shelf → List ElementId
  | .roots => t.roots
  | .list owner slot => t.listOf owner slot

theorem label?_modify (t : Tree) (id x : ElementId) {f : Node → Node}
    (hf : ∀ n, ((f n).name, (f n).element) = (n.name, n.element)) :
    (t.modify id f).label? x = t.label? x :=
  view_modify (Option.map fun n ↦ (n.name, n.element)) (fun n ↦ congrArg some (hf n)) t id x

theorem label?_detached (t : Tree) (id x : ElementId) :
    (t.detached id).label? x = t.label? x := by
  rw [detached]
  split
  · rw [label?_modify _ _ _ fun n ↦ by rfl, label?_modify _ _ _ fun n ↦ by rfl]
  · rfl

theorem label?_linked (t : Tree) (owner : ElementId) (slot : Slot)
    (put : List ElementId → List ElementId) (id x : ElementId) :
    (t.linked owner slot put id).label? x = t.label? x := by
  rw [linked, label?_modify _ _ _ fun n ↦ by rfl,
    label?_modify _ _ _ fun n ↦ by cases slot <;> rfl]

theorem ext_shelf (hlabel : ∀ x, t.label? x = u.label? x) (hparent : ∀ x, t.parent? x = u.parent? x)
    (hshelf : ∀ s, t.shelf s = u.shelf s) : t = u := by
  refine ext_get? (hshelf .roots) fun x ↦ ?_
  have hlabel := hlabel x
  rw [label?, label?] at hlabel
  cases ht : t.get? x with
  | none =>
    rw [ht, Option.map_none, eq_comm, Option.map_eq_none_iff] at hlabel
    exact hlabel.symm
  | some n =>
    rw [ht, Option.map_some, eq_comm, Option.map_eq_some_iff] at hlabel
    obtain ⟨m, hm, hlabel⟩ := hlabel
    obtain ⟨hname, helement⟩ := Prod.mk.inj hlabel
    have hlist : ∀ s, n.list s = m.list s := by
      intro s
      rw [← listOf_of_get? ht, ← listOf_of_get? hm]
      exact hshelf (.list x s)
    have hparent : n.parent = m.parent := by
      rw [← parent?_of_get? ht, ← parent?_of_get? hm, hparent]
    rw [hm, Node.ext_list hname.symm hparent hlist helement.symm]

/-! ## Relocation -/

/-- The second tree is the first one, except that an element was taken out of the row in which it
stood, if it stood in one, and now stands at an index of a row. -/
structure Relocated (t u : Tree) (id : ElementId) (target : Shelf) (index : Nat) : Prop where
  label : ∀ x, u.label? x = t.label? x
  parent : ∀ x, u.parent? x = if x = id then target.owner? else t.parent? x
  shelf : ∀ s, u.shelf s =
    if s = target then ((t.shelf s).erase id).insertIdx index id else (t.shelf s).erase id

/-- Where an element goes determines the tree. -/
theorem Relocated.unique {target : Shelf} {index : Nat} (hu : Relocated t u id target index)
    (hv : Relocated t v id target index) : u = v :=
  ext_shelf (fun x ↦ (hu.label x).trans (hv.label x).symm)
    (fun x ↦ (hu.parent x).trans (hv.parent x).symm) fun s ↦ (hu.shelf s).trans (hv.shelf s).symm

namespace Linked

theorem nodup_shelf (h : t.Linked) (s : Shelf) : (t.shelf s).Nodup := by
  cases s with
  | roots => exact h.nodup_roots
  | list owner slot => exact h.nodup_listOf owner slot

theorem owner?_of_mem_shelf (h : t.Linked) {s : Shelf} (hx : x ∈ t.shelf s) :
    t.parent? x = s.owner? := by
  cases s with
  | roots => exact (h.parent_of_mem_roots hx).2
  | list owner slot => exact h.parent_of_mem hx

theorem shelf_unique (h : t.Linked) {s s' : Shelf} (hs : x ∈ t.shelf s) (hs' : x ∈ t.shelf s') :
    s' = s := by
  have howner := (h.owner?_of_mem_shelf hs').symm.trans (h.owner?_of_mem_shelf hs)
  cases s with
  | roots =>
    cases s' with
    | roots => rfl
    | list owner' slot' => cases howner
  | list owner slot =>
    cases s' with
    | roots => cases howner
    | list owner' slot' =>
      obtain ⟨rfl, rfl⟩ := h.place_unique hs hs'
      rfl

end Linked

theorem Released.shelf (h : t.Linked) (r : Released t u (· == id)) (s : Shelf) :
    u.shelf s = (t.shelf s).erase id := by
  rw [(h.nodup_shelf s).erase_eq_filter]
  cases s with
  | roots => exact r.roots
  | list owner slot => exact r.list owner slot

theorem relocated_linked (h : t.Linked) (howner : owner < t.size) (hid : id < t.size)
    {put : List ElementId → List ElementId} (index : Nat → Nat)
    (hput : ∀ l, put l = l.insertIdx (index l.length) id) (hindex : ∀ n, index n ≤ n) :
    Relocated t ((t.detached id).linked owner slot put id) id (.list owner slot)
      (index ((t.shelf (.list owner slot)).erase id).length) := by
  have r := released_detached h id
  have hperm : ∀ l, (put l).Perm (id :: l) := by
    intro l
    rw [hput]
    exact List.perm_insertIdx id l (hindex l.length)
  have placed : Placed (t.detached id) ((t.detached id).linked owner slot put id) owner slot id :=
    placed_linked (by rwa [r.size]) (by rwa [r.size]) hperm
  refine ⟨fun x ↦ ?_, fun x ↦ parent?_moved h howner hid hperm x, fun s ↦ ?_⟩
  · rw [label?_linked, label?_detached]
  · rw [← r.shelf h s]
    cases s with
    | roots => exact placed.roots
    | list q s =>
      by_cases hq : q = owner ∧ s = slot
      · obtain ⟨rfl, rfl⟩ := hq
        have hlist : (t.detached id).listOf q s = (t.shelf (.list q s)).erase id :=
          r.shelf h (.list q s)
        rw [if_pos rfl, ← hlist]
        change ((t.detached id).linked q s put id).listOf q s = _
        rw [linked, listOf_setParent, listOf_modifyList _ (by rwa [r.size]), if_pos ⟨rfl, rfl⟩,
          hput]
        rfl
      · rw [if_neg fun heq ↦ hq (Shelf.list.inj heq)]
        exact placed.other q s hq

theorem relocated_appended (h : t.Linked) (howner : owner < t.size) (hid : id < t.size) :
    Relocated t ((t.detached id).appended owner slot id) id (.list owner slot)
      ((t.shelf (.list owner slot)).erase id).length :=
  relocated_linked h howner hid (fun n ↦ n) (fun _ ↦ List.insertIdx_length_self.symm)
    fun _ ↦ Nat.le_refl _

theorem relocated_rooted (h : t.Linked) :
    Relocated t { t.detached id with roots := (t.detached id).roots ++ [id] } id .roots
      ((t.shelf .roots).erase id).length := by
  have r := released_detached h id
  refine ⟨fun x ↦ label?_detached t id x, fun x ↦ ?_, fun s ↦ ?_⟩
  · refine (r.parent x).trans ?_
    simp only [beq_iff_eq]
    rfl
  · rw [← r.shelf h s]
    cases s with
    | roots =>
      rw [if_pos rfl, ← r.shelf h .roots, List.insertIdx_length_self]
      rfl
    | list q s => rfl

end Tree

/-! ## Edits that move an element -/

namespace Edit

open SharpOutline.Tree

variable {t u : Tree} {e : Edit} {id owner : ElementId}

/-- The row into which an edit puts an element. -/
def target : Edit → Option Shelf
  | addRoot _ => some .roots
  | addChild parent _ => some (.list parent .children)
  | insertChild parent _ _ => some (.list parent .children)
  | addHeaderComment owner _ => some (.list owner .headerComments)
  | addAttribute owner _ => some (.list owner .attributes)
  | _ => none

/-- The index at which an edit puts an element into a row with so many others. -/
def index : Edit → Nat → Nat
  | insertChild _ index _, others => min index others
  | _, others => others

/-- The edit is to put an element at the end of the row in which it stands already. -/
def Repeats (t : Tree) : Edit → Prop
  | addRoot id => id ∈ t.shelf .roots
  | addChild parent child => child ∈ t.shelf (.list parent .children)
  | addHeaderComment owner comment => comment ∈ t.shelf (.list owner .headerComments)
  | addAttribute owner used => used ∈ t.shelf (.list owner .attributes)
  | _ => False

/-- What an edit does that puts an element into a row: nothing if it repeats what was done before,
and otherwise it moves the element, if it is not refused. -/
structure Exact (t : Tree) (e : Edit) (id : ElementId) (target : Shelf) : Prop where
  repeated : e.Repeats t → e.apply t = .ok t
  moved : ∀ u, e.apply t = .ok u → ¬e.Repeats t →
    Relocated t u id target (e.index ((t.shelf target).erase id).length)

theorem exact_addRoot (h : t.Linked) (id : ElementId) : Exact t (.addRoot id) id .roots := by
  refine ⟨fun hmem ↦ ?_, fun u hu hnot ↦ ?_⟩
  · obtain ⟨hlt, hparent⟩ := h.parent_of_mem_roots hmem
    obtain ⟨n, hn⟩ := exists_get?_of_lt hlt
    rw [parent?_of_get? hn] at hparent
    have hroot : (n.parent.isNone && t.roots.contains id) = true := by
      rw [hparent, Bool.and_eq_true, List.contains_iff_mem]
      exact ⟨rfl, hmem⟩
    rw [apply, Tree.addRoot, node_eq_ok.mpr hn]
    exact if_pos hroot
  · cases does_apply hu with
    | keepsRoot hroot => exact absurd hroot hnot
    | addRoot => exact relocated_rooted h
    | keeps he => cases he
    | moves he => cases he
    | frees he => cases he

/-- An element is put at the end of a list of another one, unless it stands there already. -/
theorem relocated_into (h : t.Linked) {slot : Slot} (he : e.into = some (owner, slot, id))
    (hput : e.put id = (· ++ [id])) (hu : e.apply t = .ok u)
    (hnot : id ∉ t.shelf (.list owner slot)) :
    Relocated t u id (.list owner slot) ((t.shelf (.list owner slot)).erase id).length := by
  obtain ⟨hmem, -⟩ | ⟨howner, hid, rfl⟩ := cases_of_into he hu
  · exact absurd hmem hnot
  · rw [hput]
    exact relocated_appended h howner hid

theorem exact_addChild (h : t.Linked) (parent child : ElementId) :
    Exact t (.addChild parent child) child (.list parent .children) := by
  refine ⟨fun hmem ↦ ?_, fun u hu hnot ↦ relocated_into h rfl rfl hu hnot⟩
  have hparent := h.parent_of_mem hmem
  obtain ⟨n, hn⟩ := exists_get?_of_lt (lt_of_parent? hparent)
  obtain ⟨m, hm⟩ := exists_get?_of_lt (lt_of_mem_listOf hmem)
  have hlisted : child ∈ m.list .children := by
    rw [← listOf_of_get? hm]
    exact hmem
  rw [parent?_of_get? hn] at hparent
  rw [apply, Tree.addChild, node_eq_ok.mpr hn]
  refine if_pos ?_
  rw [hm, Bool.and_eq_true, decide_eq_true_iff, Option.any_some, List.contains_iff_mem]
  exact ⟨hparent, hlisted⟩

theorem exact_insertChild (h : t.Linked) (parent : ElementId) (index : Nat) (child : ElementId) :
    Exact t (.insertChild parent index child) child (.list parent .children) := by
  refine ⟨False.elim, fun u hu _ ↦ ?_⟩
  obtain ⟨⟨⟩, hcheck, hu⟩ := bind_eq_ok.mp hu
  obtain ⟨v, hv, hu⟩ := bind_eq_ok.mp hu
  obtain ⟨n, hn, hv⟩ := bind_eq_ok.mp hv
  cases hv
  cases hu
  exact relocated_linked h (checkNoCycle_eq_ok hcheck) (lt_of_get? (node_eq_ok.mp hn))
    (min index) (fun _ ↦ rfl) (Nat.min_le_right index)

theorem exact_addHeaderComment (h : t.Linked) (owner comment : ElementId) :
    Exact t (.addHeaderComment owner comment) comment (.list owner .headerComments) where
  repeated hmem := addHeaderComment_eq_ok.mpr ⟨h.admits_of_mem hmem, (if_pos hmem).symm⟩
  moved _ hu hnot := relocated_into h (e := .addHeaderComment owner comment) rfl rfl hu hnot

theorem exact_addAttribute (h : t.Linked) (owner used : ElementId) :
    Exact t (.addAttribute owner used) used (.list owner .attributes) where
  repeated hmem := addAttribute_eq_ok.mpr ⟨h.admits_of_mem hmem, (if_pos hmem).symm⟩
  moved _ hu hnot := relocated_into h (e := .addAttribute owner used) rfl rfl hu hnot

/-- Every edit that puts an element into a row. -/
theorem exact_of_puts (h : t.Linked) {target : Shelf} (hputs : e.puts = some id)
    (htarget : e.target = some target) : Exact t e id target := by
  cases e <;> cases hputs <;> cases htarget
  · exact exact_addRoot h id
  · exact exact_addChild h _ id
  · exact exact_insertChild h _ _ id
  · exact exact_addHeaderComment h _ id
  · exact exact_addAttribute h _ id

end Edit

namespace Tree

variable {t u v : Tree} {p c : ElementId}

/-! ## Taking a child away and putting it back -/

/-- A list is what it was if an element is taken out and put back at its index. -/
theorem insertIdx_erase {l : List ElementId} (h : l.Nodup) {i : Nat} (hi : l[i]? = some c) :
    ((l.erase c).erase c).insertIdx (min i ((l.erase c).erase c).length) c = l := by
  obtain ⟨hlt, rfl⟩ := List.getElem?_eq_some_iff.mp hi
  rw [List.erase_of_not_mem h.not_mem_erase, h.erase_getElem, List.length_eraseIdx_of_lt hlt,
    Nat.min_eq_left (Nat.le_sub_one_of_lt hlt), List.insertIdx_eraseIdx_getElem hlt]

theorem removeChild_of_mem (h : t.Linked) (hc : c ∈ t.listOf p .children) :
    ∃ v, t.removeChild p c = .ok (v, true) ∧ Released t v (· == c) ∧
      ∀ x, v.label? x = t.label? x := by
  obtain ⟨n, hn⟩ := exists_get?_of_lt (lt_of_mem_listOf hc)
  have hlisted : (n.list .children).contains c = true := by
    rw [← listOf_of_get? hn, List.contains_iff_mem]
    exact hc
  refine ⟨_, ?_, released_erase h hc, fun x ↦ ?_⟩
  · rw [removeChild, removeFrom, node_eq_ok.mpr hn]
    exact if_pos hlisted
  · rw [label?_modify _ _ _ fun n ↦ by rfl, label?_modify _ _ _ fun n ↦ by rfl]

/-- A child that is taken away can be inserted where it was, which gives the old tree back. -/
theorem insertChild_removeChild (h : t.Linked) (hacyclic : t.Acyclic) {i : Nat}
    (hi : (t.listOf p .children)[i]? = some c) :
    ∃ v, t.removeChild p c = .ok (v, true) ∧ v.insertChild p i c = .ok t := by
  have hc := List.mem_of_getElem? hi
  have hparent := h.parent_of_mem hc
  obtain ⟨v, hv, r, hlabel⟩ := removeChild_of_mem h hc
  have hlinked : v.Linked := h.released r
  -- Fewer elements lie above the old parent than before, and the child was not above it.
  have hnot : c ∉ v.lineage p := by
    intro hmem
    obtain ⟨n, hn⟩ := mem_lineage_iff.mp hmem
    refine hacyclic.not_mem_lineage hparent (mem_lineage_iff.mpr ⟨n, ?_⟩)
    refine ancestor?_of_parent? (fun x q hq ↦ ?_) hn
    rw [r.parent] at hq
    split at hq
    · cases hq
    · exact hq
  have hput : v.ChildPut p c (v.insertChild p i c) := by
    apply childPut_insertChild hlinked <;> rw [r.size]
    · exact lt_of_mem_listOf hc
    · exact lt_of_parent? hparent
  obtain ⟨hmem, -⟩ | ⟨-, w, hw, -⟩ := hput
  · exact absurd hmem hnot
  refine ⟨v, hv, ?_⟩
  have hmoved := (Edit.exact_insertChild hlinked p i c).moved w hw id
  have hback : Relocated v t c (.list p .children)
      ((Edit.insertChild p i c).index ((v.shelf (.list p .children)).erase c).length) := by
    refine ⟨fun x ↦ (hlabel x).symm, fun x ↦ ?_, fun s ↦ ?_⟩
    · rw [r.parent]
      by_cases hx : x = c
      · rw [if_pos hx, hx]
        exact hparent
      · rw [if_neg hx, if_neg (by simpa using hx)]
    · rw [r.shelf h, r.shelf h]
      by_cases hs : s = .list p .children
      · subst hs
        rw [if_pos rfl]
        exact (insertIdx_erase (h.nodup_listOf p .children) hi).symm
      · rw [if_neg hs]
        have hnone : c ∉ t.shelf s := fun hmem ↦ hs (h.shelf_unique hc hmem)
        rw [List.erase_of_not_mem hnone, List.erase_of_not_mem hnone]
  rw [hw, hmoved.unique hback]

/-- **Moves are exact.** In a tree whose links agree an element stands in at most one row, and only
once. An edit that puts an element into a row and is not refused moves it there, from the row in
which it stood, to the end or, where an index is given, before the element that has this index among
the others; the parent of the element changes with it, and the names, the data, the order of the
other elements and everything else stay as they are. To put an element at the end of the row in
which it stands changes nothing. And where there are no circles of parents, to take a child away and
insert it at its old index gives back the old tree. -/
theorem moves_exact (h : t.Linked) :
    (∀ x s, x ∈ t.shelf s → (t.shelf s).count x = 1 ∧ ∀ s', x ∈ t.shelf s' → s' = s) ∧
    (∀ (e : Edit) (id : ElementId) (target : Shelf), e.puts = some id → e.target = some target →
      (e.Repeats t → e.apply t = .ok t) ∧
      ∀ u, e.apply t = .ok u → ¬e.Repeats t →
        Relocated t u id target (e.index ((t.shelf target).erase id).length)) ∧
    ∀ p c i, t.Acyclic → (t.listOf p .children)[i]? = some c →
      ∃ v, t.removeChild p c = .ok (v, true) ∧ v.insertChild p i c = .ok t := by
  refine ⟨fun x s hx ↦ ⟨?_, fun s' hx' ↦ h.shelf_unique hx hx'⟩,
    fun e id target hputs htarget ↦ ?_, fun p c i hacyclic hi ↦ ?_⟩
  · exact List.count_eq_one_of_mem (h.nodup_shelf s) hx
  · have hexact := Edit.exact_of_puts h hputs htarget
    exact ⟨hexact.repeated, hexact.moved⟩
  · exact insertChild_removeChild h hacyclic hi

/-- A namespace with three namespaces in it. -/
def threeChildren : List Edit :=
  [.create "A".toList (.nameSpace false), .create "B".toList (.nameSpace false),
    .create "C".toList (.nameSpace false), .create "D".toList (.nameSpace false), .addRoot 0,
    .addChild 0 1, .addChild 0 2, .addChild 0 3]

theorem acyclic_threeChildren : (built threeChildren).Acyclic :=
  Acyclic.empty.foldl_edited Linked.empty (by simp [threeChildren, Edit.Buries])

/-- The first child that is inserted at index two is the last one afterwards, a child that is added
again stays where it is, and the second child can be taken away and put back. -/
theorem moves_exact_threeChildren :
    (∃ u, (built threeChildren).insertChild 0 2 1 = .ok u ∧
      Relocated (built threeChildren) u 1 (.list 0 .children) 2 ∧
      u.listOf 0 .children = [2, 3, 1]) ∧
    (built threeChildren).addChild 0 2 = .ok (built threeChildren) ∧
    ∃ v, (built threeChildren).removeChild 0 2 = .ok (v, true) ∧
      v.insertChild 0 1 2 = .ok (built threeChildren) := by
  have hlinked : (built threeChildren).Linked := Linked.empty.foldl_edited threeChildren
  obtain ⟨-, hmoves, hback⟩ := moves_exact hlinked
  refine ⟨⟨(built threeChildren).edited (.insertChild 0 2 1), by decide +kernel, ?_,
    by decide +kernel⟩, ?_, ?_⟩
  · exact (hmoves (.insertChild 0 2 1) 1 _ rfl rfl).2 _ (by decide +kernel) id
  · exact (hmoves (.addChild 0 2) 2 _ rfl rfl).1
      (show 2 ∈ (built threeChildren).shelf (.list 0 .children) by decide +kernel)
  · exact hback 0 2 1 acyclic_threeChildren (by decide +kernel)

end Tree

end SharpOutline
