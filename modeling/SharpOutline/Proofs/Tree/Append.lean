import Mathlib.Data.Fintype.Card
import SharpOutline.Proofs.Tree.Stems

/-!
# One tree after another

`Tree.append` puts the elements of a second tree behind those of a first one: their numbers are all
moved up by the size of the first tree, wherever they occur. What an edit does to the second tree it
does to the whole as well, with all numbers moved (`append_addChild` and so on, up to
`append_copy`). The first tree takes no part in this, except that it may have no roots yet.

Only the walks through a tree depend on its size, because they are cut off where they are longer
than the tree has elements. A walk that is longer goes in circles, so that nothing new is met on it
(`mem_lineage_of_mem_lineageUpTo`), and an outline that was planted was not cut off.
-/

namespace SharpOutline

/-! ## Moved numbers -/

def Element.shift (k : Nat) (e : Element) : Element :=
  e.withOtherwise (e.otherwise?.map (k + ·))

def Node.shift (k : Nat) (n : Node) : Node where
  name := n.name
  parent := n.parent.map (k + ·)
  children := n.children.map (k + ·)
  headerComments := n.headerComments.map (k + ·)
  attributes := n.attributes.map (k + ·)
  element := n.element.shift k

/-- The elements of the first tree, followed by those of the second one with their numbers moved. -/
def Tree.append (t u : Tree) : Tree where
  nodes := t.nodes ++ u.nodes.map (Node.shift t.size)
  roots := t.roots ++ u.roots.map (t.size + ·)

namespace Element

variable {k : Nat} {e : Element}

@[simp] theorem kind_shift (k : Nat) (e : Element) : (e.shift k).kind = e.kind :=
  kind_withOtherwise _ e

@[simp] theorem otherwise?_shift (k : Nat) (e : Element) :
    (e.shift k).otherwise? = e.otherwise?.map (k + ·) := by
  cases e <;> rfl

theorem shift_of_otherwise? (h : e.otherwise? = none) : e.shift k = e := by
  cases e with
  | conditionDirective condition otherwise =>
    obtain rfl : otherwise = none := h
    rfl
  | _ => rfl

@[simp] theorem shift_zero (e : Element) : e.shift 0 = e := by
  cases e with
  | conditionDirective condition otherwise =>
    cases otherwise <;> simp [shift, otherwise?, withOtherwise]
  | _ => rfl

theorem shift_withOtherwise (k : Nat) (o : Option ElementId) (e : Element) :
    (e.withOtherwise o).shift k = (e.shift k).withOtherwise (o.map (k + ·)) := by
  cases e <;> rfl

end Element

theorem map_filter_ne (k id : Nat) (l : List Nat) :
    (l.filter (· != id)).map (k + ·) = (l.map (k + ·)).filter (· != k + id) := by
  induction l with
  | nil => rfl
  | cons x l ih =>
    by_cases hx : x = id
    · simp [hx, ih]
    · have hx' : k + x ≠ k + id := fun h ↦ hx (Nat.add_left_cancel h)
      simp [hx, ih]

theorem contains_map_add (k id : Nat) (l : List Nat) :
    (l.map (k + ·)).contains (k + id) = l.contains id := by
  simp

namespace Node

variable {k : Nat}

@[simp] theorem kind_shift (k : Nat) (n : Node) : (n.shift k).kind = n.kind :=
  n.element.kind_shift k

@[simp] theorem shift_zero (n : Node) : n.shift 0 = n := by
  cases n
  simp [shift]

theorem list_shift (k : Nat) (n : Node) (slot : Slot) :
    (n.shift k).list slot = (n.list slot).map (k + ·) := by
  cases slot <;> rfl

theorem shift_drop (k : Nat) (n : Node) (id : ElementId) :
    (n.drop id).shift k = (n.shift k).drop (k + id) := by
  simp only [drop, shift, map_filter_ne]

theorem shift_modifyList (k : Nat) (n : Node) (slot : Slot) (id : ElementId) :
    (n.modifyList (· ++ [id]) slot).shift k = (n.shift k).modifyList (· ++ [k + id]) slot := by
  cases slot <;> simp [modifyList, shift]

end Node

namespace Tree

variable {b t u : Tree} {id x p c : Nat} {slot : Slot}

/-! ## Looking at elements -/

@[simp] theorem size_append (b t : Tree) : (b.append t).size = b.size + t.size := by
  simp [append, size]

theorem get?_append (b t : Tree) (x : Nat) :
    (b.append t).get? (b.size + x) = (t.get? x).map (Node.shift b.size) := by
  change (b.nodes ++ t.nodes.map (Node.shift b.size))[b.nodes.size + x]? = _
  rw [Array.getElem?_append_right (Nat.le_add_right _ _), Array.getElem?_map,
    Nat.add_sub_cancel_left]
  rfl

theorem get?_append_left (h : x < b.size) : (b.append t).get? x = b.get? x :=
  Array.getElem?_append_left h

theorem parent?_append (b t : Tree) (x : Nat) :
    (b.append t).parent? (b.size + x) = (t.parent? x).map (b.size + ·) := by
  rw [parent?, get?_append, parent?]
  cases t.get? x <;> rfl

theorem empty_append (t : Tree) : append {} t = t := by
  cases t
  have hshift : Node.shift 0 = id := funext Node.shift_zero
  simp [append, size, hshift]

theorem append_empty (t : Tree) : t.append {} = t := by
  cases t
  simp [append]

theorem node_append {n : Node} (h : t.node x = .ok n) :
    (b.append t).node (b.size + x) = .ok (n.shift b.size) := by
  rw [node_eq_ok] at h
  rw [node_eq_ok, get?_append, h]
  rfl

theorem expectKind_append {k : Kind} (h : t.expectKind x k = .ok ()) :
    (b.append t).expectKind (b.size + x) k = .ok () := by
  rw [expectKind, bind_eq_ok] at h ⊢
  obtain ⟨n, hn, h⟩ := h
  refine ⟨_, node_append hn, ?_⟩
  rwa [Node.kind_shift]

theorem kind?_append (b t : Tree) (x : Nat) : (b.append t).kind? (b.size + x) = t.kind? x := by
  rw [kind?, get?_append, Option.map_map, kind?]
  exact congrArg (fun f ↦ (t.get? x).map f) (funext (Node.kind_shift b.size))

theorem listOf_append (b t : Tree) (x : Nat) (slot : Slot) :
    (b.append t).listOf (b.size + x) slot = (t.listOf x slot).map (b.size + ·) := by
  rw [listOf, get?_append, listOf]
  cases t.get? x with
  | none => rfl
  | some n => exact n.list_shift b.size slot

/-! ## Changing elements -/

/-- Trees with the same first part are known by what stands under the moved numbers. -/
theorem append_eq (hroots : (b.append t).roots = u.roots)
    (hleft : ∀ x < b.size, u.get? x = b.get? x)
    (h : ∀ x, u.get? (b.size + x) = (t.get? x).map (Node.shift b.size)) : u = b.append t := by
  refine ext_get? hroots.symm fun x ↦ ?_
  by_cases hx : x < b.size
  · rw [hleft x hx, get?_append_left hx]
  · obtain ⟨y, rfl⟩ := Nat.exists_eq_add_of_le (Nat.not_lt.mp hx)
    rw [h, get?_append]

theorem append_modify {f g : Node → Node} (h : ∀ n, (f n).shift b.size = g (n.shift b.size)) :
    (b.append t).modify (b.size + id) g = b.append (t.modify id f) := by
  refine append_eq rfl (fun x hx ↦ ?_) fun x ↦ ?_
  · have hne : b.size + id ≠ x := by omega
    rw [get?_modify, if_neg hne, get?_append_left hx]
  · rw [get?_modify, get?_append, get?_modify]
    by_cases hx : id = x
    · rw [if_pos (congrArg (b.size + ·) hx), if_pos hx, Option.map_map, Option.map_map]
      exact congrArg (fun f ↦ Option.map f _) (funext fun n ↦ (h n).symm)
    · rw [if_neg fun h ↦ hx (Nat.add_left_cancel h), if_neg hx]

theorem append_create (b t : Tree) (name : Text) (e : Element) :
    (b.append t).create name (e.shift b.size) = b.append (t.create name e) := by
  refine append_eq rfl (fun x hx ↦ ?_) fun x ↦ ?_
  · have hne : x ≠ b.size + t.size := by omega
    rw [get?_create, size_append, if_neg hne, get?_append_left hx]
  · rw [get?_create, size_append, get?_append, get?_create]
    by_cases hx : x = t.size
    · rw [if_pos (by rw [hx]), if_pos hx]
      rfl
    · rw [if_neg fun h ↦ hx (Nat.add_left_cancel h), if_neg hx]

theorem append_appended (b t : Tree) (p : Nat) (slot : Slot) (id : Nat) :
    (b.append t).appended (b.size + p) slot (b.size + id) = b.append (t.appended p slot id) := by
  rw [appended, linked, append_modify fun n ↦ n.shift_modifyList b.size slot id]
  exact append_modify fun n ↦ rfl

theorem append_detached (hb : b.roots = []) (t : Tree) (id : Nat) :
    (b.append t).detached (b.size + id) = b.append (t.detached id) := by
  rw [detached, parent?_append, detached]
  cases t.parent? id with
  | none =>
    have hroots : (b.append t).roots = t.roots.map (b.size + ·) := by simp [append, hb]
    simp only [Option.map_none, hroots, ← map_filter_ne]
    simp [append, hb]
  | some p =>
    simp only [Option.map_some]
    rw [append_modify (f := fun n ↦ { n with parent := none }) fun n ↦ rfl,
      append_modify fun n ↦ n.shift_drop b.size id]

theorem append_withOtherwise (b t : Tree) (id : Nat) (o : Option Nat) :
    (b.append t).withOtherwise (b.size + id) (o.map (b.size + ·)) =
      b.append (t.withOtherwise id o) :=
  append_modify fun n ↦ by simp [Node.shift, Element.shift_withOtherwise]

/-! ## Lineage -/

/-- The ancestor of an element that is so many steps away. -/
def ancestor? (t : Tree) : Nat → ElementId → Option ElementId
  | 0, id => some id
  | n + 1, id => (t.parent? id).bind (t.ancestor? n)

theorem ancestor?_add (t : Tree) (i j id : Nat) :
    t.ancestor? (i + j) id = (t.ancestor? i id).bind (t.ancestor? j) := by
  induction i generalizing id with
  | zero => rw [Nat.zero_add, ancestor?, Option.bind_some]
  | succ i ih =>
    rw [Nat.succ_add, ancestor?, ancestor?]
    cases t.parent? id with
    | none => rfl
    | some p => exact ih p

theorem mem_lineageUpTo_iff {n : Nat} :
    x ∈ t.lineageUpTo n id ↔ ∃ i < n, t.ancestor? i id = some x := by
  induction n generalizing id with
  | zero => simp [lineageUpTo]
  | succ n ih =>
    rw [lineageUpTo, List.mem_cons]
    constructor
    · rintro (rfl | h)
      · exact ⟨0, by omega, rfl⟩
      · cases hp : t.parent? id with
        | none => simp [hp] at h
        | some p =>
          simp only [hp] at h
          obtain ⟨i, hi, hx⟩ := ih.mp h
          exact ⟨i + 1, by omega, by rw [ancestor?, hp]; exact hx⟩
    · rintro ⟨_ | i, hi, hx⟩
      · exact .inl (Option.some.inj hx).symm
      · rw [ancestor?] at hx
        obtain ⟨p, hp, hx⟩ := Option.bind_eq_some_iff.mp hx
        simp only [hp]
        exact .inr (ih.mpr ⟨i, by omega, hx⟩)

theorem lt_of_ancestor? {i y z : Nat} (h : t.ancestor? (i + 1) y = some z) : y < t.size := by
  rw [ancestor?] at h
  obtain ⟨p, hp, -⟩ := Option.bind_eq_some_iff.mp h
  exact lt_of_parent? hp

/-- The shortest way to an ancestor does not meet an element twice, so it is no longer than the tree
has elements. -/
theorem mem_lineage_of_mem_lineageUpTo {n : Nat} (h : x ∈ t.lineageUpTo n id) :
    x ∈ t.lineage id := by
  have hex : ∃ i, t.ancestor? i id = some x := by
    obtain ⟨i, -, hi⟩ := mem_lineageUpTo_iff.mp h
    exact ⟨i, hi⟩
  classical
  obtain ⟨m, hm, hmin⟩ : ∃ m, t.ancestor? m id = some x ∧ ∀ i < m, t.ancestor? i id ≠ some x :=
    ⟨Nat.find hex, Nat.find_spec hex, fun i hi ↦ Nat.find_min hex hi⟩
  have hway : ∀ i : Fin m, ∃ y : Fin t.size, t.ancestor? i id = some y.val := by
    rintro ⟨i, hi⟩
    obtain ⟨j, rfl⟩ := Nat.exists_eq_add_of_lt hi
    rw [Nat.add_assoc, ancestor?_add] at hm
    obtain ⟨y, hy, hrest⟩ := Option.bind_eq_some_iff.mp hm
    exact ⟨⟨y, lt_of_ancestor? hrest⟩, hy⟩
  choose way hway using hway
  have hinjective : Function.Injective way := by
    have hne : ∀ i j : Fin m, i < j → way i ≠ way j := by
      intro i j hij heq
      have hrest : t.ancestor? (m - j) (way i) = some x := by
        have hsplit : (j : Nat) + (m - j) = m := by omega
        rw [← hsplit, ancestor?_add, hway j, Option.bind_some, ← heq] at hm
        exact hm
      refine hmin (i + (m - j)) (by omega) ?_
      rw [ancestor?_add, hway i, Option.bind_some, hrest]
    intro i j heq
    rcases Nat.lt_trichotomy i j with hij | hij | hij
    · exact absurd heq (hne i j hij)
    · exact Fin.ext hij
    · exact absurd heq.symm (hne j i hij)
  have hle : m ≤ t.size := by simpa using Fintype.card_le_of_injective way hinjective
  exact mem_lineageUpTo_iff.mpr ⟨m, by omega, hm⟩

theorem ancestor?_append (b t : Tree) (i id : Nat) :
    (b.append t).ancestor? i (b.size + id) = (t.ancestor? i id).map (b.size + ·) := by
  induction i generalizing id with
  | zero => rfl
  | succ i ih =>
    rw [ancestor?, parent?_append, ancestor?]
    cases t.parent? id with
    | none => rfl
    | some p => exact ih p

/-- Nothing new is met on the way up in the whole. -/
theorem mem_lineage_append (h : b.size + x ∈ (b.append t).lineage (b.size + id)) :
    x ∈ t.lineage id := by
  obtain ⟨i, hi, hx⟩ := mem_lineageUpTo_iff.mp h
  rw [ancestor?_append] at hx
  obtain ⟨y, hy, hxy⟩ := Option.map_eq_some_iff.mp hx
  obtain rfl : y = x := Nat.add_left_cancel hxy
  exact mem_lineage_of_mem_lineageUpTo (mem_lineageUpTo_iff.mpr ⟨i, hi, hy⟩)

/-! ## Edits -/

section Edits

variable (hb : b.roots = [])
include hb

theorem append_addChild (h : t.addChild p c = .ok u) :
    (b.append t).addChild (b.size + p) (b.size + c) = .ok (b.append u) := by
  rw [addChild, bind_eq_ok] at h ⊢
  obtain ⟨n, hn, h⟩ := h
  refine ⟨_, node_append hn, ?_⟩
  have hstays : ((n.shift b.size).parent = some (b.size + p) &&
      ((b.append t).get? (b.size + p)).any fun q ↦ q.children.contains (b.size + c)) =
      (n.parent = some p && (t.get? p).any fun q ↦ q.children.contains c) := by
    congr 1
    · rw [decide_eq_decide]
      simp [Node.shift]
    · rw [get?_append, Option.any_map]
      congr 1
      funext q
      exact contains_map_add b.size c q.children
  rw [hstays]
  split at h
  · rename_i hstay
    rw [if_pos hstay, Except.ok.inj h]
  · rename_i hstay
    rw [if_neg hstay]
    rw [bind_eq_ok] at h ⊢
    obtain ⟨⟨⟩, hcycle, h⟩ := h
    refine ⟨(), ?_, ?_⟩
    · rw [checkNoCycle] at hcycle ⊢
      split at hcycle
      · cases hcycle
      · rename_i hc
        obtain ⟨q, hq, -⟩ := bind_eq_ok.mp hcycle
        rw [if_neg fun hmem ↦ hc (mem_lineage_append hmem), node_append hq]
        rfl
    · rw [append_detached hb, append_appended, Except.ok.inj h]

theorem Given.append (h : t.Given p slot c u) :
    (b.append t).Given (b.size + p) slot (b.size + c) (b.append u) := by
  obtain ⟨⟨k, l, hk, hl, hkl⟩, rfl⟩ := h
  refine ⟨⟨k, l, (kind?_append b t p).trans hk, (kind?_append b t c).trans hl, hkl⟩, ?_⟩
  simp only [listOf_append, ← List.contains_iff_mem, contains_map_add]
  split
  · rfl
  · rw [append_detached hb, append_appended]

theorem append_addHeaderComment (h : t.addHeaderComment p c = .ok u) :
    (b.append t).addHeaderComment (b.size + p) (b.size + c) = .ok (b.append u) :=
  addHeaderComment_eq_ok.mpr (Given.append hb (addHeaderComment_eq_ok.mp h))

theorem append_addAttribute (h : t.addAttribute p c = .ok u) :
    (b.append t).addAttribute (b.size + p) (b.size + c) = .ok (b.append u) :=
  addAttribute_eq_ok.mpr (Given.append hb (addAttribute_eq_ok.mp h))

/-- A new branch follows another one. Nothing follows the new one yet, so the walk through the
branches ends at once. -/
theorem append_setOtherwise_create {name : Text} {condition : Option Text}
    (h : (t.create name (.conditionDirective condition none)).setOtherwise id (some t.size) =
      .ok u) :
    (b.append (t.create name (.conditionDirective condition none))).setOtherwise (b.size + id)
      (some (b.size + t.size)) = .ok (b.append u) := by
  have hnew : ∀ v : Tree, (v.create name (.conditionDirective condition none)).chain v.size =
      .ok [v.size] := by
    intro v
    simp [chain, chainUpTo, node, get?_create, Element.otherwise?, bind, Except.bind]
  have hwhole : b.append (t.create name (.conditionDirective condition none)) =
      (b.append t).create name (.conditionDirective condition none) :=
    (append_create b t name _).symm
  have hchain := hnew (b.append t)
  rw [size_append, ← hwhole] at hchain
  rw [setOtherwise, bind_eq_ok] at h ⊢
  obtain ⟨⟨⟩, hcurrent, h⟩ := h
  refine ⟨(), expectKind_append hcurrent, ?_⟩
  simp only [bind_eq_ok] at h ⊢
  obtain ⟨⟨⟩, hbranch, h⟩ := h
  refine ⟨(), expectKind_append hbranch, ?_⟩
  split at h
  · cases h
  · rename_i hne
    obtain ⟨branches, hbranches, h⟩ := bind_eq_ok.mp h
    obtain rfl : [t.size] = branches := Except.ok.inj ((hnew t).symm.trans hbranches)
    rw [if_neg fun heq ↦ hne (Nat.add_left_cancel heq), bind_eq_ok]
    refine ⟨_, hchain, ?_⟩
    split at h
    · cases h
    · have hid : b.size + id ∉ [b.size + t.size] := fun hmem ↦
        hne (Nat.add_left_cancel (List.mem_singleton.mp hmem)).symm
      rw [if_neg hid, append_detached hb, ← Except.ok.inj h]
      exact congrArg Except.ok (append_withOtherwise b _ id (some t.size))

end Edits

/-! ## Copies -/

section Copies

variable {src : Tree} {n : Nat}

theorem append_plantAll {n' : Nat}
    (ih : ∀ {t u : Tree} {id copy : Nat}, Outline.plant t (src.unfold n id) = .ok (u, copy) →
      Outline.plant (b.append t) ((b.append src).unfold n' (b.size + id)) =
        .ok (b.append u, b.size + copy))
    {ids : List Nat} (h : Outline.plantAll t p slot (ids.map (src.unfold n)) = .ok u) :
    Outline.plantAll (b.append t) (b.size + p) slot
      ((ids.map (b.size + ·)).map ((b.append src).unfold n')) = .ok (b.append u) := by
  induction ids generalizing t with
  | nil =>
    rw [List.map_nil, Outline.plantAll] at h
    rw [List.map_nil, List.map_nil, Outline.plantAll, Except.ok.inj h]
  | cons id ids ihids =>
    rw [List.map_cons, Outline.plantAll, bind_eq_ok] at h
    obtain ⟨⟨t₁, copy⟩, hone, h⟩ := h
    rw [List.map_cons, List.map_cons, Outline.plantAll, bind_eq_ok]
    refine ⟨_, ih hone, ?_⟩
    dsimp only
    rw [append_appended]
    exact ihids h

/-- Planting what a tree shows, and what the whole shows instead. The induction is on the levels of
the outline, of which there may be more in the whole. -/
theorem append_plant {n' : Nat} (hn : n ≤ n') {copy : Nat}
    (h : Outline.plant t (src.unfold n id) = .ok (u, copy)) :
    Outline.plant (b.append t) ((b.append src).unfold n' (b.size + id)) =
      .ok (b.append u, b.size + copy) := by
  induction n generalizing n' t u id copy with
  | zero => simp [unfold, Outline.plant] at h
  | succ n ih =>
    obtain ⟨n', rfl⟩ : ∃ k, n' = k + 1 := ⟨n' - 1, by omega⟩
    have ih : ∀ {t u : Tree} {id copy : Nat}, Outline.plant t (src.unfold n id) = .ok (u, copy) →
        Outline.plant (b.append t) ((b.append src).unfold n' (b.size + id)) =
          .ok (b.append u, b.size + copy) := fun h ↦ ih (Nat.le_of_succ_le_succ hn) h
    obtain ⟨node, t₁, next, t₃, t₄, hid, hnext, hchildren, hheaders, happlied, rfl⟩ :=
      plant_unfold_eq_ok h
    rw [unfold, get?_append, hid]
    simp only [Option.map_some, Outline.plant, bind_eq_ok]
    have hbranch : Outline.plantNext (b.append t)
        ((node.shift b.size).element.otherwise?.map ((b.append src).unfold n')) =
        .ok (b.append t₁, next.map (b.size + ·)) := by
      rw [show (node.shift b.size).element.otherwise? = _ from Element.otherwise?_shift _ _]
      rcases Outline.plantNext_eq_ok hnext with ⟨hnone, rfl, rfl⟩ | ⟨o, branch, ho, rfl, hone⟩
      · rw [Option.map_eq_none_iff.mp hnone]
        rfl
      · obtain ⟨id, hid, rfl⟩ := Option.map_eq_some_iff.mp ho
        rw [hid, Option.map_some, Option.map_some, Outline.plantNext, ih hone]
        rfl
    have hcreate : (b.append t₁).create (node.shift b.size).name
        ((node.shift b.size).element.withOtherwise (next.map (b.size + ·))) =
        b.append (t₁.create node.name (node.element.withOtherwise next)) := by
      rw [← append_create, Element.shift_withOtherwise]
      rfl
    refine ⟨_, hbranch, ?_⟩
    dsimp only
    rw [size_append, hcreate]
    exact ⟨_, append_plantAll ih hchildren, _, append_plantAll ih hheaders, _,
      append_plantAll ih happlied, rfl⟩

theorem append_copy {copy : Nat} (h : t.copy id = .ok (u, copy)) :
    (b.append t).copy (b.size + id) = .ok (b.append u, b.size + copy) := by
  rw [Tree.copy, outline, size_append]
  exact append_plant (Nat.le_add_left _ _) h

end Copies

end Tree

end SharpOutline
