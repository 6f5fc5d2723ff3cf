import Mathlib.Data.List.Nodup
import Mathlib.Tactic.Common
import SharpOutline.Tree.Copy

/-!
# Links that agree

A tree stores every link twice: the parent of an element, and the place of the element in one of the
lists of that parent. `Tree.Linked` says that the two agree, that no element stands in two places,
and that the lists for comments and attributes hold nothing else.

The edits change the links in three ways only. Elements are taken out of all lists and away from the
roots (`Tree.Released`), an element that stands nowhere is put into a list (`Tree.Placed`), or it
becomes a root. What each of these does to a tree with agreeing links is proved once; an edit is
then described by the changes it is made of.

Taking out is stated for all lists of the tree at once. An edit only touches the lists of one
parent, which comes to the same because agreeing links leave no trace of the element anywhere else.
-/

namespace SharpOutline

/-- An element of the second kind may stand in this list of an element of the first kind. -/
def Slot.admits : Slot → Kind → Kind → Bool
  | .children, _, _ => true
  | .headerComments, owner, member => owner.isCommentable && member == .comment
  | .attributes, owner, member => owner.isAttributable && member == .attributeUse

namespace Tree

variable {t u : Tree} {x y p : ElementId}

/-! ## Views of a tree -/

def kind? (t : Tree) (id : ElementId) : Option Kind := (t.get? id).map Node.kind

/-- One of the lists of an element; the lists of an unknown element are empty. -/
def listOf (t : Tree) (owner : ElementId) (slot : Slot) : List ElementId :=
  ((t.get? owner).map fun n ↦ n.list slot).getD []

/-- How often an element stands in the three lists of another one. -/
def occurrences (t : Tree) (owner id : ElementId) : Nat :=
  (t.listOf owner .children).count id + (t.listOf owner .headerComments).count id +
    (t.listOf owner .attributes).count id

/-- The links of a tree agree with each other. -/
structure Linked (t : Tree) : Prop where
  /-- An element that stands in a list of another one has that one as its parent. -/
  parent_of_mem : ∀ {p slot x}, x ∈ t.listOf p slot → t.parent? x = some p
  /-- An element with a parent stands in exactly one place of one of the lists of its parent. -/
  occurrences_eq_one : ∀ {x p}, t.parent? x = some p → t.occurrences p x = 1
  /-- A root is a known element without a parent. -/
  parent_of_mem_roots : ∀ {x}, x ∈ t.roots → x < t.size ∧ t.parent? x = none
  /-- No root stands twice among the roots. -/
  count_roots_eq_one : ∀ {x}, x ∈ t.roots → t.roots.count x = 1
  /-- The lists hold only elements of the kinds that they are for. -/
  admits_of_mem : ∀ {p slot x}, x ∈ t.listOf p slot →
    ∃ k l, t.kind? p = some k ∧ t.kind? x = some l ∧ slot.admits k l = true

theorem get?_eq_none_iff : t.get? x = none ↔ t.size ≤ x := by
  simp [get?, size]

theorem exists_get?_of_lt (h : x < t.size) : ∃ n, t.get? x = some n := by
  cases hx : t.get? x with
  | none => exact absurd h (Nat.not_lt.mpr (get?_eq_none_iff.mp hx))
  | some n => exact ⟨n, rfl⟩

theorem lt_of_get? {n : Node} (h : t.get? x = some n) : x < t.size := by
  by_contra hx
  rw [get?_eq_none_iff.mpr (Nat.not_lt.mp hx)] at h
  simp at h

theorem kind?_of_get? {n : Node} (h : t.get? x = some n) : t.kind? x = some n.kind := by
  rw [kind?, h, Option.map_some]

theorem listOf_of_get? {n : Node} (h : t.get? x = some n) (slot : Slot) :
    t.listOf x slot = n.list slot := by
  rw [listOf, h, Option.map_some, Option.getD_some]

theorem parent?_of_get? {n : Node} (h : t.get? x = some n) : t.parent? x = n.parent := by
  rw [parent?, h, Option.bind_some]

theorem lt_of_parent? (h : t.parent? x = some p) : x < t.size := by
  by_contra hx
  rw [parent?, get?_eq_none_iff.mpr (Nat.not_lt.mp hx)] at h
  simp at h

theorem lt_of_mem_listOf {slot : Slot} (h : x ∈ t.listOf p slot) : p < t.size := by
  by_contra hp
  rw [listOf, get?_eq_none_iff.mpr (Nat.not_lt.mp hp)] at h
  simp at h

namespace Linked

theorem congr (h : t.Linked) (hsize : u.size = t.size) (hkind : ∀ x, u.kind? x = t.kind? x)
    (hparent : ∀ x, u.parent? x = t.parent? x) (hlist : ∀ p s, u.listOf p s = t.listOf p s)
    (hroots : u.roots = t.roots) : u.Linked where
  parent_of_mem hx := by
    rw [hlist] at hx
    rw [hparent, h.parent_of_mem hx]
  occurrences_eq_one hx := by
    rw [hparent] at hx
    rw [occurrences, hlist, hlist, hlist]
    exact h.occurrences_eq_one hx
  parent_of_mem_roots hx := by
    rw [hroots] at hx
    rw [hsize, hparent]
    exact h.parent_of_mem_roots hx
  count_roots_eq_one hx := by
    rw [hroots] at hx ⊢
    exact h.count_roots_eq_one hx
  admits_of_mem hx := by
    rw [hlist] at hx
    rw [hkind, hkind]
    exact h.admits_of_mem hx

theorem nodup_roots (h : t.Linked) : t.roots.Nodup :=
  List.nodup_iff_count_eq_one.mpr fun _ hx ↦ h.count_roots_eq_one hx

theorem count_listOf_le (h : t.Linked) (p : ElementId) (slot : Slot) (x : ElementId) :
    (t.listOf p slot).count x ≤ 1 := by
  by_cases hx : x ∈ t.listOf p slot
  · have hone := h.occurrences_eq_one (h.parent_of_mem hx)
    rw [occurrences] at hone
    cases slot <;> omega
  · rw [List.count_eq_zero_of_not_mem hx]
    exact Nat.zero_le 1

theorem nodup_listOf (h : t.Linked) (p : ElementId) (slot : Slot) : (t.listOf p slot).Nodup :=
  List.nodup_iff_count_le_one.mpr (h.count_listOf_le p slot)

theorem not_mem_listOf (h : t.Linked) (hx : t.parent? x = none) (p : ElementId) (slot : Slot) :
    x ∉ t.listOf p slot := by
  intro hmem
  rw [h.parent_of_mem hmem] at hx
  simp at hx

theorem not_mem_listOf_of_ne (h : t.Linked) {q : ElementId} (hx : t.parent? x = some p)
    (hq : q ≠ p) (slot : Slot) : x ∉ t.listOf q slot := by
  intro hmem
  rw [h.parent_of_mem hmem] at hx
  exact hq (Option.some.inj hx)

/-- No element stands in two lists. -/
theorem place_unique (h : t.Linked) {q : ElementId} {s s' : Slot} (hp : x ∈ t.listOf p s)
    (hq : x ∈ t.listOf q s') : p = q ∧ s = s' := by
  obtain rfl : p = q := Option.some.inj ((h.parent_of_mem hp).symm.trans (h.parent_of_mem hq))
  refine ⟨rfl, ?_⟩
  have hone := h.occurrences_eq_one (h.parent_of_mem hp)
  have hs := List.count_pos_iff.mpr hp
  have hs' := List.count_pos_iff.mpr hq
  rw [occurrences] at hone
  cases s <;> cases s' <;> first | rfl | omega

theorem exists_mem_listOf (h : t.Linked) (hx : t.parent? x = some p) :
    ∃ slot, x ∈ t.listOf p slot := by
  have hone := h.occurrences_eq_one hx
  by_contra hnone
  rw [not_exists] at hnone
  rw [occurrences, List.count_eq_zero_of_not_mem (hnone _),
    List.count_eq_zero_of_not_mem (hnone _), List.count_eq_zero_of_not_mem (hnone _)] at hone
  simp at hone

theorem not_mem_roots (h : t.Linked) (hx : t.parent? x = some p) : x ∉ t.roots := by
  intro hmem
  rw [(h.parent_of_mem_roots hmem).2] at hx
  simp at hx

theorem lt_of_mem (h : t.Linked) {slot : Slot} (hx : x ∈ t.listOf p slot) : x < t.size :=
  lt_of_parent? (h.parent_of_mem hx)

end Linked

/-! ## Changes of links -/

/-- The elements for which `gone` holds were taken out of wherever they stood. -/
structure Released (t u : Tree) (gone : ElementId → Bool) : Prop where
  size : u.size = t.size
  kind : ∀ x, u.kind? x = t.kind? x
  parent : ∀ x, u.parent? x = if gone x then none else t.parent? x
  list : ∀ p slot, u.listOf p slot = (t.listOf p slot).filter fun x ↦ !gone x
  roots : u.roots = t.roots.filter fun x ↦ !gone x

/-- The element was put into a list of another one. -/
structure Placed (t u : Tree) (owner : ElementId) (slot : Slot) (id : ElementId) : Prop where
  size : u.size = t.size
  kind : ∀ x, u.kind? x = t.kind? x
  parent : ∀ x, u.parent? x = if x = id then some owner else t.parent? x
  list : (u.listOf owner slot).Perm (id :: t.listOf owner slot)
  other : ∀ p s, ¬(p = owner ∧ s = slot) → u.listOf p s = t.listOf p s
  roots : u.roots = t.roots

/-- A known element that stands nowhere. -/
structure Free (t : Tree) (id : ElementId) : Prop where
  lt : id < t.size
  parent : t.parent? id = none
  not_mem_roots : id ∉ t.roots

theorem Released.refl (t : Tree) : Released t t fun _ ↦ false :=
  ⟨rfl, fun _ ↦ rfl, fun _ ↦ rfl, fun _ _ ↦ (List.filter_true _).symm, (List.filter_true _).symm⟩

theorem Released.free {gone : ElementId → Bool} (r : Released t u gone) (hx : x < t.size)
    (hgone : gone x = true) : u.Free x where
  lt := by rw [r.size]; exact hx
  parent := by rw [r.parent, if_pos hgone]
  not_mem_roots := by simp [r.roots, hgone]

namespace Linked

theorem released (h : t.Linked) {gone : ElementId → Bool} (r : Released t u gone) : u.Linked where
  parent_of_mem {p slot x} hx := by
    rw [r.list, List.mem_filter] at hx
    rw [r.parent, if_neg (by simpa using hx.2), h.parent_of_mem hx.1]
  occurrences_eq_one {x p} hx := by
    rw [r.parent] at hx
    split at hx
    · simp at hx
    · rename_i hgone
      -- whoever still has a parent was not taken out, so it is in its list as often as before
      have hcount : ∀ l : List ElementId, (l.filter fun y ↦ !gone y).count x = l.count x :=
        fun l ↦ List.count_filter (p := fun y ↦ !gone y) (by simpa using hgone)
      rw [occurrences, r.list, r.list, r.list, hcount, hcount, hcount]
      exact h.occurrences_eq_one hx
  parent_of_mem_roots {x} hx := by
    rw [r.roots, List.mem_filter] at hx
    obtain ⟨hlt, hnone⟩ := h.parent_of_mem_roots hx.1
    rw [r.size, r.parent, hnone, ite_self]
    exact ⟨hlt, rfl⟩
  count_roots_eq_one {x} hx := by
    rw [r.roots] at hx ⊢
    rw [List.mem_filter] at hx
    rw [List.count_filter (p := fun y ↦ !gone y) hx.2]
    exact h.count_roots_eq_one hx.1
  admits_of_mem {p slot x} hx := by
    rw [r.list, List.mem_filter] at hx
    rw [r.kind, r.kind]
    exact h.admits_of_mem hx.1

theorem occurrences_eq_zero (h : t.Linked) (hx : t.parent? x = none) (p : ElementId) :
    t.occurrences p x = 0 := by
  rw [occurrences, List.count_eq_zero_of_not_mem (h.not_mem_listOf hx p _),
    List.count_eq_zero_of_not_mem (h.not_mem_listOf hx p _),
    List.count_eq_zero_of_not_mem (h.not_mem_listOf hx p _)]

end Linked

namespace Placed

variable {owner id : ElementId} {slot : Slot}

theorem mem_listOf (r : Placed t u owner slot id) {s : Slot} (hx : x ∈ u.listOf p s) :
    x ∈ t.listOf p s ∨ (x = id ∧ p = owner ∧ s = slot) := by
  by_cases hp : p = owner ∧ s = slot
  · obtain ⟨rfl, rfl⟩ := hp
    rcases List.mem_cons.mp (r.list.mem_iff.mp hx) with rfl | hx
    · exact Or.inr ⟨rfl, rfl, rfl⟩
    · exact Or.inl hx
  · rw [r.other p s hp] at hx
    exact Or.inl hx

/-- Only the element that was put into the list occurs once more than before. -/
theorem count_listOf (r : Placed t u owner slot id) (p : ElementId) (s : Slot) (x : ElementId) :
    (u.listOf p s).count x =
      (t.listOf p s).count x + if x = id ∧ p = owner ∧ s = slot then 1 else 0 := by
  by_cases hp : p = owner ∧ s = slot
  · obtain ⟨rfl, rfl⟩ := hp
    rw [r.list.count_eq, List.count_cons]
    congr 1
    by_cases hx : x = id
    · simp [hx]
    · rw [if_neg (by simpa using Ne.symm hx), if_neg fun h ↦ hx h.1]
  · rw [r.other p s hp, if_neg fun hx ↦ hp hx.2, Nat.add_zero]

theorem occurrences_eq (r : Placed t u owner slot id) (p x : ElementId) :
    u.occurrences p x = t.occurrences p x + if x = id ∧ p = owner then 1 else 0 := by
  rw [occurrences, r.count_listOf, r.count_listOf, r.count_listOf, occurrences]
  by_cases hx : x = id ∧ p = owner
  · obtain ⟨rfl, rfl⟩ := hx
    cases slot <;> simp <;> omega
  · have hno : ∀ s, ¬(x = id ∧ p = owner ∧ s = slot) := fun s hs ↦ hx ⟨hs.1, hs.2.1⟩
    rw [if_neg hx, if_neg (hno _), if_neg (hno _), if_neg (hno _)]
    omega

end Placed

namespace Linked

theorem placed (h : t.Linked) {owner id : ElementId} {slot : Slot} (hid : t.Free id)
    (hadmits : ∃ k l, t.kind? owner = some k ∧ t.kind? id = some l ∧ slot.admits k l = true)
    (r : Placed t u owner slot id) : u.Linked where
  parent_of_mem {p s x} hx := by
    rcases r.mem_listOf hx with hx | ⟨rfl, rfl, -⟩
    · have hne : x ≠ id := by
        rintro rfl
        exact h.not_mem_listOf hid.parent p s hx
      rw [r.parent, if_neg hne, h.parent_of_mem hx]
    · rw [r.parent, if_pos rfl]
  occurrences_eq_one {x p} hx := by
    rw [r.parent] at hx
    split at hx
    · rename_i hxid
      subst hxid
      rw [r.occurrences_eq, if_pos ⟨rfl, (Option.some.inj hx).symm⟩,
        h.occurrences_eq_zero hid.parent]
    · rename_i hne
      rw [r.occurrences_eq, if_neg fun hx ↦ hne hx.1, h.occurrences_eq_one hx]
  parent_of_mem_roots {x} hx := by
    rw [r.roots] at hx
    have hne : x ≠ id := by
      rintro rfl
      exact hid.not_mem_roots hx
    rw [r.size, r.parent, if_neg hne]
    exact h.parent_of_mem_roots hx
  count_roots_eq_one {x} hx := by
    rw [r.roots] at hx ⊢
    exact h.count_roots_eq_one hx
  admits_of_mem {p s x} hx := by
    rw [r.kind, r.kind]
    rcases r.mem_listOf hx with hx | ⟨rfl, rfl, rfl⟩
    · exact h.admits_of_mem hx
    · exact hadmits

theorem rooted (h : t.Linked) (hid : t.Free x) :
    Linked { t with roots := t.roots ++ [x] } where
  parent_of_mem hx := h.parent_of_mem hx
  occurrences_eq_one hx := h.occurrences_eq_one hx
  parent_of_mem_roots {y} hy := by
    rcases List.mem_append.mp hy with hy | hy
    · exact h.parent_of_mem_roots hy
    · obtain rfl : y = x := List.mem_singleton.mp hy
      exact ⟨hid.lt, hid.parent⟩
  count_roots_eq_one {y} hy := by
    have hnodup : (t.roots ++ [x]).Nodup := by
      rw [List.nodup_append_comm, List.singleton_append, List.nodup_cons]
      exact ⟨hid.not_mem_roots, h.nodup_roots⟩
    exact List.nodup_iff_count_eq_one.mp hnodup y hy
  admits_of_mem hx := h.admits_of_mem hx

end Linked

end Tree

end SharpOutline
