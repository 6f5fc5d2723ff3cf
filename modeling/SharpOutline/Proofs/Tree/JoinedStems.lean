import SharpOutline.Proofs.Tree.Ancestors
import SharpOutline.Proofs.Tree.DeepCopies

/-!
# Joining stems

A stem hangs from nothing, so it can be put beneath any element of another stem: no such edit is
refused for a circle, and none finds the stem where it is to be put (`Tree.MadeOf.addChild_eq` and
its like).

What an element looks like depends only on what hangs from it (`Tree.Undisturbed`). So a stem looks
the same in whatever another one gains, and it still does where it has been put.
-/

namespace SharpOutline

open Relation

namespace Tree

open Outline

variable {t u : Tree} {x p : Nat} {s r : Stem} {stems : List Stem} {slot : Slot}

/-! ## What stays as it looks -/

/-- Whatever hangs from the element is in the second tree as it was in the first one, except for
where it stands. -/
def Undisturbed (t u : Tree) (x : Nat) : Prop :=
  ∀ y, ReflTransGen t.Owns x y → (u.get? y).map Node.unplaced = (t.get? y).map Node.unplaced

namespace Undisturbed

theorem owned {y : Nat} (h : Undisturbed t u x) (hy : t.Owns x y) : Undisturbed t u y :=
  fun z hz ↦ h z (.head hy hz)

theorem unfold_eq (h : Undisturbed t u x) (n : Nat) : u.unfold n x = t.unfold n x := by
  induction n generalizing x with
  | zero => rfl
  | succ n ih =>
    have hx := h x .refl
    cases ht : t.get? x with
    | none =>
      rw [ht, Option.map_none, Option.map_eq_none_iff] at hx
      rw [unfold, unfold, ht, hx]
    | some node =>
      rw [ht, Option.map_some, Option.map_eq_some_iff] at hx
      obtain ⟨kept, hkept, heq⟩ := hx
      obtain ⟨kname, kchildren, kheaders, kapplied, kelement⟩ := Node.unplaced_eq_iff.mp heq
      have hlist (slot : Slot) : (node.list slot).map (u.unfold n) =
          (node.list slot).map (t.unfold n) := by
        refine List.map_congr_left fun y hy ↦ ih (h.owned (.inl ⟨slot, ?_⟩))
        rwa [listOf_of_get? ht]
      have hnext : node.element.otherwise?.map (u.unfold n) =
          node.element.otherwise?.map (t.unfold n) := by
        refine Option.map_congr fun y hy ↦ ih (h.owned (.inr ?_))
        rw [otherwise?, ht, Option.bind_some, hy]
      simp only [unfold, ht, hkept, kname, kchildren, kheaders, kapplied, kelement, hnext]
      congr 1
      · exact hlist .headerComments
      · exact hlist .attributes
      · exact hlist .children

theorem outline_eq (h : Undisturbed t u x) (hwhole : (t.outline x).isWhole = true)
    (hsize : t.size ≤ u.size) : u.outline x = t.outline x := by
  obtain ⟨n, hn⟩ := Nat.exists_eq_add_of_le hsize
  have hmore : ∀ n, t.unfold (t.size + n) x = t.outline x := by
    intro n
    induction n with
    | zero => rfl
    | succ n ih => rw [← Nat.add_assoc, unfold_succ_of_isWhole (by rw [ih]; exact hwhole), ih]
  rw [outline, h.unfold_eq, hn, hmore]

end Undisturbed

namespace MadeOf

theorem acyclicBelow (h : t.MadeOf stems) (x : Nat) : t.AcyclicBelow x :=
  fun _ _ ↦ h.forest.irrefl

theorem lt_of_reached (h : t.MadeOf stems) (hx : x < t.size) {y : Nat}
    (hy : ReflTransGen t.Owns x y) : y < t.size := by
  rcases hy.cases_tail with rfl | ⟨z, -, hz⟩
  · exact hx
  · exact (h.forest.lt_of_owns hz).2

theorem isWhole_outline (h : t.MadeOf stems) (hx : x < t.size) : (t.outline x).isWhole = true :=
  (h.acyclicBelow x).isWhole_outline fun _ hy ↦ h.lt_of_reached hx hy

theorem not_reached (h : t.MadeOf (s :: stems)) (hr : r ∈ stems)
    (hp : ReflTransGen t.Owns r.head p) : ¬ReflTransGen t.Owns s.head p := fun hs ↦
  h.head_ne hr (h.forest.head_unique (List.mem_map_of_mem (List.mem_cons_of_mem s hr))
    (List.mem_map_of_mem List.mem_cons_self) hp hs)

/-! ## Edits that succeed -/

theorem reached_of_ancestor? (hlinked : t.Linked) {i : Nat} (h : t.ancestor? i p = some x) :
    ReflTransGen t.Owns x p := by
  induction i generalizing p with
  | zero =>
    cases h
    exact .refl
  | succ i ih =>
    rw [ancestor?, Option.bind_eq_some_iff] at h
    obtain ⟨q, hq, h⟩ := h
    exact (ih h).tail (.inl (hlinked.exists_mem_listOf hq))

theorem addChild_eq (h : t.MadeOf (s :: stems)) (hlinked : t.Linked) (hr : r ∈ stems)
    (hp : ReflTransGen t.Owns r.head p) :
    t.addChild p s.head = .ok (t.appended p .children s.head) := by
  obtain ⟨n, hn⟩ := exists_get?_of_lt (h.lt_of_mem List.mem_cons_self)
  obtain ⟨k, hk⟩ := exists_get?_of_lt
    (h.lt_of_reached (h.lt_of_mem (List.mem_cons_of_mem s hr)) hp)
  have hparent : n.parent = none := by
    rw [← parent?_of_get? hn, h.parent_of_mem List.mem_cons_self]
  have hlineage : s.head ∉ t.lineage p := by
    rw [mem_lineage_iff]
    rintro ⟨i, hi⟩
    exact h.not_reached hr hp (reached_of_ancestor? hlinked hi)
  simp [Tree.addChild, node, hn, hk, hparent, checkNoCycle, hlineage,
    h.detached_eq List.mem_cons_self, bind, Except.bind]

theorem given_appended (h : t.MadeOf (s :: stems)) {slot : Slot}
    (hadmits : ∃ k l, t.kind? p = some k ∧ t.kind? s.head = some l ∧ slot.admits k l = true) :
    t.Given p slot s.head (t.appended p slot s.head) where
  admits := hadmits
  eq := by
    rw [if_neg (h.not_mem_listOf List.mem_cons_self p slot), h.detached_eq List.mem_cons_self]

theorem addHeaderComment_eq {k : Kind} (h : t.MadeOf (s :: stems)) (hp : t.kind? p = some k)
    (hk : k.isCommentable = true) (hs : t.kind? s.head = some .comment) :
    t.addHeaderComment p s.head = .ok (t.appended p .headerComments s.head) :=
  addHeaderComment_eq_ok.mpr (h.given_appended ⟨k, _, hp, hs, by simp [Slot.admits, hk]⟩)

theorem addAttribute_eq {k : Kind} (h : t.MadeOf (s :: stems)) (hp : t.kind? p = some k)
    (hk : k.isAttributable = true) (hs : t.kind? s.head = some .attributeUse) :
    t.addAttribute p s.head = .ok (t.appended p .attributes s.head) :=
  addAttribute_eq_ok.mpr (h.given_appended ⟨k, _, hp, hs, by simp [Slot.admits, hk]⟩)

/-! ## Another head -/

variable {c : Nat} {f : Node → Node}

/-- Where only the data of an element change, its outline changes nowhere else. -/
theorem outline_modify (h : t.MadeOf (.whole c :: stems)) (hlist : ∀ n s, (f n).list s = n.list s)
    (hparent : ∀ n, (f n).parent = n.parent)
    (hotherwise : ∀ n, (f n).element.otherwise? = n.element.otherwise?) :
    ∃ n, t.get? c = some n ∧
      t.outline c = .node c n.name n.element (n.headerComments.map t.outline)
        (n.attributes.map t.outline) (n.children.map t.outline)
        (n.element.otherwise?.map t.outline) ∧
      (t.modify c f).outline c = .node c (f n).name (f n).element (n.headerComments.map t.outline)
        (n.attributes.map t.outline) (n.children.map t.outline)
        (n.element.otherwise?.map t.outline) := by
  have hc : c < t.size := h.lt_of_mem (s := .whole c) List.mem_cons_self
  have hmodified := h.modify hlist hparent hotherwise
  obtain ⟨n, hn, hold⟩ := outline_eq_node (h.isWhole_outline hc)
  obtain ⟨n', hn', hnew⟩ := outline_eq_node
    (hmodified.isWhole_outline (x := c) (by rwa [size_modify]))
  obtain rfl : f n = n' := by
    rw [get?_modify, if_pos rfl, hn] at hn'
    exact Option.some.inj hn'
  -- The element does not hang from what it owns.
  have hsame {y : Nat} (hy : t.Owns c y) : (t.modify c f).outline y = t.outline y := by
    refine Undisturbed.outline_eq (fun z hz ↦ ?_)
      (h.isWhole_outline (h.lt_of_reached hc (.single hy))) (Nat.le_of_eq (size_modify t c f).symm)
    rw [get?_modify, if_neg]
    rintro rfl
    exact h.forest.irrefl (TransGen.head' hy hz)
  have hmap (slot : Slot) : ((f n).list slot).map (t.modify c f).outline =
      (n.list slot).map t.outline := by
    rw [hlist]
    refine List.map_congr_left fun y hy ↦ hsame (.inl ⟨slot, ?_⟩)
    rwa [listOf_of_get? hn]
  have hnext : (f n).element.otherwise?.map (t.modify c f).outline =
      n.element.otherwise?.map t.outline := by
    rw [hotherwise]
    refine Option.map_congr fun y hy ↦ hsame (.inr ?_)
    rw [otherwise?, hn, Option.bind_some, hy]
  refine ⟨n, hn, hold, hnew.trans ?_⟩
  congr 1
  · exact hmap .headerComments
  · exact hmap .attributes
  · exact hmap .children

end MadeOf

end Tree

end SharpOutline
