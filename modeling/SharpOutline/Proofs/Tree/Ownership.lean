import Mathlib.Logic.Relation
import SharpOutline.Proofs.Tree.Links

/-!
# Owners of elements

An element of a finished tree is owned: it is a root, or it stands in a list of another element, or
it is the next branch of one. `Tree.Owned` says that every element has exactly one such place, that
the parents agree with the places, and that going from owner to owner leads to a root.

Apart from agreeing links all of this is about one relation between numbers, so it is stated for a
relation first (`Forest`).
-/

namespace SharpOutline

open Relation

/-! ## Forests -/

/-- Every number below `size` is reached from exactly one of the heads, along a single way. -/
structure Forest (size : Nat) (owns : Nat → Nat → Prop) (heads : List Nat) : Prop where
  nodup : heads.Nodup
  lt_of_mem : ∀ {h}, h ∈ heads → h < size
  not_owns : ∀ {p h}, h ∈ heads → ¬owns p h
  lt_of_owns : ∀ {p x}, owns p x → p < size ∧ x < size
  unique : ∀ {p q x}, owns p x → owns q x → p = q
  reached : ∀ {x}, x < size → ∃ h ∈ heads, ReflTransGen owns h x

namespace Forest

variable {size : Nat} {owns : Nat → Nat → Prop} {heads : List Nat} {p x y : Nat}

theorem perm {heads' : List Nat} (h : Forest size owns heads) (hp : heads.Perm heads') :
    Forest size owns heads' where
  nodup := hp.nodup_iff.mp h.nodup
  lt_of_mem hx := h.lt_of_mem (hp.mem_iff.mpr hx)
  not_owns hx := h.not_owns (hp.mem_iff.mpr hx)
  lt_of_owns := h.lt_of_owns
  unique := h.unique
  reached hx := by
    obtain ⟨r, hr, hrx⟩ := h.reached hx
    exact ⟨r, hp.mem_iff.mp hr, hrx⟩

theorem lt_of_reached (h : Forest size owns heads) {r : Nat} (hr : r ∈ heads)
    (hx : ReflTransGen owns r x) : x < size := by
  induction hx with
  | refl => exact h.lt_of_mem hr
  | tail _ hyx _ => exact (h.lt_of_owns hyx).2

/-- No number is reached from two heads. -/
theorem head_unique (h : Forest size owns heads) {r s : Nat} (hr : r ∈ heads) (hs : s ∈ heads)
    (hrx : ReflTransGen owns r x) (hsx : ReflTransGen owns s x) : r = s := by
  induction hrx with
  | refl =>
    rcases hsx.cases_tail with heq | ⟨y, -, hy⟩
    · exact heq
    · exact absurd hy (h.not_owns hr)
  | tail _ hyx ih =>
    rcases hsx.cases_tail with heq | ⟨z, hsz, hzx⟩
    · exact absurd (heq ▸ hyx) (h.not_owns hs)
    · exact ih (h.unique hyx hzx ▸ hsz)

theorem irrefl (h : Forest size owns heads) : ¬TransGen owns x x := by
  intro hx
  obtain ⟨y, -, hyx⟩ := TransGen.tail'_iff.mp hx
  obtain ⟨r, hr, hrx⟩ := h.reached (h.lt_of_owns hyx).2
  clear hyx
  -- Whatever lies on a way back to itself has its owner there too, and a head has none.
  induction hrx with
  | refl =>
    obtain ⟨z, -, hz⟩ := TransGen.tail'_iff.mp hx
    exact h.not_owns hr hz
  | tail _ hbc ih =>
    obtain ⟨z, hcz, hzc⟩ := TransGen.tail'_iff.mp hx
    obtain rfl := h.unique hzc hbc
    exact ih (TransGen.head' hzc hcz)

theorem grow (h : Forest size owns heads) : Forest (size + 1) owns (size :: heads) where
  nodup := List.nodup_cons.mpr ⟨fun hmem ↦ Nat.lt_irrefl _ (h.lt_of_mem hmem), h.nodup⟩
  lt_of_mem {r} hr := by
    rcases List.mem_cons.mp hr with rfl | hr
    · exact Nat.lt_succ_self _
    · exact Nat.lt_succ_of_lt (h.lt_of_mem hr)
  not_owns {q r} hr hq := by
    rcases List.mem_cons.mp hr with rfl | hr
    · exact Nat.lt_irrefl _ (h.lt_of_owns hq).2
    · exact h.not_owns hr hq
  lt_of_owns hq :=
    ⟨Nat.lt_succ_of_lt (h.lt_of_owns hq).1, Nat.lt_succ_of_lt (h.lt_of_owns hq).2⟩
  unique := h.unique
  reached {y} hy := by
    rcases Nat.lt_succ_iff_lt_or_eq.mp hy with hy | rfl
    · obtain ⟨r, hr, hry⟩ := h.reached hy
      exact ⟨r, List.mem_cons_of_mem _ hr, hry⟩
    · exact ⟨y, List.mem_cons_self, .refl⟩

/-- A head that comes beneath something reached from another one is a head no more. -/
theorem join (h : Forest size owns (x :: heads)) {r : Nat} (hr : r ∈ heads)
    (hp : ReflTransGen owns r p) :
    Forest size (fun q y ↦ owns q y ∨ (q = p ∧ y = x)) heads where
  nodup := (List.nodup_cons.mp h.nodup).2
  lt_of_mem hs := h.lt_of_mem (List.mem_cons_of_mem _ hs)
  not_owns {q s} hs hq := by
    rcases hq with hq | ⟨-, rfl⟩
    · exact h.not_owns (List.mem_cons_of_mem _ hs) hq
    · exact (List.nodup_cons.mp h.nodup).1 hs
  lt_of_owns {q y} hq := by
    rcases hq with hq | ⟨rfl, rfl⟩
    · exact h.lt_of_owns hq
    · exact ⟨h.lt_of_reached (List.mem_cons_of_mem _ hr) hp, h.lt_of_mem List.mem_cons_self⟩
  unique {q q' y} hq hq' := by
    rcases hq with hq | ⟨rfl, rfl⟩
    · rcases hq' with hq' | ⟨rfl, rfl⟩
      · exact h.unique hq hq'
      · exact absurd hq (h.not_owns List.mem_cons_self)
    · rcases hq' with hq' | ⟨rfl, -⟩
      · exact absurd hq' (h.not_owns List.mem_cons_self)
      · rfl
  reached {y} hy := by
    obtain ⟨s, hs, hsy⟩ := h.reached hy
    have hmono : ∀ {a b}, ReflTransGen owns a b →
        ReflTransGen (fun q y ↦ owns q y ∨ (q = p ∧ y = x)) a b :=
      fun hab ↦ ReflTransGen.mono (fun _ _ ↦ Or.inl) _ _ hab
    rcases List.mem_cons.mp hs with rfl | hs
    · exact ⟨r, hr, ((hmono hp).tail (.inr ⟨rfl, rfl⟩)).trans (hmono hsy)⟩
    · exact ⟨s, hs, hmono hsy⟩

theorem congr {owns' : Nat → Nat → Prop} (h : Forest size owns heads)
    (howns : ∀ p x, owns' p x ↔ owns p x) : Forest size owns' heads := by
  obtain rfl : owns' = owns := funext fun p ↦ funext fun x ↦ propext (howns p x)
  exact h

theorem empty {owns : Nat → Nat → Prop} (h : ∀ p x, ¬owns p x) : Forest 0 owns [] where
  nodup := .nil
  lt_of_mem hr := by simp at hr
  not_owns hr := by simp at hr
  lt_of_owns hq := absurd hq (h _ _)
  unique hq := absurd hq (h _ _)
  reached hy := by simp at hy

end Forest

/-! ## Places -/

/-- A place in which an element of a tree may stand. -/
inductive Place where
  | root (index : Nat)
  | member (owner : ElementId) (slot : Slot) (index : Nat)
  /-- The place of the next branch of a conditional. -/
  | branch (owner : ElementId)
deriving DecidableEq, Repr

namespace Tree

variable {t : Tree} {x : Nat}

/-- The element that stands in a place. -/
def at? (t : Tree) : Place → Option ElementId
  | .root index => t.roots[index]?
  | .member owner slot index => (t.listOf owner slot)[index]?
  | .branch owner => t.otherwise? owner

/-- The second element stands in a list of the first one, or is its next branch. -/
def Owns (t : Tree) (p x : Nat) : Prop := (∃ slot, x ∈ t.listOf p slot) ∨ t.otherwise? p = some x

/-- Every element has exactly one place, and all of them hang from the roots. -/
structure Owned (t : Tree) : Prop where
  /-- Every element stands in exactly one place. -/
  place : ∀ id, id < t.size → ∃! q, t.at? q = some id
  /-- What stands in a place is an element of the tree. -/
  lt_of_at? : ∀ q id, t.at? q = some id → id < t.size
  /-- The parent of an element is the one in whose lists the element stands. -/
  parent_iff : ∀ id p, t.parent? id = some p ↔ ∃ slot index, t.at? (.member p slot index) = some id
  /-- Roots have no parent. -/
  parent_of_root : ∀ index id, t.at? (.root index) = some id → t.parent? id = none
  /-- Next branches have no parent. -/
  parent_of_branch : ∀ p id, t.at? (.branch p) = some id → t.parent? id = none
  /-- Going from owner to owner leads from every element to a root. -/
  reached : ∀ id, id < t.size → ∃ r ∈ t.roots, ReflTransGen t.Owns r id
  /-- Going from owner to owner never leads back. -/
  irrefl : ∀ id, ¬TransGen t.Owns id id

/-! ## Finished trees -/

theorem eq_of_getElem?_eq {l : List ElementId} {i j : Nat} (h : l.Nodup) (hi : l[i]? = some x)
    (hj : l[j]? = some x) : i = j := by
  obtain ⟨hlt, -⟩ := List.getElem?_eq_some_iff.mp hi
  exact (List.getElem?_inj hlt h).mp (hi.trans hj.symm)

/-- A next branch has no other place. -/
structure SoleBranches (t : Tree) : Prop where
  parent : ∀ {p b}, t.otherwise? p = some b → t.parent? b = none
  not_mem_roots : ∀ {p b}, t.otherwise? p = some b → b ∉ t.roots
  unique : ∀ {p q b}, t.otherwise? p = some b → t.otherwise? q = some b → p = q

/-- No element stands in two places, since only a next branch could. -/
theorem SoleBranches.place_unique (h : t.SoleBranches) (hlinked : t.Linked) {q q' : Place}
    (hq : t.at? q = some x) (hq' : t.at? q' = some x) : q = q' := by
  have hmember : ∀ {p : Nat} {slot} {i : Nat}, (t.listOf p slot)[i]? = some x →
      t.parent? x = some p := fun hi ↦ hlinked.parent_of_mem (List.mem_of_getElem? hi)
  have hroot : ∀ {i : Nat}, t.roots[i]? = some x → t.parent? x = none := fun hi ↦
    (hlinked.parent_of_mem_roots (List.mem_of_getElem? hi)).2
  cases q with
  | root i =>
    cases q' with
    | root j => rw [eq_of_getElem?_eq hlinked.nodup_roots hq hq']
    | member p slot j => cases (hroot hq).symm.trans (hmember hq')
    | branch p => exact absurd (List.mem_of_getElem? hq) (h.not_mem_roots hq')
  | member p slot i =>
    cases q' with
    | root j => cases (hroot hq').symm.trans (hmember hq)
    | member p' slot' j =>
      obtain ⟨rfl, rfl⟩ :=
        hlinked.place_unique (List.mem_of_getElem? hq) (List.mem_of_getElem? hq')
      rw [eq_of_getElem?_eq (hlinked.nodup_listOf p slot) hq hq']
    | branch p' => cases (h.parent hq').symm.trans (hmember hq)
  | branch p =>
    cases q' with
    | root j => exact absurd (List.mem_of_getElem? hq') (h.not_mem_roots hq)
    | member p' slot j => cases (h.parent hq).symm.trans (hmember hq')
    | branch p' => rw [h.unique hq hq']

theorem exists_place_of_forest (hforest : Forest t.size t.Owns t.roots) (hx : x < t.size) :
    ∃ q, t.at? q = some x := by
  obtain ⟨r, hr, hrx⟩ := hforest.reached hx
  rcases hrx.cases_tail with rfl | ⟨p, -, ⟨slot, hmem⟩ | hp⟩
  · obtain ⟨i, hi⟩ := List.getElem?_of_mem hr
    exact ⟨.root i, hi⟩
  · obtain ⟨i, hi⟩ := List.getElem?_of_mem hmem
    exact ⟨.member p slot i, hi⟩
  · exact ⟨.branch p, hp⟩

/-- A tree is owned if its elements hang from the roots and its links agree. -/
theorem owned_of_forest (hlinked : t.Linked) (hforest : Forest t.size t.Owns t.roots)
    (hbranch : ∀ {p b}, t.otherwise? p = some b → t.parent? b = none) : t.Owned where
  place id hid := by
    have hsole : t.SoleBranches := ⟨hbranch, fun hb hroot ↦ hforest.not_owns hroot (.inr hb),
      fun hb hb' ↦ hforest.unique (.inr hb) (.inr hb')⟩
    obtain ⟨q, hq⟩ := exists_place_of_forest hforest hid
    exact ⟨q, hq, fun q' hq' ↦ hsole.place_unique hlinked hq' hq⟩
  lt_of_at? q id hq := by
    cases q with
    | root i => exact hforest.lt_of_mem (List.mem_of_getElem? hq)
    | member p slot i => exact hlinked.lt_of_mem (List.mem_of_getElem? hq)
    | branch p => exact (hforest.lt_of_owns (.inr hq)).2
  parent_iff id p := by
    constructor
    · intro hp
      obtain ⟨slot, hmem⟩ := hlinked.exists_mem_listOf hp
      obtain ⟨i, hi⟩ := List.getElem?_of_mem hmem
      exact ⟨slot, i, hi⟩
    · rintro ⟨slot, i, hi⟩
      exact hlinked.parent_of_mem (List.mem_of_getElem? hi)
  parent_of_root i id hi := (hlinked.parent_of_mem_roots (List.mem_of_getElem? hi)).2
  parent_of_branch p id hp := hbranch hp
  reached id hid := hforest.reached hid
  irrefl id := hforest.irrefl

end Tree

end SharpOutline
