import Mathlib.Data.List.Forall2
import Mathlib.Data.List.Perm.Subperm
import Mathlib.Data.List.Range
import SharpOutline.Proofs.Tree.Copies
import SharpOutline.Proofs.Tree.Shape

/-!
# Listings of a tree

Where no element stands in two places (`Tree.SinglyOwned`), the elements that are reached from the
roots form a forest, whatever else there is in the tree. A way down from a root then meets no
element twice, so that it is not longer than the tree has elements and no outline of a root has a
gap. Beneath different children of an element nothing is shared. So the descendants of the roots,
one after the other, are a list without repetition, and the shape of the tree has one entry for each
of them (`Tree.SinglyOwned.listed`).
-/

namespace SharpOutline

open Relation

/-! ## Forests -/

theorem Forest.sibling_unique {size : Nat} {owns : Nat → Nat → Prop} {heads : List Nat}
    {p a b x : Nat} (h : Forest size owns heads) (ha : owns p a) (hb : owns p b)
    (hax : ReflTransGen owns a x) (hbx : ReflTransGen owns b x) : a = b := by
  induction hax with
  | refl =>
    rcases hbx.cases_tail with heq | ⟨y, hby, hya⟩
    · exact heq
    · obtain rfl := h.unique ha hya
      exact absurd (TransGen.tail' hby hb) h.irrefl
  | tail hay hyx ih =>
    rcases hbx.cases_tail with heq | ⟨z, hbz, hzx⟩
    · subst heq
      obtain rfl := h.unique hb hyx
      exact absurd (TransGen.tail' hay ha) h.irrefl
    · exact ih (h.unique hyx hzx ▸ hbz)

namespace Outline

/-! ## Gaps -/

mutual

/-- The numbers for which an outline has nothing to show. -/
def gaps : Outline → List ElementId
  | gap id => [id]
  | node _ _ _ headers applied children otherwise =>
    gapsAll headers ++ gapsAll applied ++ gapsAll children ++ gapsNext otherwise

def gapsAll : List Outline → List ElementId
  | [] => []
  | o :: os => o.gaps ++ gapsAll os

def gapsNext : Option Outline → List ElementId
  | none => []
  | some o => o.gaps

end

theorem gapsAll_eq_flatMap (os : List Outline) : gapsAll os = os.flatMap gaps := by
  induction os with
  | nil => rfl
  | cons o os ih => rw [gapsAll, ih, List.flatMap_cons]

mutual

theorem isWhole_iff_gaps : ∀ o : Outline, o.isWhole = true ↔ o.gaps = []
  | gap id => by simp [isWhole, gaps]
  | node _ _ _ headers applied children otherwise => by
    simp only [isWhole, gaps, Bool.and_eq_true, List.append_eq_nil_iff,
      areWhole_iff_gapsAll headers, areWhole_iff_gapsAll applied, areWhole_iff_gapsAll children,
      isWholeNext_iff_gapsNext otherwise]

theorem areWhole_iff_gapsAll : ∀ os : List Outline, areWhole os = true ↔ gapsAll os = []
  | [] => by simp [areWhole, gapsAll]
  | o :: os => by
    simp only [areWhole, gapsAll, Bool.and_eq_true, List.append_eq_nil_iff, isWhole_iff_gaps o,
      areWhole_iff_gapsAll os]

theorem isWholeNext_iff_gapsNext : ∀ o : Option Outline, isWholeNext o = true ↔ gapsNext o = []
  | none => by simp [isWholeNext, gapsNext]
  | some o => isWhole_iff_gaps o

end

/-! ## Descendants -/

theorem preorderAll_eq_flatMap (os : List Outline) : preorderAll os = os.flatMap preorder := by
  induction os with
  | nil => rfl
  | cons o os ih => rw [preorderAll, ih, List.flatMap_cons]

/-- Outlines without gaps are visited in the order of the recursion. -/
theorem drain_of_areWhole {stack : List Outline} (h : areWhole stack = true) :
    drain stack = .ok (preorderAll stack) := by
  fun_induction drain stack with
  | case1 => rfl
  | case2 id stack => simp [areWhole, isWhole] at h
  | case3 id name element headers applied children otherwise stack ih =>
    simp only [areWhole, isWhole, Bool.and_eq_true] at h
    obtain ⟨⟨⟨⟨-, -⟩, hchildren⟩, hnext⟩, hstack⟩ := h
    have hlater : areWhole (children ++ (otherwise.toList ++ stack)) = true := by
      cases otherwise <;> simp_all [areWhole_eq_all, isWholeNext]
    have hnext : preorderAll otherwise.toList = preorderNext otherwise := by
      cases otherwise <;> simp [preorderAll, preorderNext]
    rw [ih hlater]
    simp only [preorderAll_eq_flatMap, List.flatMap_append, List.flatMap_cons, preorder] at hnext ⊢
    rw [hnext, List.cons_append, List.append_assoc]
    rfl

end Outline

namespace Tree

open Outline

variable {t : Tree} {heads : List Nat} {n x y p : Nat}

/-- No element stands in two places. -/
def SinglyOwned (t : Tree) : Prop :=
  ∀ (q q' : Place) (id : ElementId), t.at? q = some id → t.at? q' = some id → q = q'

/-- Next branches are elements of the tree. -/
def KnownBranches (t : Tree) : Prop := ∀ ⦃p b⦄, t.otherwise? p = some b → b < t.size

/-! ## What hangs from the roots -/

/-- The element is reached from a root. -/
def Reached (t : Tree) (x : Nat) : Prop := ∃ r ∈ t.roots, ReflTransGen t.Owns r x

/-- The second element is owned by the first one, which is reached from a root. -/
def OwnsReached (t : Tree) (p x : Nat) : Prop := t.Reached p ∧ t.Owns p x

theorem Reached.owned (h : t.Reached p) (hx : t.Owns p x) : t.Reached x := by
  obtain ⟨r, hr, hrp⟩ := h
  exact ⟨r, hr, hrp.tail hx⟩

theorem Reached.reflTransGen (hx : t.Reached x) (h : ReflTransGen t.Owns x y) :
    ReflTransGen t.OwnsReached x y ∧ t.Reached y := by
  induction h with
  | refl => exact ⟨.refl, hx⟩
  | tail _ hzy ih => exact ⟨ih.1.tail ⟨ih.2, hzy⟩, ih.2.owned hzy⟩

theorem Owns.exists_place (h : t.Owns p x) :
    (∃ slot i, t.at? (.member p slot i) = some x) ∨ t.at? (.branch p) = some x := by
  refine h.imp_left ?_
  rintro ⟨slot, hmem⟩
  obtain ⟨i, hi⟩ := List.getElem?_of_mem hmem
  exact ⟨slot, i, hi⟩

namespace SinglyOwned

theorem owner_unique (h : t.SinglyOwned) {q : Nat} (hp : t.Owns p x) (hq : t.Owns q x) :
    p = q := by
  rcases hp.exists_place with ⟨slot, i, hi⟩ | hp
  · rcases hq.exists_place with ⟨slot', j, hj⟩ | hq
    · exact (Place.member.inj (h _ _ _ hi hj)).1
    · cases h _ _ _ hi hq
  · rcases hq.exists_place with ⟨slot', j, hj⟩ | hq
    · cases h _ _ _ hp hj
    · exact Place.branch.inj (h _ _ _ hp hq)

theorem not_owns_root (h : t.SinglyOwned) (hx : x ∈ t.roots) : ¬t.Owns p x := by
  intro hp
  obtain ⟨i, hi⟩ := List.getElem?_of_mem hx
  have hroot : t.at? (.root i) = some x := hi
  rcases hp.exists_place with ⟨slot, j, hj⟩ | hp
  · cases h _ _ _ hroot hj
  · cases h _ _ _ hroot hp

end SinglyOwned

theorem Owns.lt (h : t.Owns p x) : p < t.size := by
  rcases h with ⟨slot, hmem⟩ | hbranch
  · exact lt_of_mem_listOf hmem
  · exact lt_of_otherwise? hbranch

theorem lt_of_owns (hlinked : t.Linked) (hknown : t.KnownBranches) (h : t.Owns p x) :
    p < t.size ∧ x < t.size := by
  refine ⟨h.lt, ?_⟩
  rcases h with ⟨slot, hmem⟩ | hbranch
  · exact hlinked.lt_of_mem hmem
  · exact hknown hbranch

/-- **A forest of what is reached.** Everything else counts as a head of its own. -/
theorem exists_forest_reached (h : t.SinglyOwned) (hlinked : t.Linked) (hknown : t.KnownBranches) :
    ∃ heads, t.roots ⊆ heads ∧ Forest t.size t.OwnsReached heads := by
  classical
  refine ⟨t.roots ++ (List.range t.size).filter fun x ↦ ¬t.Reached x,
    List.subset_append_left _ _, ?_, fun {r} hr ↦ ?_, fun {q r} hr hq ↦ ?_,
    fun hq ↦ lt_of_owns hlinked hknown hq.2, fun hp hq ↦ h.owner_unique hp.2 hq.2, fun {x} hx ↦ ?_⟩
  · refine hlinked.nodup_roots.append (List.nodup_range.filter _) ?_
    intro x hx hother
    rw [List.mem_filter, decide_eq_true_iff] at hother
    exact hother.2 ⟨x, hx, .refl⟩
  · rcases List.mem_append.mp hr with hr | hr
    · exact (hlinked.parent_of_mem_roots hr).1
    · exact List.mem_range.mp (List.mem_filter.mp hr).1
  · rcases List.mem_append.mp hr with hr | hr
    · exact h.not_owns_root hr hq.2
    · exact of_decide_eq_true (List.mem_filter.mp hr).2 (hq.1.owned hq.2)
  · by_cases hr : t.Reached x
    · obtain ⟨r, hr, hrx⟩ := hr
      exact ⟨r, List.mem_append_left _ hr, (Reached.reflTransGen ⟨r, hr, .refl⟩ hrx).1⟩
    · refine ⟨x, List.mem_append_right _ (List.mem_filter.mpr ⟨List.mem_range.mpr hx, ?_⟩), .refl⟩
      exact decide_eq_true hr

/-! ## Outlines without gaps -/

/-- Nothing that is reached from the element is reached from itself again. -/
def AcyclicBelow (t : Tree) (x : Nat) : Prop :=
  ∀ ⦃y⦄, ReflTransGen t.Owns x y → ¬TransGen t.Owns y y

theorem AcyclicBelow.owned (h : t.AcyclicBelow x) (hy : t.Owns x y) : t.AcyclicBelow y :=
  fun _ hz ↦ h (.head hy hz)

theorem exists_owns_of_mem_gaps (hx : x < t.size) (hy : y ∈ (t.unfold (n + 1) x).gaps) :
    ∃ z, t.Owns x z ∧ y ∈ (t.unfold n z).gaps := by
  obtain ⟨node, hnode⟩ := exists_get?_of_lt hx
  have hlist : ∀ slot, y ∈ gapsAll ((node.list slot).map (t.unfold n)) →
      ∃ z, t.Owns x z ∧ y ∈ (t.unfold n z).gaps := by
    intro slot hmem
    rw [gapsAll_eq_flatMap, List.flatMap_map] at hmem
    obtain ⟨z, hz, hyz⟩ := List.mem_flatMap.mp hmem
    rw [← listOf_of_get? hnode] at hz
    exact ⟨z, .inl ⟨slot, hz⟩, hyz⟩
  simp only [unfold, hnode, gaps, List.mem_append] at hy
  rcases hy with ((hy | hy) | hy) | hy
  · exact hlist .headerComments hy
  · exact hlist .attributes hy
  · exact hlist .children hy
  · cases hb : node.element.otherwise? with
    | none => simp [hb, gapsNext] at hy
    | some b =>
      rw [hb, Option.map_some, gapsNext] at hy
      refine ⟨b, .inr ?_, hy⟩
      rw [otherwise?, hnode, Option.bind_some, hb]

/-- A way down that has met no element twice leaves enough levels for what lies beneath, so that the
only gaps are elements that are not there. -/
theorem size_le_of_mem_gaps_of_path {path : List Nat} (hacyclic : t.AcyclicBelow x)
    (hpath : ∀ z ∈ path, TransGen t.Owns z x) (hnodup : path.Nodup)
    (hn : t.size ≤ path.length + n) (hy : y ∈ (t.unfold n x).gaps) :
    ReflTransGen t.Owns x y ∧ t.size ≤ y := by
  have hnew : x ∉ path := fun hmem ↦ hacyclic .refl (hpath x hmem)
  induction n generalizing x path with
  | zero =>
    obtain rfl : y = x := by simpa [unfold, gaps] using hy
    refine ⟨.refl, Nat.not_lt.mp fun hlt ↦ ?_⟩
    -- There are not enough numbers for such a way.
    have hsub : y :: path ⊆ List.range t.size := by
      intro z hz
      rw [List.mem_range]
      rcases List.mem_cons.mp hz with rfl | hz
      · exact hlt
      · obtain ⟨w, hzw, -⟩ := TransGen.head'_iff.mp (hpath z hz)
        exact hzw.lt
    have hle := ((List.nodup_cons.mpr ⟨hnew, hnodup⟩).subperm hsub).length_le
    rw [List.length_cons, List.length_range] at hle
    omega
  | succ n ih =>
    by_cases hx : x < t.size
    · obtain ⟨z, hxz, hyz⟩ := exists_owns_of_mem_gaps hx hy
      have hpath' : ∀ w ∈ x :: path, TransGen t.Owns w z := by
        intro w hw
        rcases List.mem_cons.mp hw with rfl | hw
        · exact .single hxz
        · exact (hpath w hw).tail hxz
      obtain ⟨hzy, hsize⟩ := ih (hacyclic.owned hxz) hpath' (List.nodup_cons.mpr ⟨hnew, hnodup⟩)
        (by rw [List.length_cons]; omega) hyz fun hmem ↦ hacyclic (.single hxz) (hpath' z hmem)
      exact ⟨.head hxz hzy, hsize⟩
    · rw [unfold, get?_eq_none_iff.mpr (Nat.not_lt.mp hx)] at hy
      obtain rfl : y = x := by simpa [gaps] using hy
      exact ⟨.refl, Nat.not_lt.mp hx⟩

/-- Where nothing is reached from itself again, the gaps of an outline are the elements that are
reached but are not there. -/
theorem AcyclicBelow.size_le_of_mem_gaps (h : t.AcyclicBelow x) (hy : y ∈ (t.outline x).gaps) :
    ReflTransGen t.Owns x y ∧ t.size ≤ y := by
  have hpath : ∀ z ∈ ([] : List Nat), TransGen t.Owns z x := by simp
  exact size_le_of_mem_gaps_of_path h hpath List.nodup_nil (by simp) hy

theorem AcyclicBelow.isWhole_outline (h : t.AcyclicBelow x)
    (hknown : ∀ y, ReflTransGen t.Owns x y → y < t.size) : (t.outline x).isWhole = true := by
  rw [isWhole_iff_gaps, List.eq_nil_iff_forall_not_mem]
  intro y hy
  obtain ⟨hxy, hsize⟩ := h.size_le_of_mem_gaps hy
  exact absurd (hknown y hxy) (Nat.not_lt.mpr hsize)

theorem isWhole_outline_root (hforest : Forest t.size t.OwnsReached heads) (hlinked : t.Linked)
    (hx : x ∈ t.roots) : (t.outline x).isWhole = true := by
  have hreached : t.Reached x := ⟨x, hx, .refl⟩
  have hacyclic : t.AcyclicBelow x := by
    intro y hy hcycle
    obtain ⟨z, hyz, hzy⟩ := TransGen.tail'_iff.mp hcycle
    obtain ⟨-, hreached⟩ := hreached.reflTransGen hy
    obtain ⟨hyz, hz⟩ := hreached.reflTransGen hyz
    exact hforest.irrefl (TransGen.tail' hyz ⟨hz, hzy⟩)
  refine hacyclic.isWhole_outline fun y hy ↦ ?_
  rcases (hreached.reflTransGen hy).1.cases_tail with rfl | ⟨z, -, hzy⟩
  · exact (hlinked.parent_of_mem_roots hx).1
  · exact (hforest.lt_of_owns hzy).2

/-! ## Lists without repetition -/

/-- The children of an element, and then its next branch. -/
def below (t : Tree) (x : ElementId) : List ElementId :=
  t.listOf x .children ++ (t.otherwise? x).toList

theorem owns_of_mem_below (h : y ∈ t.below x) : t.Owns x y := by
  rcases List.mem_append.mp h with h | h
  · exact .inl ⟨.children, h⟩
  · exact .inr (Option.mem_toList.mp h)

theorem nodup_below (h : t.SinglyOwned) (hlinked : t.Linked) (x : ElementId) :
    (t.below x).Nodup := by
  refine (hlinked.nodup_listOf x .children).append ?_ ?_
  · cases t.otherwise? x <;> simp
  · intro y hy hbranch
    obtain ⟨i, hi⟩ := List.getElem?_of_mem hy
    have hmember : t.at? (.member x .children i) = some y := hi
    cases h _ _ _ hmember (show t.at? (.branch x) = some y from Option.mem_toList.mp hbranch)

theorem preorder_unfold_succ (hx : x < t.size) : (t.unfold (n + 1) x).preorder =
    x :: (t.below x).flatMap fun y ↦ (t.unfold n y).preorder := by
  obtain ⟨node, hnode⟩ := exists_get?_of_lt hx
  have hnext : preorderNext (node.element.otherwise?.map (t.unfold n)) =
      (t.otherwise? x).toList.flatMap fun y ↦ (t.unfold n y).preorder := by
    rw [otherwise?, hnode, Option.bind_some]
    cases node.element.otherwise? <;> simp [preorderNext]
  simp only [unfold, hnode, preorder, preorderAll_eq_flatMap, List.flatMap_map, hnext]
  rw [below, List.flatMap_append, listOf_of_get? hnode]
  rfl

theorem preorder_unfold_of_size_le (hx : t.size ≤ x) : (t.unfold n x).preorder = [x] := by
  cases n with
  | zero => rfl
  | succ n => rw [unfold, get?_eq_none_iff.mpr hx, preorder]

theorem reflTransGen_of_mem_preorder (hx : t.Reached x) (hy : y ∈ (t.unfold n x).preorder) :
    ReflTransGen t.OwnsReached x y := by
  induction n generalizing x with
  | zero =>
    obtain rfl : y = x := by simpa [unfold, preorder] using hy
    exact .refl
  | succ n ih =>
    by_cases hlt : x < t.size
    · rw [preorder_unfold_succ hlt] at hy
      rcases List.mem_cons.mp hy with rfl | hy
      · exact .refl
      · obtain ⟨z, hz, hyz⟩ := List.mem_flatMap.mp hy
        have hxz := owns_of_mem_below hz
        exact .head ⟨hx, hxz⟩ (ih (hx.owned hxz) hyz)
    · rw [preorder_unfold_of_size_le (Nat.not_lt.mp hlt), List.mem_singleton] at hy
      exact hy ▸ .refl

theorem nodup_preorder (hforest : Forest t.size t.OwnsReached heads) (h : t.SinglyOwned)
    (hlinked : t.Linked) (hx : t.Reached x) : (t.unfold n x).preorder.Nodup := by
  induction n generalizing x with
  | zero => simp [unfold, preorder]
  | succ n ih =>
    by_cases hlt : x < t.size
    · rw [preorder_unfold_succ hlt, List.nodup_cons, List.nodup_flatMap]
      refine ⟨fun hmem ↦ ?_, fun y hy ↦ ih (hx.owned (owns_of_mem_below hy)), ?_⟩
      · obtain ⟨y, hy, hxy⟩ := List.mem_flatMap.mp hmem
        have hown := owns_of_mem_below hy
        exact hforest.irrefl
          (TransGen.head' ⟨hx, hown⟩ (reflTransGen_of_mem_preorder (hx.owned hown) hxy))
      · refine (nodup_below h hlinked x).imp_of_mem fun {a b} ha hb hne z hza hzb ↦ hne ?_
        have ha := owns_of_mem_below ha
        have hb := owns_of_mem_below hb
        exact hforest.sibling_unique ⟨hx, ha⟩ ⟨hx, hb⟩
          (reflTransGen_of_mem_preorder (hx.owned ha) hza)
          (reflTransGen_of_mem_preorder (hx.owned hb) hzb)
    · rw [preorder_unfold_of_size_le (Nat.not_lt.mp hlt)]
      exact List.nodup_singleton x

theorem nodup_preorder_roots (hforest : Forest t.size t.OwnsReached heads)
    (hroots : t.roots ⊆ heads) (h : t.SinglyOwned) (hlinked : t.Linked) :
    (t.roots.flatMap fun r ↦ (t.outline r).preorder).Nodup := by
  have hreached : ∀ {r}, r ∈ t.roots → t.Reached r := fun hr ↦ ⟨_, hr, .refl⟩
  rw [List.nodup_flatMap]
  refine ⟨fun r hr ↦ nodup_preorder hforest h hlinked (hreached hr), ?_⟩
  refine hlinked.nodup_roots.imp_of_mem fun {a b} ha hb hne z hza hzb ↦ hne ?_
  exact hforest.head_unique (hroots ha) (hroots hb)
    (reflTransGen_of_mem_preorder (hreached ha) hza)
    (reflTransGen_of_mem_preorder (hreached hb) hzb)

/-! ## Entries of the shape -/

/-- The entry of a shape says what the element is. -/
def Depicts (t : Tree) (x : ElementId) (entry : ShapeEntry) : Prop :=
  t.kind? x = some entry.kind ∧ t.nameOf x = entry.name

theorem forall₂_shapeAll {depth : Nat} (ids : List ElementId)
    (h : ∀ x ∈ ids, List.Forall₂ t.Depicts (t.unfold n x).preorder ((t.unfold n x).shape depth)) :
    List.Forall₂ t.Depicts (preorderAll (ids.map (t.unfold n)))
      (shapeAll depth (ids.map (t.unfold n))) := by
  induction ids with
  | nil => exact .nil
  | cons x ids ih =>
    rw [List.map_cons, preorderAll, shapeAll]
    exact List.rel_append (h x List.mem_cons_self)
      (ih fun y hy ↦ h y (List.mem_cons_of_mem x hy))

theorem forall₂_shape {depth : Nat} (h : (t.unfold n x).isWhole = true) :
    List.Forall₂ t.Depicts (t.unfold n x).preorder ((t.unfold n x).shape depth) := by
  induction n generalizing x depth with
  | zero => simp [unfold, isWhole] at h
  | succ n ih =>
    obtain ⟨node, hnode, heq⟩ := unfold_eq_node h
    rw [heq] at h ⊢
    simp only [isWhole, Bool.and_eq_true, areWhole_iff] at h
    obtain ⟨⟨-, hchildren⟩, hnext⟩ := h
    rw [preorder, Outline.shape]
    refine .cons ⟨kind?_of_get? hnode, by rw [nameOf, hnode]; rfl⟩ (List.rel_append ?_ ?_)
    · exact forall₂_shapeAll node.children fun y hy ↦ ih (hchildren _ (List.mem_map_of_mem hy))
    · cases hb : node.element.otherwise? with
      | none => exact .nil
      | some b =>
        rw [hb] at hnext
        exact ih hnext

/-! ## Listings -/

/-- The descendants of the roots are listed, and so is the shape of the tree; no element is listed
twice, and the entries of the shape stand for the elements that are listed, in the same order. -/
def Listed (t : Tree) : Prop :=
  ∃ parts entries, t.roots.mapM t.descendants = .ok parts ∧ t.shape = .ok entries ∧
    parts.flatten.Nodup ∧ List.Forall₂ t.Depicts parts.flatten entries

/-- **Every element is listed once** where none stands in two places. -/
theorem SinglyOwned.listed (h : t.SinglyOwned) (hlinked : t.Linked) (hknown : t.KnownBranches) :
    t.Listed := by
  obtain ⟨heads, hroots, hforest⟩ := exists_forest_reached h hlinked hknown
  have hwhole : ∀ r ∈ t.roots, (t.outline r).isWhole = true := fun r hr ↦
    isWhole_outline_root hforest hlinked hr
  have hdescendants : ∀ r ∈ t.roots, t.descendants r = .ok (t.outline r).preorder := by
    intro r hr
    rw [descendants, drain_of_areWhole (by simp [areWhole, hwhole r hr])]
    simp [preorderAll]
  have hshape := shape_eq_shapeAll (t := t) (areWhole_iff.mpr fun o ho ↦ by
    obtain ⟨r, hr, rfl⟩ := List.mem_map.mp ho
    exact hwhole r hr)
  refine ⟨_, _, mapM_eq_ok hdescendants, hshape, ?_, ?_⟩
  · rw [← List.flatMap_def]
    exact nodup_preorder_roots hforest hroots h hlinked
  · rw [← List.flatMap_def, ← List.flatMap_map, ← preorderAll_eq_flatMap]
    exact forall₂_shapeAll t.roots fun r hr ↦ forall₂_shape (hwhole r hr)

end Tree

end SharpOutline
