import SharpOutline.Proofs.Tree.Shows

/-!
# The shape of an outline

The shape of a tree is read off its links, with a limit on the way down and a guard against branches
that lead back to themselves. Where the outlines of the roots are whole, that is without gaps,
neither matters: a branch never leads back, because the outlines along a conditional get smaller,
and the shape is the one that is read off the outlines by recursion (`Tree.shape_eq_shapeAll`).
-/

namespace SharpOutline

namespace Outline

/-! ## Whole outlines -/

mutual

/-- The outline has no gap. -/
def isWhole : Outline → Bool
  | gap _ => false
  | node _ _ _ headers applied children otherwise =>
    areWhole headers && areWhole applied && areWhole children && isWholeNext otherwise

def areWhole : List Outline → Bool
  | [] => true
  | o :: os => o.isWhole && areWhole os

def isWholeNext : Option Outline → Bool
  | none => true
  | some o => o.isWhole

end

theorem areWhole_eq_all (os : List Outline) : areWhole os = os.all isWhole := by
  induction os with
  | nil => rfl
  | cons o os ih => rw [areWhole, ih, List.all_cons]

theorem areWhole_iff {os : List Outline} : areWhole os = true ↔ ∀ o ∈ os, o.isWhole = true := by
  rw [areWhole_eq_all, List.all_eq_true]

/-! ## Shapes -/

mutual

/-- The depth, kind and name of each element of an outline, in order. -/
def shape (depth : Nat) : Outline → List ShapeEntry
  | gap _ => []
  | node _ name element _ _ children otherwise =>
    ⟨depth, element.kind, name⟩ :: (shapeAll (depth + 1) children ++ shapeNext depth otherwise)

def shapeAll (depth : Nat) : List Outline → List ShapeEntry
  | [] => []
  | o :: os => o.shape depth ++ shapeAll depth os

/-- The shape of a next branch, which stands beside the one before it. -/
def shapeNext (depth : Nat) : Option Outline → List ShapeEntry
  | none => []
  | some o => o.shape depth

end

theorem shapeAll_eq_flatMap (depth : Nat) (os : List Outline) :
    shapeAll depth os = os.flatMap (shape depth) := by
  induction os with
  | nil => rfl
  | cons o os ih => rw [shapeAll, ih, List.flatMap_cons]

theorem shapeAll_append (depth : Nat) (os ps : List Outline) :
    shapeAll depth (os ++ ps) = shapeAll depth os ++ shapeAll depth ps := by
  simp [shapeAll_eq_flatMap]

/-! ### The numbers of elements do not matter -/

mutual

theorem isWhole_unnumbered : ∀ o : Outline, o.unnumbered.isWhole = o.isWhole
  | gap _ => rfl
  | node _ _ _ headers applied children otherwise => by
    rw [unnumbered, isWhole, isWhole, areWhole_unnumberedAll headers,
      areWhole_unnumberedAll applied, areWhole_unnumberedAll children,
      isWholeNext_unnumberedNext otherwise]

theorem areWhole_unnumberedAll : ∀ os : List Outline, areWhole (unnumberedAll os) = areWhole os
  | [] => rfl
  | o :: os => by
    rw [unnumberedAll, areWhole, areWhole, isWhole_unnumbered o, areWhole_unnumberedAll os]

theorem isWholeNext_unnumberedNext :
    ∀ o : Option Outline, isWholeNext (unnumberedNext o) = isWholeNext o
  | none => rfl
  | some o => isWhole_unnumbered o

end

mutual

theorem shape_unnumbered : ∀ (o : Outline) (depth : Nat), o.unnumbered.shape depth = o.shape depth
  | gap _, _ => rfl
  | node _ _ element _ _ children otherwise, depth => by
    rw [unnumbered, shape, shape, Element.kind_withOtherwise, shapeAll_unnumberedAll children,
      shapeNext_unnumberedNext otherwise]

theorem shapeAll_unnumberedAll :
    ∀ (os : List Outline) (depth : Nat), shapeAll depth (unnumberedAll os) = shapeAll depth os
  | [], _ => rfl
  | o :: os, depth => by
    rw [unnumberedAll, shapeAll, shapeAll, shape_unnumbered o, shapeAll_unnumberedAll os]

theorem shapeNext_unnumberedNext :
    ∀ (o : Option Outline) (depth : Nat), shapeNext depth (unnumberedNext o) = shapeNext depth o
  | none, _ => rfl
  | some o, depth => shape_unnumbered o depth

end

/-! ### Branches -/

/-- An outline followed by those of the further branches. -/
def branches : Outline → List Outline
  | gap k => [gap k]
  | node k name element headers applied children none =>
    [node k name element headers applied children none]
  | node k name element headers applied children (some o) =>
    node k name element headers applied children (some o) :: o.branches

/-- What the shape says of an outline without its further branches. -/
def ownShape (depth : Nat) : Outline → List ShapeEntry
  | gap _ => []
  | node _ name element _ _ children _ =>
    ⟨depth, element.kind, name⟩ :: shapeAll (depth + 1) children

theorem shape_eq_flatMap_branches (depth : Nat) :
    ∀ o : Outline, o.shape depth = o.branches.flatMap (ownShape depth)
  | gap _ => rfl
  | node _ _ _ _ _ _ none => by simp [shape, shapeNext, branches, ownShape]
  | node _ _ _ _ _ _ (some o) => by
    rw [shape, shapeNext, branches, List.flatMap_cons, ← shape_eq_flatMap_branches depth o,
      ownShape, List.cons_append]

end Outline

/-! ## Outlines of a tree -/

namespace Tree

open Outline

variable {t : Tree} {id k n : Nat}

/-- What was unfolded without a gap does not change when it is unfolded further. -/
theorem unfold_succ_of_isWhole (h : (t.unfold k id).isWhole = true) :
    t.unfold (k + 1) id = t.unfold k id := by
  induction k generalizing id with
  | zero => simp [unfold, isWhole] at h
  | succ k ih =>
    cases hn : t.get? id with
    | none => simp [unfold, hn, isWhole] at h
    | some n =>
      simp only [unfold, hn, isWhole, Bool.and_eq_true, areWhole_iff, List.mem_map,
        forall_exists_index, and_imp, forall_apply_eq_imp_iff₂] at h
      obtain ⟨⟨⟨hheaders, happlied⟩, hchildren⟩, hnext⟩ := h
      -- nothing beneath is a gap, so one more level changes no entry of any of the lists
      have hotherwise : n.element.otherwise?.map (t.unfold (k + 1)) =
          n.element.otherwise?.map (t.unfold k) :=
        Option.map_congr fun b hb ↦ ih (by rw [hb] at hnext; exact hnext)
      rw [unfold, hn]
      simp only
      rw [List.map_congr_left fun x hx ↦ ih (hheaders x hx),
        List.map_congr_left fun x hx ↦ ih (happlied x hx),
        List.map_congr_left fun x hx ↦ ih (hchildren x hx), hotherwise, unfold, hn]

theorem unfold_eq_node (h : (t.unfold (k + 1) id).isWhole = true) :
    ∃ n, t.get? id = some n ∧ t.unfold (k + 1) id =
      .node id n.name n.element (n.headerComments.map (t.unfold k)) (n.attributes.map (t.unfold k))
        (n.children.map (t.unfold k)) (n.element.otherwise?.map (t.unfold k)) := by
  cases hn : t.get? id with
  | none => simp [unfold, hn, isWhole] at h
  | some n => exact ⟨n, rfl, by rw [unfold, hn]⟩

theorem outline_eq_node (h : (t.outline id).isWhole = true) :
    ∃ n, t.get? id = some n ∧ t.outline id =
      .node id n.name n.element (n.headerComments.map t.outline) (n.attributes.map t.outline)
        (n.children.map t.outline) (n.element.otherwise?.map t.outline) := by
  have hsucc := unfold_succ_of_isWhole h
  obtain ⟨n, hn, hnode⟩ := unfold_eq_node (by rw [hsucc]; exact h)
  exact ⟨n, hn, hsucc.symm.trans hnode⟩

theorem id_outline (t : Tree) (id : ElementId) : (t.outline id).id = id := by
  rw [outline]
  cases t.size with
  | zero => rfl
  | succ k =>
    rw [unfold]
    split <;> rfl

theorem length_branches_unfold (t : Tree) (k id : Nat) :
    (t.unfold k id).branches.length ≤ k + 1 := by
  induction k generalizing id with
  | zero => simp [unfold, branches]
  | succ k ih =>
    rw [unfold]
    split
    · simp [branches]
    · rename_i n _
      cases n.element.otherwise? with
      | none => simp [branches]
      | some b =>
        rw [Option.map_some, branches, List.length_cons]
        exact Nat.succ_le_succ (ih b)

/-- The branches of an outline without gaps are outlines without gaps, unfolded no further. -/
theorem outline_of_mem_branches {o : Outline} (h : (t.outline id).isWhole = true)
    (hk : (t.unfold k id).isWhole = true) (ho : o ∈ (t.outline id).branches) :
    o = t.outline o.id ∧ o.isWhole = true ∧ (t.unfold k o.id).isWhole = true := by
  induction k generalizing id with
  | zero => simp [unfold, isWhole] at hk
  | succ k ih =>
    obtain ⟨n, hn, houtline⟩ := outline_eq_node h
    obtain ⟨n', hn', hunfold⟩ := unfold_eq_node hk
    obtain rfl : n = n' := Option.some.inj (hn.symm.trans hn')
    have hself : t.outline id = t.outline (t.outline id).id ∧ (t.outline id).isWhole = true ∧
        (t.unfold (k + 1) (t.outline id).id).isWhole = true := by
      rw [id_outline]
      exact ⟨rfl, h, hk⟩
    cases hnext : n.element.otherwise? with
    | none =>
      have hbranches : (t.outline id).branches = [t.outline id] := by
        rw [houtline, hnext, Option.map_none, branches]
      rw [hbranches, List.mem_singleton] at ho
      exact ho ▸ hself
    | some b =>
      have hbranches : (t.outline id).branches = t.outline id :: (t.outline b).branches := by
        rw [houtline, hnext, Option.map_some, branches]
      rw [hbranches] at ho
      rcases List.mem_cons.mp ho with rfl | ho
      · exact hself
      · rw [houtline, hnext] at h
        rw [hunfold, hnext] at hk
        simp only [isWhole, isWholeNext, Option.map_some, Bool.and_eq_true] at h hk
        obtain ⟨heq, hwhole, hlater⟩ := ih h.2 hk.2 ho
        exact ⟨heq, hwhole, by rw [unfold_succ_of_isWhole hlater]; exact hlater⟩

mutual

theorem Shows.isWhole : ∀ {low : Nat} (o : Outline) (id : Nat), t.Shows low o id → o.isWhole = true
  | _, .gap _, _, h => h.elim
  | _, .node _ _ _ headers applied children otherwise, _,
      ⟨_, _, _, _, _, hheaders, happlied, hchildren, hnext⟩ => by
    rw [Outline.isWhole, ShowsAll.areWhole headers _ hheaders, ShowsAll.areWhole applied _ happlied,
      ShowsAll.areWhole children _ hchildren, ShowsNext.isWholeNext otherwise _ hnext]
    rfl

theorem ShowsAll.areWhole : ∀ {low : Nat} (os : List Outline) (ids : List Nat),
    t.ShowsAll low os ids → Outline.areWhole os = true
  | _, [], _, _ => rfl
  | _, o :: os, _, ⟨x, later, _, hx, hlater⟩ => by
    rw [Outline.areWhole, Shows.isWhole o x hx, ShowsAll.areWhole os later hlater]
    rfl

theorem ShowsNext.isWholeNext : ∀ {low : Nat} (o : Option Outline) (branch : Option Nat),
    t.ShowsNext low o branch → Outline.isWholeNext o = true
  | _, none, _, _ => rfl
  | _, some o, _, ⟨x, _, h⟩ => Shows.isWhole o x h

end

/-! ## Chains -/

/-- No branch of a whole outline was seen before, so the chain goes through all of them. -/
theorem chainUpTo_eq {seen : List ElementId} (h : (t.outline id).isWhole = true)
    (hn : (t.outline id).branches.length ≤ n)
    (hseen : ∀ x ∈ seen, (t.outline id).size < (t.outline x).size) :
    t.chainUpTo seen n id = .ok (seen ++ (t.outline id).branches.map Outline.id) := by
  induction n generalizing id seen with
  | zero =>
    obtain ⟨k, -, houtline⟩ := outline_eq_node h
    rw [houtline] at hn
    cases hnext : k.element.otherwise? <;> simp [hnext, branches] at hn
  | succ n ih =>
    obtain ⟨k, hk, houtline⟩ := outline_eq_node h
    rw [chainUpTo, Tree.node, hk]
    simp only [bind, Except.bind]
    cases hnext : k.element.otherwise? with
    | none => simp [houtline, hnext, branches, Outline.id]
    | some b =>
      have hbranches : (t.outline id).branches = t.outline id :: (t.outline b).branches := by
        rw [houtline, hnext, Option.map_some, branches]
      have hsize : (t.outline b).size < (t.outline id).size := by
        rw [houtline, hnext, Option.map_some, Outline.size, sizeNext]
        omega
      have hlarger : ∀ x ∈ seen ++ [id], (t.outline b).size < (t.outline x).size := by
        intro x hx
        rcases List.mem_append.mp hx with hx | hx
        · exact Nat.lt_trans hsize (hseen x hx)
        · rw [List.mem_singleton.mp hx]
          exact hsize
      have hfresh : b ∉ seen ++ [id] := fun hmem ↦ Nat.lt_irrefl _ (hlarger b hmem)
      have hwhole : (t.outline b).isWhole = true := by
        rw [houtline, hnext] at h
        simp only [isWhole, isWholeNext, Option.map_some, Bool.and_eq_true] at h
        exact h.2
      rw [hbranches, List.length_cons] at hn
      dsimp only
      rw [if_neg hfresh, ih hwhole (by omega) hlarger, hbranches, List.map_cons, id_outline]
      simp

theorem chain_eq (h : (t.outline id).isWhole = true) :
    t.chain id = .ok ((t.outline id).branches.map Outline.id) :=
  chainUpTo_eq h (length_branches_unfold t t.size id) (by simp)

/-! ## The shape of a tree -/

theorem ok_bind {α β : Type} (a : α) (f : α → Except Refusal β) : (Except.ok a >>= f) = f a := rfl

theorem mapM_eq_ok {α β : Type} {f : α → Except Refusal β} {g : α → β} {l : List α}
    (h : ∀ a ∈ l, f a = .ok (g a)) : l.mapM f = .ok (l.map g) := by
  induction l with
  | nil => rfl
  | cons a l ih =>
    rw [List.mapM_cons, h a (by simp), ok_bind, ih fun b hb ↦ h b (by simp [hb])]
    rfl

theorem shapeUpTo_eq {depth : Nat} (h : (t.outline id).isWhole = true)
    (hn : (t.unfold n id).isWhole = true) :
    t.shapeUpTo n depth id = .ok ((t.outline id).shape depth) := by
  induction n generalizing id depth with
  | zero => simp [unfold, isWhole] at hn
  | succ n ih =>
    have hpart : ∀ b ∈ (t.outline id).branches.map Outline.id, (do
        let node ← t.node b
        let below ← node.children.mapM (t.shapeUpTo n (depth + 1))
        pure ((⟨depth, node.kind, node.name⟩ : ShapeEntry) :: below.flatten) :
          Except Refusal (List ShapeEntry)) = .ok ((t.outline b).ownShape depth) := by
      intro b hb
      obtain ⟨o, ho, rfl⟩ := List.mem_map.mp hb
      obtain ⟨heq, hwhole, hlimit⟩ := outline_of_mem_branches h hn ho
      rw [heq] at hwhole
      obtain ⟨k, hk, houtline⟩ := outline_eq_node hwhole
      obtain ⟨k', hk', hunfold⟩ := unfold_eq_node hlimit
      obtain rfl : k = k' := Option.some.inj (hk.symm.trans hk')
      rw [houtline] at hwhole
      rw [hunfold] at hlimit
      simp only [isWhole, Bool.and_eq_true, areWhole_iff, List.mem_map, forall_exists_index,
        and_imp, forall_apply_eq_imp_iff₂] at hwhole hlimit
      have hbelow := mapM_eq_ok (f := t.shapeUpTo n (depth + 1)) fun c hc ↦
        ih (hwhole.1.2 c hc) (hlimit.1.2 c hc)
      rw [Tree.node, hk]
      simp only [bind, Except.bind, hbelow, pure, Except.pure]
      rw [houtline, ownShape, shapeAll_eq_flatMap, List.flatMap_map, ← List.flatMap_def]
      rfl
    have hparts : ((t.outline id).branches.map Outline.id).map
        (fun b ↦ (t.outline b).ownShape depth) = (t.outline id).branches.map (ownShape depth) := by
      rw [List.map_map]
      refine List.map_congr_left fun o ho ↦ ?_
      exact congrArg (ownShape depth) (outline_of_mem_branches h hn ho).1.symm
    rw [shapeUpTo, chain_eq h, ok_bind, mapM_eq_ok hpart, hparts, shape_eq_flatMap_branches,
      List.flatMap_def]
    rfl

/-- The shape of a tree without gaps is that of the outlines of its roots. -/
theorem shape_eq_shapeAll (h : areWhole (t.roots.map t.outline) = true) :
    t.shape = .ok (shapeAll 0 (t.roots.map t.outline)) := by
  have hroots : ∀ r ∈ t.roots, t.shapeUpTo (t.size + 1) 0 r = .ok ((t.outline r).shape 0) := by
    intro r hr
    have hwhole := areWhole_iff.mp h _ (List.mem_map_of_mem hr)
    exact shapeUpTo_eq hwhole (by rw [unfold_succ_of_isWhole hwhole]; exact hwhole)
  rw [shape, mapM_eq_ok hroots, shapeAll_eq_flatMap, List.flatMap_map, List.flatMap_def]
  rfl

end Tree

end SharpOutline
