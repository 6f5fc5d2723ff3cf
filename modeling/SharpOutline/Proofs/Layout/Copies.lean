import SharpOutline.Proofs.Layout.Settle
import SharpOutline.Proofs.Tree.DeepCopies

/-!
# Layouts of copies

The lines of an outline are found by recursion on it, and at no point is the number of an element
looked at: the outline without its numbers has the same lines (`Outline.lines_unnumbered`), and its
layout is refused in the same cases. So elements of different trees have the same layout if they
look alike (`Tree.layoutOf_congr`), and a copy, which looks like the element that it was made from,
has the layout of that element.
-/

namespace SharpOutline

namespace Outline

variable (s : LayoutSettings)

/-! ## Lines -/

theorem kind?_unnumbered (o : Outline) : o.unnumbered.kind? = o.kind? := by
  cases o with
  | gap id => rfl
  | node id name element headers applied children otherwise =>
    exact congrArg some (Element.kind_withOtherwise none element)

theorem separation_unnumbered (previous : Option Kind) (o : Outline) :
    separation previous o.unnumbered = separation previous o := by
  simp only [separation, kind?_unnumbered]

theorem isEmpty_unnumberedAll (os : List Outline) : (unnumberedAll os).isEmpty = os.isEmpty := by
  cases os <;> rfl

theorem chainedText_unnumberedAll (os : List Outline) :
    chainedText (unnumberedAll os) = chainedText os := by
  induction os with
  | nil => rfl
  | cons o os ih =>
    cases o with
    | gap id => exact ih
    | node id name element headers applied children otherwise =>
      cases element with
      | attributeUse a => exact congrArg (", ".toList ++ a.written name ++ ·) ih
      | _ => exact ih

mutual

theorem lines_unnumbered : ∀ (o : Outline) (depth : Nat),
    o.unnumbered.lines s depth = o.lines s depth
  | gap _, _ => rfl
  | node _ name element headers applied children otherwise, depth => by
    have hheaders := headerLines_unnumberedAll headers depth
    have happlied := headerLines_unnumberedAll applied depth
    have hchildren := siblingLines_unnumberedAll children
    have hempty := isEmpty_unnumberedAll children
    cases element with
    | nameSpace isFileScoped =>
      simp only [unnumbered, Element.withOtherwise, lines, hheaders, happlied, hchildren, hempty]
    | typeDeclaration t =>
      simp only [unnumbered, Element.withOtherwise, lines, hheaders, happlied, hchildren]
    | attributeUse a =>
      simp only [unnumbered, Element.withOtherwise, lines, attributeText, chainedText_unnumberedAll]
    | region isDirective =>
      simp only [unnumbered, Element.withOtherwise, lines, hchildren, hempty]
    | conditionDirective condition next =>
      simp only [unnumbered, Element.withOtherwise, lines, hchildren,
        branchLines_unnumberedNext otherwise]
    | _ => simp only [unnumbered, Element.withOtherwise, lines, hheaders, happlied]

theorem headerLines_unnumberedAll : ∀ (os : List Outline) (depth : Nat),
    headerLines s depth (unnumberedAll os) = headerLines s depth os
  | [], _ => rfl
  | o :: os, depth => by
    rw [unnumberedAll, headerLines, headerLines, lines_unnumbered o,
      headerLines_unnumberedAll os]

theorem siblingLines_unnumberedAll : ∀ (os : List Outline) (depth : Nat) (previous : Option Kind),
    siblingLines s depth previous (unnumberedAll os) = siblingLines s depth previous os
  | [], _, _ => rfl
  | o :: os, depth, previous => by
    rw [unnumberedAll, siblingLines, siblingLines, separation_unnumbered, kind?_unnumbered,
      lines_unnumbered o, siblingLines_unnumberedAll os]

theorem branchLines_unnumberedNext : ∀ (o : Option Outline) (depth : Nat),
    branchLines s depth (unnumberedNext o) = branchLines s depth o
  | none, _ => rfl
  | some (gap _), _ => rfl
  | some (node _ _ element _ _ children otherwise), depth => by
    cases element with
    | conditionDirective condition next =>
      simp only [unnumberedNext, unnumbered, Element.withOtherwise, branchLines,
        siblingLines_unnumberedAll children, branchLines_unnumberedNext otherwise]
    | _ => rfl

end

/-! ## Gaps -/

mutual

theorem firstGap?_unnumbered : ∀ o : Outline, o.unnumbered.firstGap? = o.firstGap?.map fun _ ↦ 0
  | gap _ => rfl
  | node _ _ element headers applied children otherwise => by
    have hheaders := firstGapIn?_unnumberedAll headers
    have happlied := firstGapIn?_unnumberedAll applied
    have hchildren := firstGapIn?_unnumberedAll children
    cases element with
    | comment c => rfl
    | attributeUse a => rfl
    | region isDirective => exact hchildren
    | conditionDirective condition next =>
      simp only [unnumbered, Element.withOtherwise, firstGap?, hchildren,
        firstGapNext?_unnumberedNext otherwise, Option.map_or]
    | typeDeclaration t =>
      simp only [unnumbered, Element.withOtherwise, firstGap?, hheaders, happlied, hchildren,
        Option.map_or]
      split <;> rfl
    | _ =>
      simp only [unnumbered, Element.withOtherwise, firstGap?, hheaders, happlied, hchildren,
        Option.map_or]

theorem firstGapIn?_unnumberedAll : ∀ os : List Outline,
    firstGapIn? (unnumberedAll os) = (firstGapIn? os).map fun _ ↦ 0
  | [] => rfl
  | o :: os => by
    rw [unnumberedAll, firstGapIn?, firstGapIn?, firstGap?_unnumbered o,
      firstGapIn?_unnumberedAll os, Option.map_or]

theorem firstGapNext?_unnumberedNext : ∀ o : Option Outline,
    firstGapNext? (unnumberedNext o) = (firstGapNext? o).map fun _ ↦ 0
  | none => rfl
  | some (gap _) => rfl
  | some (node _ _ element _ _ children otherwise) => by
    cases element with
    | conditionDirective condition next =>
      simp only [unnumberedNext, unnumbered, Element.withOtherwise, firstGapNext?,
        firstGapIn?_unnumberedAll children, firstGapNext?_unnumberedNext otherwise, Option.map_or]
    | _ => rfl

end

/-! ## Planting -/

mutual

theorem isWhole_of_plant : ∀ (o : Outline) {t : Tree} {r : Tree × ElementId},
    plant t o = .ok r → o.isWhole = true
  | gap _, _, _, h => by simp [plant] at h
  | node _ _ _ headers applied children otherwise, t, r, h => by
    obtain ⟨t₁, next, t₃, t₄, hnext, hchildren, hheaders, happlied, -⟩ := plant_eq_ok h
    simp only [isWhole, Bool.and_eq_true]
    exact ⟨⟨⟨areWhole_of_plantAll headers hheaders, areWhole_of_plantAll applied happlied⟩,
      areWhole_of_plantAll children hchildren⟩, isWholeNext_of_plantNext otherwise hnext⟩

theorem areWhole_of_plantAll : ∀ (os : List Outline) {t u : Tree} {owner : ElementId} {slot : Slot},
    plantAll t owner slot os = .ok u → areWhole os = true
  | [], _, _, _, _, _ => rfl
  | o :: os, t, u, owner, slot, h => by
    rw [plantAll] at h
    obtain ⟨r, hone, hrest⟩ := Tree.bind_eq_ok.mp h
    rw [areWhole, Bool.and_eq_true]
    exact ⟨isWhole_of_plant o hone, areWhole_of_plantAll os hrest⟩

theorem isWholeNext_of_plantNext : ∀ (o : Option Outline) {t : Tree} {r : Tree × Option ElementId},
    plantNext t o = .ok r → isWholeNext o = true
  | none, _, _, _ => rfl
  | some o, t, r, h => by
    rw [plantNext] at h
    obtain ⟨r', hone, -⟩ := Tree.bind_eq_ok.mp h
    exact isWhole_of_plant o hone

end

end Outline

namespace Tree

open Outline Relation

variable {s : LayoutSettings} {t u : Tree} {ids ids' : List ElementId}

/-- **What looks alike is laid out alike**, whatever the trees and the numbers are. -/
theorem layoutOf_congr (s : LayoutSettings) (h : ids.map (fun id ↦ (t.outline id).unnumbered) =
    ids'.map fun id ↦ (u.outline id).unnumbered) :
    (t.layoutOf s ids).toOption = (u.layoutOf s ids').toOption := by
  have hoptions : ∀ (v : Tree) (ids : List ElementId), (v.layoutOf s ids).toOption =
      if (firstGapIn? (unnumberedAll (ids.map v.outline))).isNone then
        some (Line.allToText s (siblingLines s 0 none (unnumberedAll (ids.map v.outline))))
      else none := by
    intro v ids
    rw [firstGapIn?_unnumberedAll, siblingLines_unnumberedAll, layoutOf]
    cases firstGapIn? (ids.map v.outline) <;> rfl
  have hall : unnumberedAll (ids.map t.outline) = unnumberedAll (ids'.map u.outline) := by
    rw [unnumberedAll_eq_map, unnumberedAll_eq_map, List.map_map, List.map_map]
    exact h
  rw [hoptions, hoptions, hall]

/-- An element that can be shown as a whole can be laid out. -/
theorem exists_layoutOf {id : ElementId} (s : LayoutSettings)
    (h : (t.outline id).isWhole = true) : ∃ text, t.layoutOf s [id] = .ok text := by
  have hgap : firstGapIn? ([id].map t.outline) = none :=
    firstGapIn?_of_areWhole _ (areWhole_iff.mpr (List.forall_mem_singleton.mpr h))
  simp only [layoutOf, hgap]
  exact ⟨_, rfl⟩

/-- **Copies are laid out alike.** In a tree with agreeing links, an element from which no way down
leads back to itself has the same layout as a copy of it in the tree after copying, and there is a
copy if everything that hangs from the element is there. The layout depends on what elements look
like and not on the tree or on their numbers. -/
theorem AcyclicBelow.layoutOf_copy (t : Tree) (id : ElementId) (s : LayoutSettings)
    (hlinked : t.Linked) (hacyclic : t.AcyclicBelow id) :
    ((∀ x, ReflTransGen t.Owns id x → x < t.size) → ∃ u c, t.copy id = .ok (u, c)) ∧
      (∀ u c, t.copy id = .ok (u, c) →
        ∃ text, t.layoutOf s [id] = .ok text ∧ u.layoutOf s [c] = .ok text) ∧
      ∀ (u : Tree) (ids ids' : List ElementId), ids.map (fun x ↦ (t.outline x).unnumbered) =
          ids'.map (fun x ↦ (u.outline x).unnumbered) →
        (t.layoutOf s ids).toOption = (u.layoutOf s ids').toOption := by
  refine ⟨fun hknown ↦ ?_, fun u c hcopy ↦ ?_, fun u ids ids' ↦ layoutOf_congr s⟩
  · obtain ⟨u, c, hcopy, -⟩ := hacyclic.exists_copy hlinked hknown
    exact ⟨u, c, hcopy⟩
  · have hwhole := isWhole_of_plant _ hcopy
    have hdeep := deepCopy_of_copy hlinked hwhole hcopy
    obtain ⟨text, htext⟩ := exists_layoutOf s hwhole
    have halike : (t.layoutOf s [id]).toOption = (u.layoutOf s [c]).toOption :=
      layoutOf_congr s (congrArg (fun o ↦ [o]) hdeep.outline.symm)
    exact ⟨text, htext, toOption_eq_some.mp (halike.symm.trans (toOption_eq_some.mpr htext))⟩

theorem layoutOf_copy_decorated :
    (built decorated).Linked ∧ (built decorated).AcyclicBelow 1 ∧
      ∃ u c, (built decorated).copy 1 = .ok (u, c) ∧ u.layoutOf {} [c] =
        .ok "#if A\n#else\n//c\n[X]\npublic delegate T D();\n#endif\n".toList := by
  have hlinked : (built decorated).Linked := Linked.empty.foldl_edited decorated
  obtain ⟨hcopies, halike, -⟩ :=
    AcyclicBelow.layoutOf_copy (built decorated) 1 {} hlinked acyclicBelow_decorated
  obtain ⟨u, c, hcopy⟩ := hcopies fun _ ↦ lt_of_reached_decorated
  obtain ⟨text, hfirst, hsecond⟩ := halike u c hcopy
  have hlayout : (built decorated).layoutOf {} [1] =
      .ok "#if A\n#else\n//c\n[X]\npublic delegate T D();\n#endif\n".toList := by decide +kernel
  exact ⟨hlinked, acyclicBelow_decorated, u, c, hcopy,
    hsecond.trans (hfirst.symm.trans hlayout)⟩

end Tree

end SharpOutline
