import SharpOutline.Proofs.Layout.Skeleton

/-!
# Types are read back

Reading the layout of a type without members gives the type again, with all that its signature says:
the name, access and modifiers, the type parameters with their constraints, and the base types. The
names of types in it may have type arguments to any depth.
-/

namespace SharpOutline

open Line

variable {m : RegionMarkers} {s : LayoutSettings} {name : Text} {d : TypeDeclaration}
  {headers : List Outline}

theorem Outline.builds_regularType (hheaders : headers.all (isCommentOf m.isPlain) = true)
    (hname : IsWord name) (hd : d.IsRegular) (k : ElementId) :
    Builds m s Quiet (siblingLines s 0 none [node k name (.typeDeclaration d) headers [] [] none])
      [] [node k name (.typeDeclaration { d with bodyText := none }) headers [] [] none] [] := by
  have hlines : Builds m s Quiet _ [] _ _ :=
    (builds_headerLines (fun _ h ↦ h) hheaders 0 []).append_any
      ((heads_type 0 hd hname builds_nil k).builds 0 (by simp) (.inl rfl))
  simpa [siblingLines, separation, lines, headerLines, if_neg hd.kind] using hlines

theorem Outline.isWhole_type (hheaders : headers.all (isCommentOf m.isPlain) = true)
    (k : ElementId) : (node k name (.typeDeclaration d) headers [] [] none).isWhole = true := by
  have hwhole : areWhole headers = true := areWhole_iff.mpr fun o ho ↦ by
    obtain ⟨k, c, rfl, -⟩ := eq_of_isCommentOf (List.all_eq_true.mp hheaders o ho)
    rfl
  simp [isWhole, areWhole, isWholeNext, hwhole]

open Document in
/-- The layout of a regular type without members exists, and reading it gives one type, which
differs from the first at most in that it has no text for its body. -/
theorem Tree.forest_parseWith_layoutOf_type {ms : MarkerSettings} (hm : markers ms = .ok m)
    (s : LayoutSettings) {t : Tree} {x : ElementId}
    (hx : t.outline x = .node x name (.typeDeclaration d) headers [] [] none)
    (hheaders : headers.all (Outline.isCommentOf m.isPlain) = true)
    (hname : isIdentifier name = true) (hd : d.IsRegular) :
    ∃ text u, t.layoutOf s [x] = .ok text ∧ parseWith ms text = .ok u ∧
      u.forest = [(Outline.node x name (.typeDeclaration { d with bodyText := none }) headers [] []
        none).unnumbered] := by
  have hgap : Outline.firstGapIn? ([x].map t.outline) = none := by
    rw [List.map_singleton, hx]
    exact Outline.firstGapIn?_of_areWhole _
      (by rw [Outline.areWhole, Outline.isWhole_type hheaders]; rfl)
  have hbuilds := Outline.builds_regularType (s := s) hheaders (isWord_of_isIdentifier hname) hd x
  obtain ⟨u, hparse, hforest, -⟩ := parse_allToText hbuilds
  refine ⟨_, u, by rw [layoutOf, hgap], ?_, hforest⟩
  rw [parseWith, hm, List.map_singleton, hx]
  exact hparse

/-- A type with all that a header may say. -/
def TypeDeclaration.registry : TypeDeclaration where
  kind := .interfaceType
  access := .toAll
  modifiers := (Modifiers.single .unsafeCode).union (.single .divided)
  bases := [⟨"Core.IStore<Key, List<Pair<Key, Value>>>".toList, .unknown⟩,
    ⟨"IDisposable".toList, .unknown⟩]
  typeParameters := [
    { name := "in Key".toList,
      constraints := ["class".toList, "IComparable<Key>".toList, "new()".toList] },
    { name := "out Value".toList },
    { name := "@Tag".toList, constraints := ["struct".toList] }]

theorem TypeDeclaration.isRegular_registry : registry.IsRegular :=
  ⟨hasRegularHeader_sound (by decide +kernel), by decide⟩

/-- The type with a comment above it. -/
def Tree.registry : Tree where
  roots := [1]
  nodes := #[
    { name := [], element := .comment ⟨.documentation, " What is known.".toList⟩ },
    { name := "Registry".toList, headerComments := [0], element := .typeDeclaration .registry }]

open Document in
theorem Tree.forest_parseWith_layoutOf_registry :
    TypeDeclaration.registry.IsRegular ∧ ∃ text u,
      registry.layoutOf { indent := .tabs, lineEnding := .returnNewline } [1] = .ok text ∧
        parseWith {} text = .ok u ∧ u.forest = [(registry.outline 1).unnumbered] := by
  obtain ⟨m, hm⟩ := exists_markers
  exact ⟨TypeDeclaration.isRegular_registry, forest_parseWith_layoutOf_type hm _ rfl rfl
    (by decide +kernel) TypeDeclaration.isRegular_registry⟩

end SharpOutline
