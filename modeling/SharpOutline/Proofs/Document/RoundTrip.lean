import SharpOutline.Proofs.Layout.Skeleton

/-!
# Reading what was laid out

A source text is read, laid out with the usual settings and read again. The shape of the second tree
should be that of the first, but a comment that stands beside a declaration and right before it is
laid out on a line of its own, and there it is read as the comment of that declaration. On commented
skeletons nothing else can go wrong, whatever members and attributes they have: the second shape has
one entry less for each such comment, and it is the first shape if and only if there is none.
-/

namespace SharpOutline

/-- The number of comments that stand beside a declaration and right before it, or before other such
comments. -/
def Tree.strayComments (t : Tree) : Nat := Outline.straysAll 0 (t.roots.map t.outline)

namespace Document

open Outline

theorem shape_of_forest {t : Tree} {os : List Outline} (h : t.forest = os.map unnumbered)
    (hos : areWhole os = true) : t.shape = .ok (shapeAll 0 os) := by
  have hforest : unnumberedAll (t.roots.map t.outline) = unnumberedAll os := by
    rw [unnumberedAll_eq_map, unnumberedAll_eq_map, List.map_map]
    exact h
  have hwhole : areWhole (t.roots.map t.outline) = true := by
    rw [← areWhole_unnumberedAll, hforest, areWhole_unnumberedAll, hos]
  rw [Tree.shape_eq_shapeAll hwhole, ← shapeAll_unnumberedAll, hforest, shapeAll_unnumberedAll]

/-- The layout of a commented skeleton exists and can be read. The shape loses an entry for each
stray comment, and stays the same if and only if there is none. -/
theorem shape_parseWith_layout {ms : MarkerSettings} {m : RegionMarkers} (hm : markers ms = .ok m)
    {s : LayoutSettings} (hs : s.regionStyle ≠ .commentMarker) {t : Tree}
    (ht : t.isCommentedSkeleton m = true) :
    ∃ text t' before after, t.layout s = .ok text ∧ parseWith ms text = .ok t' ∧
      t.shape = .ok before ∧ t'.shape = .ok after ∧
      after.length + t.strayComments = before.length ∧ (after = before ↔ t.strayComments = 0) := by
  obtain ⟨text, t', os, hlayout, hparse, hforest, hwhole, halike⟩ :=
    exists_parse_layout (m := m) (fun _ hc ↦ hc) hs ht
  -- a stray comment is one entry less
  have hlength : (shapeAll 0 os).length + t.strayComments =
      (shapeAll 0 (t.roots.map t.outline)).length := by
    rw [halike.2, Tree.strayComments]
    simpa using length_shapeAll_settle _ [] 0 rfl ht
  refine ⟨text, t', _, _, hlayout, by rw [parseWith, hm]; exact hparse,
    Tree.shape_eq_shapeAll (areWhole_of_areSkeletons _ ht), shape_of_forest hforest hwhole, hlength,
    fun h ↦ ?_, fun h ↦ ?_⟩
  · rw [h] at hlength
    omega
  · rw [halike.2, settleAll_eq_append _ [] h, List.nil_append]

/-- A source text with members of all kinds and comments in many places, of which the one behind the
brace is stray. -/
def notes : Text :=
  "// kinds\nusing System;\n#if DEBUG\n/* all */ #else\n/// one\n[Serializable, Key(0)]\n".toList ++
    "class A<T> : B<T> where T : class, new() \x7b\n  int x = 1; // size\n".toList ++
    "  int P \x7b get; set; \x7d\n  A(int y) \x7b x = y; \x7d\n  int M() => x;\n".toList ++
    "  event H E;\n  delegate void D(T z);\n  // rest\n\x7d // A\n".toList ++
    "/* B */ enum K \x7b U, V \x7d\n// end\n#endif\n".toList

theorem shape_parseWith_layout_notes : ∃ m t, markers {} = .ok m ∧ parseWith {} notes = .ok t ∧
    t.isCommentedSkeleton m = true ∧ t.strayComments = 1 ∧
    ∃ text t' before after, t.layout {} = .ok text ∧ parseWith {} text = .ok t' ∧
      t.shape = .ok before ∧ t'.shape = .ok after ∧
      after.length + t.strayComments = before.length ∧ (after = before ↔ t.strayComments = 0) := by
  have hnotes : ((markers {}).toOption.any fun m ↦ (parseWith {} notes).toOption.any fun t ↦
      t.isCommentedSkeleton m && t.strayComments == 1) = true := by decide +kernel
  obtain ⟨m, hm, hnotes⟩ := Tree.toOption_any.mp hnotes
  obtain ⟨t, ht, hnotes⟩ := Tree.toOption_any.mp hnotes
  rw [Bool.and_eq_true, beq_iff_eq] at hnotes
  exact ⟨m, t, hm, ht, hnotes.1, hnotes.2, shape_parseWith_layout hm (by decide) hnotes.1⟩

/-- A comment that follows a type on its line is laid out on a line of its own, where it is read as
the comment of the next type. -/
theorem not_shape_parseWith_layout : ¬∀ source t, parseWith {} source = .ok t →
    ∃ w t' entries, t.layout {} = .ok w ∧ parseWith {} w = .ok t' ∧ t.shape = .ok entries ∧
      t'.shape = .ok entries := by
  intro h
  have hsource : ((parseWith {} "class A \x7b \x7d // c\nclass B \x7b \x7d".toList).toOption.any
      fun t ↦ (t.layout {}).toOption.any fun w ↦ (parseWith {} w).toOption.any fun t' ↦
        t.shape.toOption != t'.shape.toOption) = true := by decide +kernel
  obtain ⟨t, ht, hsource⟩ := Tree.toOption_any.mp hsource
  obtain ⟨w, hw, hsource⟩ := Tree.toOption_any.mp hsource
  obtain ⟨t', ht', hne⟩ := Tree.toOption_any.mp hsource
  obtain ⟨_, _, entries, hlayout, hparse, hshape, hshape'⟩ := h _ t ht
  cases hw.symm.trans hlayout
  cases ht'.symm.trans hparse
  exact bne_iff_ne.mp hne (congrArg Except.toOption (hshape.trans hshape'.symm))

end Document

end SharpOutline
