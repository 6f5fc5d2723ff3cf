import SharpOutline.Proofs.Layout.Settle

/-!
# Skeletons are read back

Reading the layout of a skeleton gives a skeleton of the same shape again, whatever the indentation
and the ends of lines are, after its comments have settled. Where members are fields, without
attributes and comments, nothing at all has changed.

The proof follows the layout. Its lines are put together by recursion on an outline, the outlines
beside it and the branches after it, and for each of these recursions the lines build outlines that
are alike to what they were made from.
-/

namespace SharpOutline

namespace Outline

open Line

/-! ## Alike outlines -/

/-- The outlines have the same shape, and unless `full` they are the same. -/
def Alike (full : Bool) (os os' : List Outline) : Prop :=
  (full = false → os = os') ∧ ∀ depth, shapeAll depth os = shapeAll depth os'

variable {m : RegionMarkers} {s : LayoutSettings} {full : Bool} {plain : Comment → Bool}
  {k : ElementId} {name : Text} {e e' : Element} {ls : List Line} {after : Text → Prop}
  {waiting headers headers' applied applied' children children' os os' : List Outline}
  {o o' : Option Outline}

theorem Alike.refl : Alike full os os := ⟨fun _ ↦ rfl, fun _ ↦ rfl⟩

theorem Alike.append {ps ps' : List Outline} (h : Alike full os os') (h' : Alike full ps ps') :
    Alike full (os ++ ps) (os' ++ ps') :=
  ⟨fun hfull ↦ by rw [h.1 hfull, h'.1 hfull], fun depth ↦ by
    rw [shapeAll_append, shapeAll_append, h.2, h'.2]⟩

theorem Alike.node (hkind : e.kind = e'.kind)
    (hsame : full = false → e = e' ∧ headers = headers' ∧ applied = applied')
    (h : Alike full children children') (h' : Alike full o.toList o'.toList) :
    Alike full [.node k name e headers applied children o]
      [.node k name e' headers' applied' children' o'] := by
  refine ⟨fun hfull ↦ ?_, fun depth ↦ ?_⟩
  · obtain ⟨rfl, rfl, rfl⟩ := hsame hfull
    have hnext := h'.1 hfull
    cases o <;> cases o' <;> simp_all [h.1 hfull]
  · have hnext := h'.2 depth
    cases o <;> cases o' <;> simp_all [shapeAll, shape, shapeNext, h.2 (depth + 1)]

/-! ## Lines of skeletons -/

theorem separation_eq (previous : Option Kind) (o : Outline) :
    separation previous o = [] ∨ separation previous o = [.blank] := by
  rw [separation.eq_def]
  split
  · split
    · exact .inr rfl
    · exact .inl rfl
  · exact .inl rfl

theorem regionTexts_of_ne (hs : s.regionStyle ≠ .commentMarker) (name : Text) :
    regionTexts s true name = ("#region ".toList ++ name, "#endregion".toList) := by
  rw [regionTexts]
  cases hstyle : s.regionStyle with
  | preserve => rfl
  | directive => rfl
  | commentMarker => exact absurd hstyle hs

/-- The lines build outlines that are alike to what is placed for `o`, and if it does not begin with
a comment, then neither do the lines. -/
structure Rebuilt (m : RegionMarkers) (s : LayoutSettings) (full : Bool) (ls : List Line)
    (waiting : List Outline) (o : Outline) : Prop where
  builds : ∃ os, Builds m s (fun rest ↦ o.isOpen = true → Quiet rest) ls waiting os
    (placed waiting o.settle).2 ∧ Alike full os (placed waiting o.settle).1
  quiet : o.isLoud = false → ∀ rest, Quiet (allToText s ls ++ rest)

theorem builds_headerLines (hplain : ∀ c, plain c = true → m.isPlain c = true)
    (h : headers.all (isCommentOf plain) = true) (depth : Nat) (waiting : List Outline) :
    Builds m s after (headerLines s depth headers) waiting [] (waiting ++ headers) := by
  induction headers generalizing waiting after with
  | nil =>
    rw [headerLines, List.append_nil]
    exact builds_nil
  | cons o headers ih =>
    rw [List.all_cons, Bool.and_eq_true] at h
    obtain ⟨k, c, rfl, hc⟩ := eq_of_isCommentOf h.1
    rw [headerLines, List.append_cons]
    exact (builds_comment (hplain c hc) depth k).append_any (ih h.2 _)

theorem quiet_headerLines (happlied : ∀ o ∈ applied, o.isAttribute = true)
    (h : ∀ rest, Quiet (allToText s ls ++ rest)) (depth : Nat) (rest : Text) :
    Quiet (allToText s (headerLines s depth applied ++ ls) ++ rest) := by
  cases applied with
  | nil => simpa [headerLines] using h rest
  | cons a applied =>
    obtain ⟨-, k, head, chained, rfl, -⟩ := eq_of_isAttribute (happlied a (by simp))
    rw [headerLines, lines, List.append_assoc, List.singleton_append, Drafting.attributeText_eq]
    exact quiet_cons (by decide) (by decide) (by decide) _ rest

theorem placed_of_isCommentable (h : e.kind.isCommentable = true) :
    placed waiting (node k name e headers applied children none).settle =
      ([node k name e (waiting ++ headers) applied (settleAll [] children) none], []) := by
  have hnot : some e.kind ≠ some .comment := fun heq ↦ by
    rw [Option.some.inj heq] at h
    exact Bool.false_ne_true h
  rw [placed, kind?_settle, kind?, if_neg hnot, if_pos (by simpa using h)]
  rfl

section Declarations

variable (hplain : ∀ c, plain c = true → m.isPlain c = true)
  (hheaders : headers.all (isCommentOf plain) = true)
  (happlied : applied = [] ∨ (full = true ∧ e.kind.isAttributable = true) ∧
    applied.all isAttribute = true) (hcommentable : e.kind.isCommentable = true)

include hplain hheaders happlied hcommentable

theorem rebuilt_of_heads (depth : Nat) (waiting : List Outline)
    (h : Heads m s (fun rest ↦ e.isOpen = true → Quiet rest) ls k name e' children')
    (hchildren : Alike full children' (settleAll [] children)) (hkind : e'.kind = e.kind)
    (hsame : full = false → e' = e) :
    Rebuilt m s full (headerLines s depth headers ++ headerLines s depth applied ++ ls) waiting
      (node k name e headers applied children none) := by
  have hattributes : ∀ o ∈ applied, o.isAttribute = true := by
    rcases happlied with rfl | happlied
    · simp
    · exact List.all_eq_true.mp happlied.2
  have hbuilds := (builds_headerLines hplain hheaders depth waiting).append_any
    (h.builds depth hattributes (happlied.imp_right fun h ↦ hkind ▸ h.1.2))
  rw [List.append_assoc]
  refine ⟨⟨_, by rw [placed_of_isCommentable hcommentable]; exact hbuilds, ?_⟩,
    fun hloud rest ↦ ?_⟩
  · rw [placed_of_isCommentable hcommentable]
    refine .node hkind (fun hfull ↦ ⟨hsame hfull, rfl, ?_⟩) hchildren .refl
    rcases happlied with rfl | happlied
    · rfl
    · exact absurd (hfull.symm.trans happlied.1.1) Bool.false_ne_true
  · obtain rfl : headers = [] := by simpa using (Bool.or_eq_false_iff.mp hloud).2
    exact quiet_headerLines hattributes h.quiet depth rest

theorem rebuilt_of_isPlain (h : (full || e.kind == .field) = true ∧ e.isPlain plain name = true)
    (depth : Nat) (waiting : List Outline) :
    Rebuilt m s full (headerLines s depth headers ++ headerLines s depth applied ++
      (node k name e [] [] [] none).lines s depth) waiting
        (node k name e headers applied [] none) := by
  obtain ⟨e', hkind, hsame, hheads⟩ := Element.exists_heads hplain h.2 s depth k
  refine rebuilt_of_heads hplain hheaders happlied hcommentable depth waiting hheads .refl hkind
    fun hfull ↦ hsame ?_
  simpa [hfull] using h.1

end Declarations

mutual

/-- The lines of an outline build it after its comments have settled. -/
theorem rebuilt_lines (hplain : ∀ c, plain c = true → m.isPlain c = true)
    (hs : s.regionStyle ≠ .commentMarker) :
    ∀ (o : Outline) (depth : Nat) (waiting : List Outline),
    o.isSkeleton full plain = true → Rebuilt m s full (o.lines s depth) waiting o
  | gap _, _, _, h => by simp [isSkeleton] at h
  | node k name element headers applied children otherwise, depth, waiting, h => by
    simp only [isSkeleton, Bool.and_eq_true, Bool.or_eq_true, List.isEmpty_iff] at h
    obtain ⟨⟨⟨hheaders, hcommentable⟩, happlied⟩, h⟩ := h
    cases element with
    | comment c =>
      obtain rfl := hcommentable.resolve_left Bool.false_ne_true
      obtain rfl := happlied.resolve_right fun h ↦ Bool.false_ne_true h.1.2
      simp only [Bool.and_eq_true, List.isEmpty_iff, Option.isNone_iff_eq_none] at h
      obtain ⟨⟨⟨hc, rfl⟩, rfl⟩, rfl⟩ := h
      exact ⟨⟨[], builds_comment (hplain c hc) depth k, .refl⟩, fun hloud ↦ by cases hloud⟩
    | usingDirective u =>
      simp only [Bool.and_eq_true, List.isEmpty_iff, Option.isNone_iff_eq_none] at h
      obtain ⟨⟨hu, rfl⟩, rfl⟩ := h
      simp only [UsingDirective.isPlain, Bool.and_eq_true, Bool.not_eq_true',
        Option.all_eq_true] at hu
      obtain ⟨⟨⟨hname, hkeyword⟩, hmovable⟩, halias⟩ := hu
      exact rebuilt_of_heads hplain hheaders happlied rfl depth waiting
        (heads_using hname hkeyword hmovable halias k) .refl rfl fun _ ↦ rfl
    | nameSpace isFileScoped =>
      simp only [Bool.and_eq_true, Bool.not_eq_true', Option.isNone_iff_eq_none] at h
      obtain ⟨⟨⟨rfl, hname⟩, hchildren⟩, rfl⟩ := h
      obtain ⟨⟨_, _, hmembers, hsettled⟩, -⟩ :=
        builds_siblingLines hplain hs children (depth + 1) none [] hchildren
      exact rebuilt_of_heads hplain hheaders happlied rfl depth waiting
        (heads_namespace depth hname hmembers k) hsettled rfl fun _ ↦ rfl
    | typeDeclaration t =>
      simp only [TypeDeclaration.isPlain, Bool.and_eq_true, Bool.or_eq_true, bne_iff_ne,
        List.isEmpty_iff, Option.isNone_iff_eq_none] at h
      obtain ⟨⟨⟨⟨⟨hname, hheader⟩, hfull⟩, hchildren⟩, rfl⟩, henum⟩ := h
      have hname := isWord_of_isIdentifier hname
      have hheader := TypeDeclaration.hasRegularHeader_sound hheader
      by_cases hkind : t.kind = .enumType
      · obtain ⟨rfl, htext⟩ := henum.resolve_left (absurd hkind)
        rw [lines, if_pos hkind]
        exact rebuilt_of_heads hplain hheaders happlied rfl depth waiting
          (heads_enum hname hheader hkind htext k) .refl rfl
          fun h ↦ absurd hkind (hfull.resolve_left (by simp [h])).1
      · obtain ⟨⟨_, _, hmembers, hsettled⟩, -⟩ :=
          builds_siblingLines hplain hs children (depth + 1) none [] hchildren
        rw [lines, if_neg hkind]
        have hbody : full = false → t.bodyText = none := fun h ↦
          (hfull.resolve_left (by simp [h])).2
        exact rebuilt_of_heads hplain hheaders happlied rfl depth waiting
          (heads_type depth ⟨hheader, hkind⟩ hname hmembers k) hsettled rfl fun h ↦ by
            rw [← hbody h]
    | region isDirective =>
      obtain rfl := hcommentable.resolve_left Bool.false_ne_true
      obtain rfl := happlied.resolve_right fun h ↦ Bool.false_ne_true h.1.2
      simp only [Bool.and_eq_true, Option.isNone_iff_eq_none] at h
      obtain ⟨⟨⟨rfl, hname⟩, hchildren⟩, rfl⟩ := h
      obtain ⟨⟨os, waiting', hmembers, hsettled⟩, -⟩ :=
        builds_siblingLines hplain hs children depth none [] hchildren
      have hmembers : Builds m s Quiet (if children.isEmpty then []
          else .blank :: siblingLines s depth none children ++ [.blank]) [] os waiting' := by
        split
        · rename_i hempty
          rw [List.isEmpty_iff.mp hempty, siblingLines] at hmembers
          exact hmembers
        · -- blank lines stand around the members of a region only if there are any
          simpa using builds_blank.append_any (hmembers.append builds_blank fun _ ↦ quiet_blank)
      obtain ⟨v, hv, hargument⟩ := exists_isArgument_region hname
      simp only [lines, regionTexts_of_ne hs, hv]
      exact ⟨⟨_, builds_region depth waiting hargument hmembers k,
        .append .refl (.node rfl (fun _ ↦ ⟨rfl, rfl, rfl⟩) hsettled .refl)⟩,
        fun _ ↦ quiet_cons (by decide) (by decide) (by decide) _⟩
    | conditionDirective condition next =>
      obtain rfl := hcommentable.resolve_left Bool.false_ne_true
      obtain rfl := happlied.resolve_right fun h ↦ Bool.false_ne_true h.1.2
      simp only [Bool.and_eq_true, beq_iff_eq] at h
      obtain ⟨⟨⟨rfl, hname⟩, hchildren⟩, hotherwise⟩ := h
      obtain ⟨⟨_, _, hmembers, hsettled⟩, -⟩ :=
        builds_siblingLines hplain hs children depth none [] hchildren
      obtain ⟨o', hnext, -, hsettled'⟩ :=
        buildsNext_branchLines hplain hs otherwise depth _ hotherwise
      simp only [lines, Option.getD_some, trim_of_isLineText (isLineText_of_isCondition hname),
        List.append_assoc]
      exact ⟨⟨_, builds_conditional depth waiting
          (isArgument_cons (isLineText_of_isCondition hname)) (conditionText_of_isCondition hname)
          hmembers hnext k next,
        .append .refl (.node rfl (fun _ ↦ ⟨rfl, rfl, rfl⟩) hsettled hsettled')⟩,
        fun _ ↦ quiet_cons (by decide) (by decide) (by decide) _⟩
    | attributeUse a => simp [Element.isPlain, Element.parameterized?] at h
    | _ =>
      simp only [Bool.and_eq_true, List.isEmpty_iff, Option.isNone_iff_eq_none] at h
      obtain ⟨⟨h, rfl⟩, rfl⟩ := h
      exact rebuilt_of_isPlain hplain hheaders happlied rfl h depth waiting

/-- The lines of outlines that stand side by side build them after their comments have settled. -/
theorem builds_siblingLines (hplain : ∀ c, plain c = true → m.isPlain c = true)
    (hs : s.regionStyle ≠ .commentMarker) :
    ∀ (os : List Outline) (depth : Nat) (previous : Option Kind) (waiting : List Outline),
      areSkeletons full plain os = true →
      (∃ placed waiting',
        Builds m s Quiet (siblingLines s depth previous os) waiting placed waiting' ∧
          Alike full (placed ++ waiting') (settleAll waiting os)) ∧
      (os.head?.any isLoud = false → ∀ rest, Quiet rest →
        Quiet (allToText s (siblingLines s depth previous os) ++ rest))
  | [], _, _, waiting, _ => by
    rw [siblingLines]
    exact ⟨⟨[], waiting, builds_nil, .refl⟩, fun _ _ h ↦ h⟩
  | o :: os, depth, previous, waiting, h => by
    rw [areSkeletons, Bool.and_eq_true, Bool.and_eq_true, Bool.not_eq_true'] at h
    obtain ⟨⟨ho, hopen⟩, hos⟩ := h
    obtain ⟨⟨first, hfirst, halike⟩, hquiet⟩ := rebuilt_lines hplain hs o depth waiting ho
    -- the comments that wait after the first outline are those that the others start with
    obtain ⟨⟨later, waiting', hlater, hsettled⟩, hquiet'⟩ :=
      builds_siblingLines hplain hs os depth o.kind? _ hos
    have hsep : Builds m s (fun _ ↦ True) (separation previous o) waiting [] waiting := by
      rcases separation_eq previous o with heq | heq <;> rw [heq]
      · exact builds_nil
      · exact builds_blank
    rw [siblingLines]
    refine ⟨⟨_, waiting', (hsep.append_any hfirst).append hlater fun rest hrest hopen' ↦ ?_, ?_⟩,
      fun hloud rest _ ↦ ?_⟩
    · exact hquiet' (by simpa [hopen'] using hopen) rest hrest
    · rw [List.append_assoc]
      exact halike.append hsettled
    · rw [allToText_append, allToText_append, List.append_assoc, List.append_assoc]
      rcases separation_eq previous o with heq | heq <;> rw [heq]
      · exact hquiet hloud _
      · exact quiet_blank (hquiet hloud _)

/-- The lines of the further branches of a conditional, and the one that closes it, build the
branches after their comments have settled. -/
theorem buildsNext_branchLines (hplain : ∀ c, plain c = true → m.isPlain c = true)
    (hs : s.regionStyle ≠ .commentMarker) :
    ∀ (o : Option Outline) (depth : Nat) (waiting : List Outline),
    isSkeletonNext full plain o = true → ∃ o',
      BuildsNext m s (branchLines s depth o ++ [⟨depth, "#endif".toList⟩]) waiting o' ∧
        o'.isSome = o.isSome ∧ Alike full o'.toList (settleNext o).toList
  | none, depth, _, _ => by
    rw [branchLines]
    exact ⟨none, buildsNext_nil depth, rfl, .refl⟩
  | some (gap _), _, _, h => by simp [isSkeletonNext] at h
  | some (node k name element headers applied children otherwise), depth, waiting, h => by
    simp only [isSkeletonNext, Bool.and_eq_true, List.isEmpty_iff] at h
    obtain ⟨⟨rfl, rfl⟩, h⟩ := h
    cases element with
    | conditionDirective condition next =>
      simp only [Bool.and_eq_true, Bool.or_eq_true, beq_iff_eq, Option.all_eq_true,
        Option.isNone_iff_eq_none] at h
      obtain ⟨⟨⟨⟨rfl, hcondition⟩, hlast⟩, hchildren⟩, hotherwise⟩ := h
      obtain ⟨⟨os, waiting', hmembers, hsettled⟩, -⟩ :=
        builds_siblingLines hplain hs children depth none [] hchildren
      obtain ⟨o', hnext, hsome, hsettled'⟩ :=
        buildsNext_branchLines hplain hs otherwise depth _ hotherwise
      have hlast : o'.isSome → condition.isSome := fun ho ↦ by
        rw [hsome] at ho
        exact hlast.resolve_right fun hnone ↦ by simp [hnone] at ho
      have hlines : ∀ l, IsBranchLine l condition → _ := fun l hl ↦
        buildsNext_cons depth waiting hl hlast hmembers hnext k next
      refine ⟨some (node k _ (.conditionDirective condition next) [] [] (os ++ waiting') o'), ?_,
        rfl, .node rfl (fun _ ↦ ⟨rfl, rfl, rfl⟩) hsettled hsettled'⟩
      cases condition with
      | none =>
        simp only [branchLines, List.cons_append, List.append_assoc]
        exact hlines _ .none
      | some a =>
        have hcondition := hcondition a rfl
        have htrim := trim_of_isLineText (isLineText_of_isCondition hcondition)
        simp only [branchLines, htrim, List.cons_append, List.append_assoc]
        exact hlines _ (isBranchLine_of_isCondition hcondition)
    | _ => simp at h

end

end Outline

/-! ## Whole texts -/

namespace Document

open Drafting SharpOutline.Tree Machine

variable {m : RegionMarkers} {s : LayoutSettings}

theorem runs_readBlock {x y z : Sketch} {ids : List ElementId}
    (h : Leads m { x with block := {} } [] y []) (hend : endsBlock (ahead y.rest) = true)
    (hfinish : Runs finishBlock y ids z) :
    Runs (readBlock m) x ids { z with block := x.block } := by
  rintro d ⟨⟩
  obtain ⟨d', rfl, hrun⟩ := h { d with block := {} } rfl
  obtain ⟨d'', hd', rfl⟩ := hfinish d' rfl
  refine ⟨{ d'' with block := d.block }, ?_, rfl⟩
  rw [readBlock, hrun, run_of_end hend]
  simp only [hd']

/-- The text of lines is read into a tree that looks like what the lines build. -/
theorem parse_allToText {ls : List Line} {os waiting : List Outline}
    (h : Line.Builds m s Line.Quiet ls [] os waiting) :
    ∃ t, parse m (Line.allToText s ls) = .ok t ∧
      t.forest = (os ++ waiting).map Outline.unnumbered ∧
      Outline.areWhole (os ++ waiting) = true := by
  obtain ⟨base, u, ids, comments, hleads, hsprouts, hbetween⟩ :=
    h [] {} {} [] [] [] [] nofun (between_nil rfl isOpen_nil)
  obtain ⟨v, hfinish, hv⟩ := runs_finishBlock [] ids hbetween
  have hall := hsprouts.append hv (by simp [ownerOf])
  rw [List.append_nil] at hleads
  have hblock : Runs (readBlock m) ⟨Line.allToText s ls, {}, {}⟩ (ids ++ comments) ⟨[], v, {}⟩ :=
    runs_readBlock ((Line.leads_trimStart _ rfl).trans hleads) rfl hfinish
  have hroots : (ids ++ comments).foldlM (fun t id ↦ t.addRoot id) v =
      .ok { v with roots := v.roots ++ (ids ++ comments) } :=
    foldlM_addRoot (fun id hid ↦ ⟨(hall.new id hid).2, hall.parent id hid⟩)
      (hall.increasing.imp Nat.ne_of_lt) fun id _ ↦ by simp [hall.roots]
  rw [hall.roots, List.nil_append] at hroots
  have hread : Runs (read m) ⟨Line.allToText s ls, {}, {}⟩ ()
      ⟨[], { v with roots := ids ++ comments }, {}⟩ :=
    hblock.bind ((runs_read Reading.yields_peek).bind (runs_editAll hroots))
  obtain ⟨d, hd, hsketch⟩ := hread (start (Line.allToText s ls)) rfl
  have htree : d.tree = { v with roots := ids ++ comments } := congrArg Sketch.tree hsketch
  -- the roots do not matter for what an element looks like
  have hkeeps : Keeps v { v with roots := ids ++ comments } 0 := keeps_of_get?_eq fun _ _ _ ↦ rfl
  have hshows := ShowsAll.keep hkeeps _ _ hall.shows
  refine ⟨{ v with roots := ids ++ comments }, by rw [parse, hd, ← htree], ?_,
    ShowsAll.areWhole _ _ hshows⟩
  have hroom : Outline.countAll (os ++ waiting) ≤ v.size := by
    simpa [Tree.size] using hall.room
  have hforest := unnumberedAll_map_unfold _ _ v.size hshows hroom
  rw [Outline.unnumberedAll_eq_map, Outline.unnumberedAll_eq_map, List.map_map] at hforest
  exact hforest

/-- The layout of a skeleton exists, and reading it gives the skeleton after its comments have
settled. -/
theorem exists_parse_layout {full : Bool} {plain : Comment → Bool}
    (hplain : ∀ c, plain c = true → m.isPlain c = true)
    (hs : s.regionStyle ≠ .commentMarker) {t : Tree}
    (ht : Outline.areSkeletons full plain (t.roots.map t.outline) = true) :
    ∃ text t' os, t.layout s = .ok text ∧ parse m text = .ok t' ∧
      t'.forest = os.map Outline.unnumbered ∧ Outline.areWhole os = true ∧
      Outline.Alike full os (Outline.settleAll [] (t.roots.map t.outline)) := by
  have hgap : Outline.firstGapIn? (t.roots.map t.outline) = none :=
    Outline.firstGapIn?_of_areWhole _ (Outline.areWhole_of_areSkeletons _ ht)
  obtain ⟨⟨os, waiting, hbuilds, hsettled⟩, -⟩ :=
    Outline.builds_siblingLines hplain hs (t.roots.map t.outline) 0 none [] ht
  obtain ⟨t', hparse, hforest, hwhole⟩ := parse_allToText hbuilds
  exact ⟨_, t', _, by rw [layout, layoutOf, hgap], hparse, hforest, hwhole, hsettled⟩

end Document

open Document in
/-- The layout of a skeleton exists, and reading it gives the same skeleton. -/
theorem Tree.forest_parseWith_layout {ms : MarkerSettings} {m : RegionMarkers}
    (hm : markers ms = .ok m) {s : LayoutSettings} (hs : s.regionStyle ≠ .commentMarker) {t : Tree}
    (ht : t.isSkeleton = true) :
    ∃ text t', t.layout s = .ok text ∧ parseWith ms text = .ok t' ∧ t'.forest = t.forest := by
  obtain ⟨text, t', os, hlayout, hparse, hforest, -, halike⟩ :=
    exists_parse_layout (m := m) (by simp) hs ht
  refine ⟨text, t', hlayout, by rw [parseWith, hm]; exact hparse, ?_⟩
  rw [hforest, halike.1 rfl, Outline.settleAll_eq_append _ [] (Outline.straysAll_eq_zero _ ht),
    List.nil_append, forest, List.map_map]
  rfl

/-- The usual markers are there. -/
theorem Document.exists_markers : ∃ m, markers {} = .ok m := by
  have hmarkers : ((markers {}).toOption.any fun _ ↦ true) = true := by decide +kernel
  obtain ⟨m, hm, -⟩ := Tree.toOption_any.mp hmarkers
  exact ⟨m, hm⟩

/-- A skeleton with all kinds of elements, whose numbers are not in the order of the text. -/
def Tree.workshop : Tree where
  roots := [11, 0]
  nodes := #[
    { name := "Acme.Tools".toList, children := [1, 2, 6], element := .nameSpace false },
    { name := "Map".toList, parent := some 0,
      element := .usingDirective ⟨some "System.Text".toList, false, true⟩ },
    { name := "Shop".toList, parent := some 0, children := [3, 4],
      element := .typeDeclaration
        { kind := .classType, access := .toAll, modifiers := .single .sealed } },
    { name := "count".toList, parent := some 2,
      element := .field (plainField .toHeirsInAssembly .full "int".toList none) },
    { name := "spare parts".toList, parent := some 2, children := [5], element := .region true },
    { name := "IPart".toList, parent := some 4,
      element := .typeDeclaration { kind := .interfaceType } },
    { name := "DEBUG && !TRACE".toList, parent := some 0, children := [7],
      element := .conditionDirective (some "DEBUG && !TRACE".toList) (some 8) },
    { name := "Probe".toList, parent := some 6,
      element := .typeDeclaration { kind := .structType } },
    { name := "TRACE".toList, element := .conditionDirective (some "TRACE".toList) (some 9) },
    { name := [], children := [10], element := .conditionDirective none none },
    { name := "log".toList, parent := some 9,
      element := .field (plainField .unstated .empty "text".toList none) },
    { name := "System.Math".toList, element := .usingDirective ⟨none, true, true⟩ }]

open Document in
theorem Tree.forest_parseWith_layout_workshop :
    workshop.isSkeleton = true ∧ ∃ text t',
      workshop.layout { indent := .tabs, lineEnding := .returnNewline } = .ok text ∧
        parseWith {} text = .ok t' ∧ t'.forest = workshop.forest := by
  have hskeleton : workshop.isSkeleton = true := by decide +kernel
  obtain ⟨m, hm⟩ := exists_markers
  exact ⟨hskeleton, forest_parseWith_layout hm (by decide) hskeleton⟩

end SharpOutline
