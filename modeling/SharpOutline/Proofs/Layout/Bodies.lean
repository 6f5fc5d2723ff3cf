import SharpOutline.Proofs.Layout.Lines
import SharpOutline.Proofs.Layout.RawLines

/-!
# Rewritten bodies

The body of a member is written with another indentation, other line ends and without the blanks at
the ends of its lines. None of this is seen by the walk through it: line by line the walk through
the written body stays alike to the one through the body (`Walk.alike_moved_line`, and by induction
over the lines `Walk.alike_moved_lines`). So the written body ends at the same brace, and its lines
are those of the body (`closed_writtenBody`).
-/

namespace SharpOutline

open RawLine Line

namespace Walk

variable {x y : Walk} {l r indent : Text} {ls : List Text} {common : Nat}

theorem isBlank_of_mem_return (hr : r = [] ∨ r = ['\r']) : ∀ c ∈ r, isBlank c = true := by
  rcases hr with rfl | rfl
  · exact List.forall_mem_nil _
  · exact List.forall_mem_singleton.mpr (by decide)

theorem isBlank_of_mem_newline : ∀ c ∈ ['\n'], isBlank c = true :=
  List.forall_mem_singleton.mpr (by decide)

theorem newline_notMem_return (hr : r = [] ∨ r = ['\r']) : '\n' ∉ r := by
  rcases hr with rfl | rfl <;> simp

/-! ## One line -/

theorem exists_eq_trimmed_append (x : Walk) (l : Text) :
    ∃ z, l = (x.lineAt l).trimmed.text ++ z ∧ ∀ c ∈ z, isBlank c = true := by
  obtain ⟨z, hz, hblank⟩ := Text.exists_eq_dropReturn_append l
  rw [lineAt, trimmed]
  dsimp only
  split
  · exact ⟨z, hz, hblank⟩
  · rw [Text.trimEnd_dropReturn]
    exact Text.exists_eq_trimEnd_append l

theorem neat_lineAt (hx : Ready x) (l : Text) : (x.lineAt l).trimmed.Neat := by
  obtain ⟨z, hz, hblank⟩ := x.exists_eq_trimmed_append l
  cases hends : (x.lineAt l).endsInLiteral with
  | true =>
    refine ⟨fun h ↦ absurd (hends.symm.trans h) Bool.noConfusion, fun hstarts htrim ↦ ?_⟩
    -- Blanks do not start a literal.
    rw [Text.trim_eq_nil_iff] at htrim
    have hall : ∀ c ∈ l, isBlank c = true := by
      rw [hz]
      intro c hc
      exact (List.mem_append.mp hc).elim (htrim c) (hblank c)
    have hliteral : (x.lineAt l).endsInLiteral = (x.lineAt l).startsInLiteral :=
      inLiteral_blanks hall hx.pending
    exact absurd ((hends.symm.trans hliteral).trans hstarts) Bool.noConfusion
  | false =>
    have htext : (x.lineAt l).trimmed.text = Text.trimEnd (Text.dropReturn l) :=
      if_neg (by simp [hends])
    refine ⟨fun _ ↦ ?_, fun _ htrim ↦ ?_⟩
    · rw [htext, Text.trimEnd_trimEnd]
    · rw [Text.trim_eq_nil_iff] at htrim
      rw [htext, ← Text.trimEnd_trimEnd, ← htext, Text.trimEnd_of_blank htrim]

theorem tidy_lineAt (hx : Ready x) (hl : ¬['\r', '\r'] <:+: l) : (x.lineAt l).trimmed.Tidy := by
  have hneat := neat_lineAt hx l
  refine ⟨hneat.trimEnd, ?_, hneat.blank⟩
  rw [trimmed]
  dsimp only
  split
  · exact Text.dropReturn_dropReturn hl
  · exact Text.dropReturn_trimEnd _

section Moving

variable (h : Alike x y) (hx : Ready x) (hl : '\n' ∉ l) (hindent : ∀ c ∈ indent, isBlank c = true)
  (hr : r = [] ∨ r = ['\r']) (hcommon : ∀ k ∈ (x.lineAt l).indentation?, common ≤ k)

include hx hl hindent hcommon

/-- A line and the moved line are the same between blanks, and where the line starts inside a
literal there are none before it. -/
theorem exists_middle :
    ∃ a a' u z, l = a ++ u ++ z ∧ (x.lineAt l).trimmed.text = a ++ u ∧
      ((x.lineAt l).trimmed.moved indent common).text = a' ++ u ∧
      (∀ c ∈ a, isBlank c = true) ∧ (∀ c ∈ a', isBlank c = true) ∧ (∀ c ∈ z, isBlank c = true) ∧
      '\n' ∉ z ∧ (x.scanner.inLiteral = true → a = [] ∧ a' = []) := by
  have hcommon' : ∀ k ∈ (x.lineAt l).trimmed.indentation?, common ≤ k := by
    rwa [indentation?_trimmed]
  obtain ⟨z, hz, hzblank⟩ := x.exists_eq_trimmed_append l
  obtain ⟨a, a', u, htext, hmoved, ha, ha', hfixed⟩ :=
    (neat_lineAt hx l).exists_eq_append hcommon' hindent
  have hline : l = a ++ u ++ z := by rw [← htext, ← hz]
  exact ⟨a, a', u, z, hline, htext, hmoved, ha, ha', hzblank,
    fun hmem ↦ hl (hline ▸ List.mem_append_right _ hmem), hfixed⟩

include h hr

/-- After a moved line the walk goes on as after the line itself. -/
theorem alike_moved_line : Alike (x.pass ' ' (l ++ ['\n']))
    (y.pass ' ' (((x.lineAt l).trimmed.moved indent common).text ++ r ++ ['\n'])) := by
  have hy : Ready y := .of_alike h hx
  obtain ⟨a, a', u, z, hline, -, hmoved, ha, ha', hz, hznewline, hfixed⟩ :=
    exists_middle hx hl hindent hcommon
  have hyfixed : y.scanner.inLiteral = true → a' = [] := fun h' ↦
    (hfixed (h.scanner.inLiteral.symm.trans h')).2
  have hrblank := isBlank_of_mem_return hr
  have hrnewline := newline_notMem_return hr
  have hleft := alike_margins (n := ' ') (u := u) ha hz hx (fun h ↦ (hfixed h).1) hznewline
  have hright := alike_margins (n := ' ') (u := u) ha' hrblank hy hyfixed hrnewline
  rw [← hline] at hleft
  rw [hmoved]
  exact hleft.symm.trans ((h.pass ' ' _).trans hright)

theorem lineAt_moved_line (hreturns : ¬['\r', '\r'] <:+: l) :
    (y.lineAt (((x.lineAt l).trimmed.moved indent common).text ++ r)).trimmed =
      (x.lineAt l).trimmed.moved indent common := by
  have hy : Ready y := .of_alike h hx
  obtain ⟨a, a', u, z, hline, -, hmoved, ha, ha', hz, -, hfixed⟩ :=
    exists_middle hx hl hindent hcommon
  have hyfixed : y.scanner.inLiteral = true → a' = [] := fun h' ↦
    (hfixed (h.scanner.inLiteral.symm.trans h')).2
  have hends : (y.pass '\n' (a' ++ u ++ r)).scanner.inLiteral =
      (x.pass '\n' l).scanner.inLiteral := by
    rw [inLiteral_margins ha' (isBlank_of_mem_return hr) hy hyfixed, hline,
      inLiteral_margins ha hz hx fun h ↦ (hfixed h).1]
    exact (h.pass '\n' u).scanner.inLiteral
  have htidy : ((x.lineAt l).trimmed.moved indent common).Tidy := by
    refine (tidy_lineAt hx hreturns).moved ?_ indent
    rwa [indentation?_trimmed]
  rw [← hmoved] at hends
  rw [lineAt, h.scanner.inLiteral, hends]
  exact htidy.trimmed_append hr

end Moving

/-! ## All lines -/

theorem neat_rawLines (hx : Ready x) (ls : List Text) :
    ∀ R ∈ (x.rawLines ls).map trimmed, R.Neat := by
  induction ls generalizing x with
  | nil => simp [rawLines]
  | cons l ls ih =>
    rw [rawLines, List.map_cons, List.forall_mem_cons]
    exact ⟨neat_lineAt hx l, ih hx.line⟩

theorem newline_notMem_rawLines (hls : ∀ l ∈ ls, '\n' ∉ l) :
    ∀ R ∈ (x.rawLines ls).map trimmed, '\n' ∉ R.text := by
  induction ls generalizing x with
  | nil => simp [rawLines]
  | cons l ls ih =>
    rw [List.forall_mem_cons] at hls
    rw [rawLines, List.map_cons, List.forall_mem_cons]
    refine ⟨fun hmem ↦ hls.1 ?_, ih hls.2⟩
    obtain ⟨z, hz, -⟩ := x.exists_eq_trimmed_append l
    rw [hz]
    exact List.mem_append_left z hmem

/-- Lines that are moved together: the walk goes on alike, and it has seen the moved lines. -/
theorem alike_moved_lines (common : Nat) (h : Alike x y) (hx : Ready x) (hls : ∀ l ∈ ls, '\n' ∉ l)
    (hreturns : ∀ l ∈ ls, ¬['\r', '\r'] <:+: l) (hindent : ∀ c ∈ indent, isBlank c = true)
    (hr : r = [] ∨ r = ['\r'])
    (hcommon : ∀ R ∈ (x.rawLines ls).map trimmed, ∀ k ∈ R.indentation?, common ≤ k) :
    Alike (x.pass ' ' (ended ls))
        (y.pass ' ' (ended (((x.rawLines ls).map trimmed).map fun R ↦
          (R.moved indent common).text ++ r))) ∧
      (y.rawLines (((x.rawLines ls).map trimmed).map fun R ↦
          (R.moved indent common).text ++ r)).map trimmed =
        ((x.rawLines ls).map trimmed).map (moved indent common) := by
  induction ls generalizing x y with
  | nil => exact ⟨h, rfl⟩
  | cons l ls ih =>
    rw [List.forall_mem_cons] at hls hreturns
    rw [rawLines, List.map_cons, List.forall_mem_cons, indentation?_trimmed] at hcommon
    have halike := alike_moved_line h hx hls.1 hindent hr hcommon.1
    have hline := lineAt_moved_line h hx hls.1 hindent hr hcommon.1 hreturns.1
    obtain ⟨halikes, hlines⟩ := ih halike hx.line hls.2 hreturns.2 hcommon.2
    rw [pass_ended_cons, rawLines, List.map_cons, List.map_cons, pass_ended_cons, rawLines,
      List.map_cons, List.map_cons, hline, hlines]
    exact ⟨halikes, rfl⟩

/-- Alike walks see the same lines. -/
theorem Alike.rawLines (h : Alike x y) : y.rawLines ls = x.rawLines ls := by
  induction ls generalizing x y with
  | nil => rfl
  | cons l ls ih =>
    rw [Walk.rawLines, Walk.rawLines, ih (h.pass _ _), lineAt, lineAt, h.scanner.inLiteral,
      (h.pass _ _).scanner.inLiteral]

theorem isBlankLine_lineAt (hl : ∀ c ∈ l, isBlank c = true) (hx : Ready x)
    (hliteral : x.scanner.inLiteral = false) : (x.lineAt l).isBlankLine = true := by
  have htrim : Text.trim (x.lineAt l).text = [] := by
    obtain ⟨z, hz, -⟩ := Text.exists_eq_dropReturn_append l
    refine Text.trim_eq_nil_iff.mpr fun c hc ↦ hl c ?_
    rw [hz]
    exact List.mem_append_left z hc
  have hends : (x.lineAt l).endsInLiteral = false := (inLiteral_blanks hl hx.pending).trans hliteral
  have hstarts : (x.lineAt l).startsInLiteral = false := hliteral
  simp [isBlankLine, htrim, hends, hstarts]

theorem isBlank_of_mem_ended (h : ∀ R ∈ (x.rawLines ls).map trimmed, R.isBlankLine = true) :
    ∀ c ∈ ended ls, isBlank c = true := by
  induction ls generalizing x with
  | nil => simp
  | cons l ls ih =>
    rw [rawLines, List.map_cons, List.forall_mem_cons, isBlankLine_trimmed] at h
    have hl : ∀ c ∈ l, isBlank c = true := by
      have htrim : Text.trim (x.lineAt l).text = [] := by
        have hblank := h.1
        simp only [isBlankLine, Bool.and_eq_true, List.isEmpty_iff] at hblank
        exact hblank.2
      obtain ⟨z, hz, hblank⟩ := Text.exists_eq_dropReturn_append l
      rw [hz]
      intro c hc
      exact (List.mem_append.mp hc).elim (Text.trim_eq_nil_iff.mp htrim c) (hblank c)
    intro c hc
    rw [ended_cons, List.mem_append, List.mem_cons] at hc
    rcases hc with hc | rfl | hc
    · exact hl c hc
    · decide
    · exact ih h.2 c hc

/-! ## Bodies -/

/-- The walk is in code, and no brace is open. -/
structure Closed (x : Walk) : Prop where
  depth : x.depth = some 0
  inCode : x.scanner.inCode = true

theorem Closed.of_alike (h : Alike x y) (hx : Closed x) : Closed y where
  depth := h.depth.trans hx.depth
  inCode := h.scanner.inCode.trans hx.inCode

theorem Closed.pending (hx : Closed x) : x.scanner.pending = none := by
  have hcode := hx.inCode
  simp only [Scanner.inCode, Bool.and_eq_true, Option.isNone_iff_eq_none] at hcode
  exact hcode.1.2

theorem Closed.inLiteral (hx : Closed x) : x.scanner.inLiteral = false := by
  have hcode := hx.inCode
  simp only [Scanner.inCode, Bool.and_eq_true, beq_iff_eq] at hcode
  simp [Scanner.inLiteral, hcode.1.1, hcode.2]

theorem Closed.newline (hx : Closed x) : Closed (x.pass ' ' ['\n']) := by
  have hcode := hx.inCode
  simp only [Scanner.inCode, Bool.and_eq_true, beq_iff_eq] at hcode
  have hafter : x.scanner.afterBlank '\n' = x.scanner.remember '\n' := by
    simp [Scanner.afterBlank, hcode.1.1]
  rw [pass, pass, step_blank (by decide) hx.pending, hafter]
  exact ⟨hx.depth, hx.inCode⟩

end Walk

open Walk

variable {t l : Text} {ls : List Text}

/-- A text is a body if and only if the walk through it is closed at its end. -/
theorem bracketed_eq_some_iff {u : Text} :
    bracketed '\x7b' '\x7d' (t ++ '\x7d' :: u) = some t ↔ (start.pass '\x7d' t).Closed := by
  rw [bracketed, bracketedFrom_eq_some_iff (by decide)]
  exact ⟨fun h ↦ ⟨h.1, h.2⟩, fun h ↦ ⟨h.depth, h.inCode⟩⟩

theorem map_trimmed_rawLines (hls : ∀ l ∈ ls, '\n' ∉ l) (hl : '\n' ∉ l)
    (hends : (start.pass '\n' (ended ls ++ l)).scanner.inLiteral = false) :
    (rawLines (ended ls ++ l)).map trimmed =
      (start.rawLines (ls ++ [l])).map trimmed := by
  rw [pass_ended_append] at hends
  have hinert : (start.pass ' ' (ended ls)).pass endMark l =
      (start.pass ' ' (ended ls)).pass '\n' l :=
    pass_of_isInert (by decide) isInert_newline
  have hlast : trimmed ⟨l, (start.pass ' ' (ended ls)).scanner.inLiteral, false⟩ =
      ((start.pass ' ' (ended ls)).lineAt l).trimmed := by
    rw [lineAt, hends, trimmed, trimmed]
    dsimp only
    rw [if_neg Bool.false_ne_true, if_neg Bool.false_ne_true, Text.trimEnd_dropReturn]
  have hlines := rawLinesFrom_ended (x := start) hls hl
  rw [hinert, hends] at hlines
  rw [rawLines_append, List.map_append, Walk.rawLines, Walk.rawLines, List.map_singleton, ← hlast,
    ← List.map_singleton, ← List.map_append, ← hlines]
  rfl

theorem mem_ended (h : l ∈ ls) : l <:+: ended ls := by
  obtain ⟨P, Q, rfl⟩ := List.append_of_mem h
  exact ⟨ended P, '\n' :: ended Q, by simp⟩

/-- A body is as good as its lines from the first to the last that is not blank. -/
theorem exists_lines_of_closed (ht : (start.pass '\x7d' t).Closed) :
    ∃ P ls Q, t ++ ['\n'] = ended P ++ (ended ls ++ ended Q) ∧
      (∀ c ∈ ended P, isBlank c = true) ∧ (∀ c ∈ ended Q, isBlank c = true) ∧
      (start.rawLines ls).map trimmed =
        withoutBlankEnds ((rawLines t).map trimmed) ∧
      (start.pass ' ' (ended ls)).Closed ∧ ∀ l ∈ ls, '\n' ∉ l ∧ l <:+: t := by
  obtain ⟨ls, last, rfl, hls, hlast⟩ := exists_eq_ended_append t
  rw [pass_closer isInert_newline ht.pending] at ht
  have hraw := map_trimmed_rawLines hls hlast ht.inLiteral
  obtain ⟨A, C, hlines, hA, hC⟩ :=
    exists_eq_withoutBlankEnds ((rawLines (ended ls ++ last)).map trimmed)
  rw [hraw] at hlines
  obtain ⟨PM, Q, hall, hPM, hQ⟩ := exists_of_rawLines_eq_append hlines
  obtain ⟨P, M, rfl, hP, hM⟩ := exists_of_rawLines_eq_append hPM
  -- The blank lines before the others leave no trace, and those behind them follow code.
  have hbefore : ∀ c ∈ ended P, isBlank c = true := isBlank_of_mem_ended (hP ▸ hA)
  have hstart : Alike start (start.pass ' ' (ended P)) := alike_blanks hbefore ready_start rfl
  have hblank : ∀ c ∈ ended Q, isBlank c = true := isBlank_of_mem_ended (hQ ▸ hC)
  have hready : Ready (start.pass ' ' (ended (P ++ M))) := ready_start.lines
  have hended : (ended ls ++ last) ++ ['\n'] = ended (P ++ M) ++ ended Q := by
    rw [← ended_append, ← hall]
    simp
  have hend : ((start.pass ' ' (ended (P ++ M))).pass ' ' (ended Q)).Closed := by
    rw [← pass_ended_append, ← hended, pass_append]
    exact ht.newline
  have hliteral := hend.inLiteral
  rw [inLiteral_blanks hblank hready.pending] at hliteral
  have hclosed := hend.of_alike (alike_blanks hblank hready hliteral).symm
  refine ⟨P, M, Q, ?_, hbefore, hblank, ?_, ?_, fun l hl ↦ ?_⟩
  · rw [hended, ended_append, List.append_assoc]
  · rw [← hstart.rawLines, hM, hraw]
  · rw [ended_append, pass_ended_append] at hclosed
    exact hclosed.of_alike (hstart.pass ' ' (ended M)).symm
  · have hmem : l ∈ ls ++ [last] := by simp [hall, hl]
    rcases List.mem_append.mp hmem with hmem | hmem
    · exact ⟨hls l hmem, (mem_ended hmem).trans (List.prefix_append _ _).isInfix⟩
    · obtain rfl := List.mem_singleton.mp hmem
      exact ⟨hlast, (List.suffix_append _ _).isInfix⟩

/-! ## The written body -/

/-- What stands between the braces of a block. -/
def writtenBody (s : LayoutSettings) (depth : Nat) (t : Text) : Text :=
  s.lineEnding.text ++ (allToText s (bodyLines (depth + 1) t) ++ indentation s depth)

theorem allToText_blockLines (s : LayoutSettings) (depth : Nat) (signature t afterwards : Text) :
    allToText s ([⟨depth, signature⟩, ⟨depth, ['\x7b']⟩] ++ bodyLines (depth + 1) t ++
        [⟨depth, '\x7d' :: afterwards⟩]) =
      toText s ⟨depth, signature⟩ ++ (indentation s depth ++
        '\x7b' :: (writtenBody s depth t ++ '\x7d' :: (afterwards ++ s.lineEnding.text))) := by
  have hbrace : ∀ (c : Char) (w : Text), toText s ⟨depth, c :: w⟩ =
      indentation s depth ++ c :: (w ++ s.lineEnding.text) :=
    fun c w ↦ toText_eq s depth (List.cons_ne_nil c w)
  rw [allToText_append, allToText_append, writtenBody]
  simp [allToText, hbrace]

theorem toText_shift {R : RawLine} (hR : R.Neat) (s : LayoutSettings) (depth common : Nat) :
    toText s ⟨if (R.shift common).isFixed then 0 else depth, (R.shift common).text⟩ =
      (R.moved (indentation s depth) common).text ++ s.lineEnding.text := by
  rw [hR.shift_eq, moved, toText]
  cases R.startsInLiteral with
  | true => simp
  | false => rfl

theorem lineEnding_text_eq_append (e : LineEnding) :
    ∃ r, e.text = r ++ ['\n'] ∧ (r = [] ∨ r = ['\r']) := by
  cases e with
  | newline => exact ⟨[], rfl, .inl rfl⟩
  | returnNewline => exact ⟨['\r'], rfl, .inr rfl⟩

section Written

variable (s : LayoutSettings) (depth : Nat)

theorem newline_notMem_indentation : '\n' ∉ indentation s depth := by
  intro hmem
  obtain ⟨u, hu, hmem⟩ := List.mem_flatten.mp hmem
  rw [(List.mem_replicate.mp hu).2] at hmem
  cases hindent : s.indent with
  | spaces width =>
    rw [hindent] at hmem
    have hspace := (List.mem_replicate.mp hmem).2
    revert hspace
    decide
  | tabs =>
    rw [hindent] at hmem
    have htab := List.mem_singleton.mp hmem
    revert htab
    decide

/-- Lines between two blank ones, of which the last has no end: the walk is closed at the end if it
is after the lines, and the blank lines do not matter. -/
theorem closed_between {ls : List Text} {B : List RawLine} {r z : Text}
    (hr : ∀ c ∈ r, isBlank c = true) (hz : ∀ c ∈ z, isBlank c = true)
    (hnewlines : ∀ l ∈ r :: ls, '\n' ∉ l) (hnewline : '\n' ∉ z)
    (hclosed : ((start.pass ' ' (r ++ ['\n'])).pass ' ' (ended ls)).Closed)
    (hlines : ((start.pass ' ' (r ++ ['\n'])).rawLines ls).map trimmed = B) :
    (start.pass '\x7d' (ended (r :: ls) ++ z)).Closed ∧
      reindent (ended (r :: ls) ++ z) = outdented B := by
  rw [← pass_ended_cons] at hclosed
  have hready : Ready (start.pass ' ' (ended (r :: ls))) := ready_start.lines
  have hend : ∀ n, ((start.pass ' ' (ended (r :: ls))).pass n z).Closed := fun n ↦
    hclosed.of_alike (alike_blanks hz hready hclosed.inLiteral)
  constructor
  · rw [pass_ended_append]
    exact hend _
  · have hraw := map_trimmed_rawLines hnewlines hnewline (by
      rw [pass_ended_append]
      exact (hend '\n').inLiteral)
    rw [reindent_eq, ← outdented_map_trimmed, hraw, rawLines_append, Walk.rawLines, List.map_append,
      List.map_cons, hlines, ← List.singleton_append]
    refine outdented_append (fun R hR ↦ ?_) fun R hR ↦ ?_
    · rw [List.mem_singleton.mp hR, isBlankLine_trimmed]
      exact isBlankLine_lineAt hr ready_start rfl
    · rw [Walk.rawLines, Walk.rawLines, List.map_singleton] at hR
      rw [List.mem_singleton.mp hR, isBlankLine_trimmed]
      exact isBlankLine_lineAt hz hready hclosed.inLiteral

theorem allToText_bodyLines {ls : List RawLine} {common : Nat} {r : Text} (hls : ∀ R ∈ ls, R.Neat)
    (hbody : reindent t = ls.map fun R ↦ R.shift common) (hr : s.lineEnding.text = r ++ ['\n']) :
    allToText s (bodyLines depth t) =
      ended (ls.map fun R ↦ (R.moved (indentation s depth) common).text ++ r) := by
  rw [bodyLines, hbody, List.map_map, allToText, ended, List.flatMap_map, List.flatMap_map]
  refine List.flatMap_congr fun R hR ↦ ?_
  rw [Function.comp_apply, toText_shift (hls R hR), hr, List.append_assoc]

/-- The written body consists of the lines of the body, moved, between two blank ones. -/
theorem writtenBody_eq {ls : List RawLine} {common : Nat} {r : Text} (hls : ∀ R ∈ ls, R.Neat)
    (hbody : reindent t = ls.map fun R ↦ R.shift common) (hr : s.lineEnding.text = r ++ ['\n']) :
    writtenBody s depth t =
      ended (r :: ls.map fun R ↦ (R.moved (indentation s (depth + 1)) common).text ++ r) ++
        indentation s depth := by
  rw [writtenBody, allToText_bodyLines s (depth + 1) hls hbody hr, hr, ended_cons]
  simp

theorem exists_common {B : List RawLine}
    (hB : B = withoutBlankEnds ((rawLines t).map trimmed)) :
    ∃ common, common = ((B.filterMap indentation?).min?).getD 0 ∧ withoutBlankEnds B = B ∧
      reindent t = outdented B ∧ reindent t = B.map fun R ↦ R.shift common := by
  have hends : withoutBlankEnds B = B := by rw [hB, withoutBlankEnds_idempotent]
  have hbody : reindent t = outdented B := by
    rw [reindent_eq, ← outdented_map_trimmed, outdented, ← hB, outdented, hends]
  exact ⟨_, rfl, hends, hbody, by rw [hbody, outdented, hends]⟩

/-- A body that is written is closed at its end, and has the same lines as before. -/
theorem closed_writtenBody (ht : (start.pass '\x7d' t).Closed) (hreturns : ¬['\r', '\r'] <:+: t) :
    (start.pass '\x7d' (writtenBody s depth t)).Closed ∧
      reindent (writtenBody s depth t) = reindent t := by
  obtain ⟨-, ls, -, -, -, -, hraw, hclosed, hls⟩ := exists_lines_of_closed ht
  obtain ⟨r, heol, hr⟩ := lineEnding_text_eq_append s.lineEnding
  have hrblank : ∀ c ∈ r, isBlank c = true := fun c hc ↦
    isBlank_of_mem_lineEnding c (heol ▸ List.mem_append_left _ hc)
  have hreturns' : ∀ l ∈ ls, ¬['\r', '\r'] <:+: l := fun l hl h ↦ hreturns (h.trans (hls l hl).2)
  have hindent : ∀ c ∈ indentation s (depth + 1), isBlank c = true :=
    fun _ ↦ isBlank_of_mem_indentation
  have hneat := neat_rawLines ready_start ls
  have hnewline := newline_notMem_rawLines (x := start) fun l hl ↦ (hls l hl).1
  have hfirst : Alike start (start.pass ' ' (r ++ ['\n'])) :=
    alike_blanks (heol ▸ isBlank_of_mem_lineEnding) ready_start rfl
  have hmove := fun common ↦ alike_moved_lines common hfirst ready_start
    (fun l hl ↦ (hls l hl).1) hreturns' hindent hr
  generalize (start.rawLines ls).map trimmed = B at *
  obtain ⟨common, hcommon, hends, hbody, hshift⟩ := exists_common hraw
  obtain ⟨halike, hmoved⟩ := hmove common (le_indentation? hcommon)
  have hmovedLines : ∀ l ∈ r :: B.map fun R ↦
      (R.moved (indentation s (depth + 1)) common).text ++ r, '\n' ∉ l := by
    have hrnewline := newline_notMem_return hr
    rw [List.forall_mem_cons, List.forall_mem_map]
    refine ⟨hrnewline, fun R hR hmem ↦ ?_⟩
    rcases List.mem_append.mp hmem with hmem | hmem
    · rcases mem_or_mem_of_mem_moved hmem with hmem | hmem
      · exact newline_notMem_indentation s (depth + 1) hmem
      · exact hnewline R hR hmem
    · exact hrnewline hmem
  obtain ⟨hend, hsame⟩ := closed_between hrblank (fun _ ↦ isBlank_of_mem_indentation)
    hmovedLines (newline_notMem_indentation s depth) (hclosed.of_alike halike) hmoved
  rw [writtenBody_eq s depth hneat hshift heol, hsame, hbody]
  exact ⟨hend, outdented_moved hneat hindent hends hcommon⟩

end Written

/-! ## Reading the written body -/

/-- The text is a body: in front of a closing brace it is read up to there. -/
def IsBody (t : Text) : Prop :=
  ∃ c, Reading.delimited '\x7b' '\x7d' false false (Cursor.start (t ++ ['\x7d'])) = .ok t c

theorem yields_delimited (ht : (start.pass '\x7d' t).Closed) (rest : Text) :
    (Reading.delimited '\x7b' '\x7d' false false).Yields (t ++ '\x7d' :: rest) t rest :=
  Reading.yields_delimited_iff.mpr (bracketed_eq_some_iff.mpr ht)

theorem isBody_iff : IsBody t ↔ bracketed '\x7b' '\x7d' (t ++ ['\x7d']) = some t := by
  constructor
  · rintro ⟨c, hc⟩
    exact (Reading.delimited_eq_ok_iff.mp hc).1
  · intro h
    exact ⟨_, Reading.delimited_eq_ok_iff.mpr ⟨h, rfl⟩⟩

instance (t : Text) : Decidable (IsBody t) := decidable_of_iff _ isBody_iff.symm

/-- **Bodies survive rewriting.** Let `w` be what is written between the braces of a block, in any
layout. In front of its closing brace and any text `w` is read up to there, and it has the same
lines as the body that it was written for; so it is written in the same way again. -/
theorem exists_rewritten_body (s : LayoutSettings) (depth : Nat) (t : Text) (ht : IsBody t)
    (hreturns : ¬['\r', '\r'] <:+: t) :
    ∃ w, (∀ signature, Line.allToText s (memberLines depth signature (.block t)) =
        Line.toText s ⟨depth, signature⟩ ++ (Line.indentation s depth ++
          '\x7b' :: (w ++ '\x7d' :: s.lineEnding.text))) ∧
      (∀ rest, (Reading.delimited '\x7b' '\x7d' false false).Yields (w ++ '\x7d' :: rest) w rest) ∧
      reindent w = reindent t ∧
      ∀ depth' signature,
        memberLines depth' signature (.block w) = memberLines depth' signature (.block t) := by
  have hbody := bracketed_eq_some_iff.mp (isBody_iff.mp ht)
  obtain ⟨hclosed, hlines⟩ := closed_writtenBody s depth hbody hreturns
  refine ⟨writtenBody s depth t, fun signature ↦ allToText_blockLines s depth signature t [],
    yields_delimited hclosed, hlines, fun depth' signature ↦ ?_⟩
  rw [memberLines, memberLines, bodyLines, bodyLines, hlines]

/-- A body with a literal over two lines, braces that do not count, and lines that end in different
ways. -/
def sampleBody : Text :=
  "\r\n    var a = @\"x \r\n  \x7d\";  \n\n".toList ++
    "      // \x7d \\\n    if (b) \x7b c('\x7b'); \x7d\n  ".toList

theorem exists_rewritten_sampleBody :
    IsBody sampleBody ∧ ¬['\r', '\r'] <:+: sampleBody ∧
      ∃ w, (∀ signature, Line.allToText { indent := .tabs, lineEnding := .returnNewline }
          (memberLines 1 signature (.block sampleBody)) =
          Line.toText { indent := .tabs, lineEnding := .returnNewline } ⟨1, signature⟩ ++
            (['\t'] ++ '\x7b' :: (w ++ "\x7d\r\n".toList))) ∧
        (∀ rest,
          (Reading.delimited '\x7b' '\x7d' false false).Yields (w ++ '\x7d' :: rest) w rest) ∧
        reindent w = reindent sampleBody ∧
        ∀ depth signature, memberLines depth signature (.block w) =
          memberLines depth signature (.block sampleBody) :=
  have hbody : IsBody sampleBody := by decide +kernel
  have hreturns : ¬['\r', '\r'] <:+: sampleBody := by decide +kernel
  ⟨hbody, hreturns, exists_rewritten_body { indent := .tabs, lineEnding := .returnNewline } 1
    sampleBody hbody hreturns⟩

end SharpOutline
