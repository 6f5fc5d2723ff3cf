import SharpOutline.Proofs.Layout.Bodies

/-!
# Literals in a body

What stands in the literals of a body is written as it was read, but for the ends of lines: where a
literal goes over several lines, they end in the written body as the layout says, however they ended
before. So the literals of a written body are those of the body with other line ends, and they are
the same if and only if their line ends were those of the layout already
(`literalsOf_allToText_bodyLines`).

The literals are followed along a walk (`Walk.literals`). In each line the walk finds the same
literals as in the moved line, since blanks around a line are part of a literal only where the line
starts or ends inside one, and there the line is not moved and keeps its blanks. The end of a line
belongs to a literal if the line ends inside one; then the last character of the line does, too, so
a carriage return before it is seen in the literal if and only if it stands in the line.
-/

namespace SharpOutline

/-! ## Other line ends -/

namespace Text

variable {e : LineEnding} {l t : Text}

/-- A text that begins with `line`, with other ends of its lines. -/
def withLineEndsFrom (e : LineEnding) (line : Text) : Text → Text
  | [] => line
  | c :: cs =>
    if c = '\n' then dropReturn line ++ (e.text ++ withLineEndsFrom e [] cs)
    else withLineEndsFrom e (line ++ [c]) cs

/-- The text with other ends of its lines, each of them a newline that may follow a carriage
return. -/
def withLineEnds (e : LineEnding) (t : Text) : Text := withLineEndsFrom e [] t

/-- Every line of the text ends in this way. -/
def HasLineEnds (e : LineEnding) (t : Text) : Prop :=
  ∀ u v, t = u ++ '\n' :: v → (u.getLast? = some '\r' ↔ e = .returnNewline)

theorem withLineEndsFrom_append (hl : '\n' ∉ l) (e : LineEnding) (line t : Text) :
    withLineEndsFrom e line (l ++ t) = withLineEndsFrom e (line ++ l) t := by
  induction l generalizing line with
  | nil => rw [List.nil_append, List.append_nil]
  | cons c l ih =>
    have hc : c ≠ '\n' := fun h ↦ hl (by simp [h])
    rw [List.cons_append, withLineEndsFrom, if_neg hc, ih (fun h ↦ hl (by simp [h])),
      List.append_assoc, List.singleton_append]

theorem withLineEndsFrom_newline (e : LineEnding) (line t : Text) :
    withLineEndsFrom e line ('\n' :: t) = dropReturn line ++ (e.text ++ withLineEnds e t) := by
  rw [withLineEndsFrom, if_pos rfl, withLineEnds]

theorem dropReturn_append (h : t ≠ [] ∨ l = []) : dropReturn (l ++ t) = l ++ dropReturn t := by
  rcases h with h | rfl
  · rw [dropReturn, dropReturn, List.getLast?_append_of_ne_nil _ h]
    split
    · rw [List.dropLast_append_of_ne_nil h]
    · rfl
  · rfl

theorem dropReturn_append_eq_self_iff {r : Text} (hr : e.text = r ++ ['\n']) :
    dropReturn l ++ r = l ↔ (l.getLast? = some '\r' ↔ e = .returnNewline) := by
  cases e with
  | newline =>
    obtain rfl : [] = r := List.append_cancel_right hr
    rw [List.append_nil, dropReturn_eq_self_iff]
    simp
  | returnNewline =>
    obtain rfl : ['\r'] = r := List.append_cancel_right hr
    simp only [iff_true]
    constructor
    · intro h
      rw [← h, List.getLast?_concat]
    · intro h
      obtain ⟨v, rfl⟩ := List.getLast?_eq_some_iff.mp h
      rw [dropReturn_append_return]

/-- The end of a line in a text is that of the first line, or stands behind it. -/
theorem eq_or_exists_of_append_newline {u v : Text} (hl : '\n' ∉ l)
    (h : l ++ '\n' :: t = u ++ '\n' :: v) :
    (u = l ∧ v = t) ∨ ∃ u', u = l ++ '\n' :: u' ∧ t = u' ++ '\n' :: v := by
  rcases List.append_eq_append_iff.mp h with ⟨a, rfl, ha⟩ | ⟨a, rfl, ha⟩
  · cases a with
    | nil => exact .inl ⟨List.append_nil l, (List.cons.inj ha).2.symm⟩
    | cons c a =>
      obtain ⟨rfl, ht⟩ := List.cons.inj ha
      exact .inr ⟨a, rfl, ht⟩
  · cases a with
    | nil => exact .inl ⟨(List.append_nil u).symm, (List.cons.inj ha).2⟩
    | cons c a =>
      cases ha
      exact absurd (by simp) hl

/-- Texts are the same if their first lines are and what follows those. -/
theorem append_newline_inj {l' t' : Text} (hl : '\n' ∉ l) (hl' : '\n' ∉ l') :
    l ++ '\n' :: t = l' ++ '\n' :: t' ↔ l = l' ∧ t = t' := by
  refine ⟨fun h ↦ ?_, fun h ↦ by rw [h.1, h.2]⟩
  rcases eq_or_exists_of_append_newline hl h with ⟨rfl, rfl⟩ | ⟨u, rfl, -⟩
  · exact ⟨rfl, rfl⟩
  · exact absurd (by simp) hl'

theorem hasLineEnds_of_notMem (hl : '\n' ∉ l) : HasLineEnds e l := by
  rintro u v rfl
  exact absurd (by simp) hl

theorem hasLineEnds_append_newline (hl : '\n' ∉ l) : HasLineEnds e (l ++ '\n' :: t) ↔
    (l.getLast? = some '\r' ↔ e = .returnNewline) ∧ HasLineEnds e t := by
  have hlast : ∀ u : Text, (l ++ '\n' :: u).getLast? = some '\r' ↔ u.getLast? = some '\r' := by
    intro u
    rw [List.getLast?_append_of_ne_nil _ (List.cons_ne_nil _ _)]
    cases u with
    | nil => decide
    | cons c u => rw [List.getLast?_cons_cons]
  constructor
  · intro h
    refine ⟨h l t rfl, fun u v ht ↦ ?_⟩
    rw [← hlast u]
    exact h _ v (by simp [ht])
  · rintro ⟨hl', ht⟩ u v h
    rcases eq_or_exists_of_append_newline hl h with ⟨rfl, rfl⟩ | ⟨u', rfl, rfl⟩
    · exact hl'
    · rw [hlast]
      exact ht u' v rfl

theorem withLineEnds_eq_self_iff : withLineEnds e t = t ↔ HasLineEnds e t := by
  obtain ⟨ls, last, rfl, hls, hlast⟩ := exists_eq_ended_append t
  obtain ⟨r, heol, hr⟩ := lineEnding_text_eq_append e
  induction ls with
  | nil =>
    rw [ended_nil, List.nil_append]
    refine iff_of_true ?_ (hasLineEnds_of_notMem hlast)
    have hwhole := withLineEndsFrom_append hlast e [] []
    rwa [List.append_nil] at hwhole
  | cons l ls ih =>
    rw [List.forall_mem_cons] at hls
    have hnewline : '\n' ∉ dropReturn l ++ r := by
      obtain ⟨z, hz, -⟩ := exists_eq_dropReturn_append l
      rw [List.mem_append, not_or]
      exact ⟨fun hmem ↦ hls.1 (hz ▸ List.mem_append_left z hmem), Walk.newline_notMem_return hr⟩
    rw [ended_cons, List.append_assoc, List.cons_append, withLineEnds,
      withLineEndsFrom_append hls.1, withLineEndsFrom_newline, List.nil_append, heol,
      hasLineEnds_append_newline hls.1, ← ih hls.2, ← dropReturn_append_eq_self_iff heol,
      ← append_newline_inj hnewline hls.1]
    simp

end Text

/-! ## Characters of literals -/

namespace Scanner

variable {s : Scanner} {c n : Char}

theorem class_blank (hc : isBlank c = true) (hs : s.pending = none) :
    (s.step c n).2 = .literal ↔ s.inLiteral = true := by
  obtain ⟨hslash, -, hquote, hbrace, hbrace', hquote', -⟩ := ne_signs_of_isBlank hc
  obtain ⟨mode, last, beforeLast, escaped, pending, holes⟩ := s
  obtain rfl : pending = none := hs
  cases holes with
  | cons h holes => cases mode <;> simp [step, inLiteral]
  | nil =>
    cases mode with
    | code =>
      simp [step, stepInner, stepCode, remember, inLiteral, hquote, hquote', hslash, hbrace,
        hbrace']
    | lineComment =>
      by_cases hnewline : c = '\n' <;> simp [step, stepInner, inLiteral, hnewline]
    | blockComment => by_cases hend : c = '*' ∧ n = '/' <;> simp [step, stepInner, inLiteral, hend]
    | string verbatim interpolated => simp [step, stepInner, inLiteral]
    | character => simp [step, stepInner, inLiteral]

/-- In a literal nothing is decided about the next character but that it belongs to the literal. -/
def Settled (s : Scanner) : Prop :=
  s.inLiteral = true → s.holes = [] → s.pending = none ∨ s.pending = some .literal

theorem settled_step (s : Scanner) (c n : Char) : Settled (s.step c n).1 := by
  change Settled (s.stepInner c n).1
  rw [stepInner]
  split
  · exact fun _ _ ↦ .inl rfl
  · rename_i hp
    intro hl hholes
    split at hl
    · grind [stepCode, remember, openBrace, closeBrace, inLiteral]
    · grind
    · grind [inLiteral]
    · grind [stepString, stepEscaping]
    · grind [stepEscaping]

theorem class_eq_literal (h : Settled s) (hc : (s.step c n).1.inLiteral = true) :
    (s.step c n).2 = .literal := by
  obtain ⟨mode, last, beforeLast, escaped, pending, holes⟩ := s
  cases holes with
  | cons hole holes => simp [step]
  | nil =>
    cases pending with
    | some k =>
      have hk : k = .literal := by simpa using h hc rfl
      simp [step, stepInner, hk]
    | none =>
      cases mode with
      | code => grind [step, stepInner, stepCode, inLiteral, remember, openBrace, closeBrace]
      | lineComment => grind [step, stepInner, inLiteral]
      | blockComment => grind [step, stepInner, inLiteral]
      | string verbatim interpolated => simp [step, stepInner]
      | character => simp [step, stepInner]

end Scanner

namespace Walk

variable {x y : Walk} {n n' : Char} {l r indent u v z : Text} {ls : List Text} {common : Nat}

/-- The characters of a text that belong to literals, as the walk sees them. -/
def literals (x : Walk) (next : Char) : Text → Text
  | [] => []
  | c :: cs =>
    if (x.scanner.step c (cs.headD next)).2 = .literal then
      c :: (x.step c (cs.headD next)).literals next cs
    else (x.step c (cs.headD next)).literals next cs

theorem literals_append (x : Walk) (n : Char) (u v : Text) :
    x.literals n (u ++ v) = x.literals (v.headD n) u ++ (x.pass (v.headD n) u).literals n v := by
  induction u generalizing x with
  | nil => rfl
  | cons c u ih =>
    have hnext : (u ++ v).headD n = u.headD (v.headD n) := by cases u <;> rfl
    rw [List.cons_append, literals, hnext, ih, literals, pass]
    split <;> rfl

theorem Alike.literals (h : Alike x y) (n : Char) (u : Text) :
    y.literals n u = x.literals n u := by
  induction u generalizing x y with
  | nil => rfl
  | cons c u ih =>
    rw [Walk.literals, Walk.literals, ih (h.step c _), (h.scanner.step c _).2]

theorem literals_of_isInert (hn : isInert n = true) (hn' : isInert n' = true) :
    x.literals n u = x.literals n' u := by
  induction u generalizing x with
  | nil => rfl
  | cons c u ih =>
    have hstep : x.scanner.step c (u.headD n) = x.scanner.step c (u.headD n') := by
      cases u with
      | nil => exact Scanner.step_of_isInert hn hn'
      | cons d u => rfl
    rw [literals, literals, step, step, hstep, ih]

theorem literals_blanks (hu : ∀ c ∈ u, isBlank c = true) (hx : x.scanner.pending = none) :
    x.literals n u = if x.scanner.inLiteral then u else [] := by
  induction u generalizing x with
  | nil => simp [literals]
  | cons c u ih =>
    have hc := hu c List.mem_cons_self
    have hlater := ih (x := x.step c (u.headD n)) (fun d hd ↦ hu d (List.mem_cons_of_mem c hd))
      (by rw [step_blank hc hx]; exact (Scanner.pending_afterBlank _ _).trans hx)
    rw [step_blank hc hx, Scanner.inLiteral_afterBlank] at hlater
    simp only [literals, Scanner.class_blank hc hx, step_blank hc hx, hlater]
    split <;> rfl

/-- Blanks at the end of a text belong to a literal if the text ends inside one. -/
theorem literals_append_blanks (hx : Ready x) (hz : ∀ c ∈ z, isBlank c = true)
    (hn : isInert (z.headD n) = true) : x.literals n (u ++ z) =
      x.literals '\n' u ++ if (x.pass '\n' u).scanner.inLiteral then z else [] := by
  rw [literals_append, literals_blanks hz (pending_pass hx.pending hn),
    literals_of_isInert hn isInert_newline, pass_of_isInert hn isInert_newline]

theorem inLiteral_append_blanks (hx : Ready x) (hz : ∀ c ∈ z, isBlank c = true) :
    (x.pass '\n' (u ++ z)).scanner.inLiteral = (x.pass '\n' u).scanner.inLiteral := by
  have hinert := isInert_headD hz isInert_newline
  rw [pass_append, inLiteral_blanks hz (pending_pass hx.pending hinert),
    pass_of_isInert hinert isInert_newline]

/-- The literals of a text do not depend on the blanks before it, unless it starts inside one. -/
theorem literals_blanks_append {a : Text} (hx : Ready x) (ha : ∀ c ∈ a, isBlank c = true)
    (hfixed : x.scanner.inLiteral = true → a = []) : x.literals n (a ++ u) = x.literals n u := by
  cases hliteral : x.scanner.inLiteral with
  | true => rw [hfixed hliteral, List.nil_append]
  | false =>
    rw [literals_append, literals_blanks ha hx.pending, hliteral,
      (alike_blanks ha hx hliteral).literals]
    rfl

theorem mem_of_mem_literals {c : Char} (h : c ∈ x.literals n u) : c ∈ u := by
  induction u generalizing x with
  | nil => exact h
  | cons d u ih =>
    rw [literals] at h
    split at h
    · exact (List.mem_cons.mp h).elim (fun hc ↦ hc ▸ List.mem_cons_self) fun hc ↦
        List.mem_cons_of_mem d (ih hc)
    · exact List.mem_cons_of_mem d (ih h)

/-! ## The literals of a line -/

theorem settled_pass (hx : Scanner.Settled x.scanner) : Scanner.Settled (x.pass n u).scanner := by
  induction u generalizing x with
  | nil => exact hx
  | cons c u ih => exact ih (Scanner.settled_step _ _ _)

theorem Ready.settled (hx : Ready x) : Scanner.Settled x.scanner := fun _ _ ↦ .inl hx.pending

/-- The last character of a line that ends inside a literal belongs to it. -/
theorem getLast?_literals (hx : Ready x) (hends : (x.pass '\n' l).scanner.inLiteral = true) :
    (x.literals '\n' l).getLast? = l.getLast? := by
  rcases l.eq_nil_or_concat with rfl | ⟨u, c, rfl⟩
  · rfl
  · rw [List.concat_eq_append] at hends ⊢
    rw [pass_append] at hends
    have hclass := Scanner.class_eq_literal (settled_pass (n := c) (u := u) hx.settled) hends
    have hlast : (x.pass c u).literals '\n' [c] = [c] := if_pos hclass
    rw [literals_append, List.headD_cons, hlast, List.getLast?_concat, List.getLast?_concat]

theorem dropReturn_literals (hx : Ready x) (hends : (x.pass '\n' l).scanner.inLiteral = true) :
    Text.dropReturn (x.literals '\n' l) = x.literals '\n' (Text.dropReturn l) := by
  by_cases hreturn : l.getLast? = some '\r'
  · obtain ⟨u, rfl⟩ := List.getLast?_eq_some_iff.mp hreturn
    have hblank := isBlank_of_mem_return (r := ['\r']) (.inr rfl)
    rw [inLiteral_append_blanks hx hblank] at hends
    rw [literals_append_blanks hx hblank (by decide), hends, if_pos rfl,
      Text.dropReturn_append_return, Text.dropReturn_append_return]
  · rw [Text.dropReturn_eq_self_iff.mpr hreturn, Text.dropReturn_eq_self_iff.mpr]
    rwa [getLast?_literals hx hends]

/-- A carriage return at the end of a line that does not end inside a literal belongs to none. -/
theorem literals_dropReturn (hx : Ready x) (hends : (x.pass '\n' l).scanner.inLiteral = false) :
    x.literals '\n' (Text.dropReturn l) = x.literals '\n' l := by
  obtain ⟨z, hz, hblank⟩ := Text.exists_eq_dropReturn_append l
  rw [hz, inLiteral_append_blanks hx hblank] at hends
  conv_rhs => rw [hz]
  rw [literals_append_blanks hx hblank (isInert_headD hblank isInert_newline), hends,
    if_neg Bool.false_ne_true, List.append_nil]

theorem literals_line (hx : Ready x) (n : Char) (l : Text) : x.literals n (l ++ ['\n']) =
    x.literals '\n' l ++ if (x.pass '\n' l).scanner.inLiteral then ['\n'] else [] :=
  literals_append_blanks hx isBlank_of_mem_newline isInert_newline

theorem literals_ended_cons (hx : Ready x) (l : Text) (ls : List Text) :
    x.literals ' ' (ended (l :: ls)) =
      x.literals ' ' (l ++ ['\n']) ++ (x.pass ' ' (l ++ ['\n'])).literals ' ' (ended ls) := by
  rw [ended_cons, ← List.singleton_append, ← List.append_assoc, literals_append,
    literals_line hx _ l, ← literals_line hx ' ' l, pass_line x _ ' ']

section Moving

variable (h : Alike x y) (hx : Ready x) (hindent : ∀ c ∈ indent, isBlank c = true)
  (hr : r = [] ∨ r = ['\r'])

include h hx hindent hr

/-- The literals of a moved line are those of the line itself, except that it has another end. -/
theorem literals_moved_line (hl : '\n' ∉ l)
    (hcommon : ∀ k ∈ (x.lineAt l).indentation?, common ≤ k) :
    y.literals ' ' (((x.lineAt l).trimmed.moved indent common).text ++ r ++ ['\n']) =
      x.literals '\n' (Text.dropReturn l) ++
        if (x.pass '\n' l).scanner.inLiteral then r ++ ['\n'] else [] := by
  have hy : Ready y := .of_alike h hx
  obtain ⟨a, a', u, z, hline, htext, hmoved, ha, ha', hz, -, hfixed⟩ :=
    exists_middle hx hl hindent hcommon
  have hxfixed : x.scanner.inLiteral = true → a = [] := fun h ↦ (hfixed h).1
  have hyfixed : y.scanner.inLiteral = true → a' = [] := fun h' ↦
    (hfixed (h.scanner.inLiteral.symm.trans h')).2
  have hends : (x.pass '\n' l).scanner.inLiteral = (x.pass '\n' u).scanner.inLiteral := by
    rw [hline, inLiteral_margins ha hz hx hxfixed]
  have hmiddle : x.literals '\n' (Text.dropReturn l) = x.literals '\n' u := by
    cases hliteral : (x.pass '\n' l).scanner.inLiteral with
    | true =>
      have hkept : (x.lineAt l).trimmed.text = Text.dropReturn l := if_pos hliteral
      rw [← hkept, htext, literals_blanks_append hx ha hxfixed]
    | false =>
      rw [literals_dropReturn hx hliteral, hline, List.append_assoc,
        literals_blanks_append hx ha hxfixed,
        literals_append_blanks hx hz (isInert_headD hz isInert_newline), ← hends, hliteral,
        if_neg Bool.false_ne_true, List.append_nil]
  have hreturn : ∀ c ∈ r ++ ['\n'], isBlank c = true := by
    intro c hc
    rcases List.mem_append.mp hc with hc | hc
    · exact isBlank_of_mem_return hr c hc
    · rw [List.mem_singleton.mp hc]
      decide
  rw [hmoved, List.append_assoc, List.append_assoc, literals_blanks_append hy ha' hyfixed,
    literals_append_blanks hy hreturn (isInert_headD hreturn (by decide)), h.literals,
    (h.pass '\n' u).scanner.inLiteral, hmiddle, hends]

/-- The literals of moved lines are those of the lines themselves, with other line ends. What stands
in literals behind the last line end that belongs to one is `line`. -/
theorem withLineEndsFrom_literals {e : LineEnding} (heol : e.text = r ++ ['\n'])
    (hls : ∀ l ∈ ls, '\n' ∉ l)
    (hcommon : ∀ R ∈ (x.rawLines ls).map RawLine.trimmed, ∀ k ∈ R.indentation?, common ≤ k)
    {line : Text} (hline : x.scanner.inLiteral = true → line = []) :
    Text.withLineEndsFrom e line (x.literals ' ' (ended ls)) =
      line ++ y.literals ' ' (ended (((x.rawLines ls).map RawLine.trimmed).map fun R ↦
        (R.moved indent common).text ++ r)) := by
  induction ls generalizing x y line with
  | nil => exact (List.append_nil line).symm
  | cons l ls ih =>
    rw [List.forall_mem_cons] at hls
    rw [rawLines, List.map_cons, List.forall_mem_cons, RawLine.indentation?_trimmed] at hcommon
    have hmoved := literals_moved_line h hx hindent hr hls.1 hcommon.1
    have hnewline : '\n' ∉ x.literals '\n' l := fun hmem ↦ hls.1 (mem_of_mem_literals hmem)
    have hnext : (x.pass ' ' (l ++ ['\n'])).scanner.inLiteral =
        (x.pass '\n' l).scanner.inLiteral := by
      rw [pass_append]
      exact inLiteral_blanks isBlank_of_mem_newline (pending_pass hx.pending isInert_newline)
    have halike := alike_moved_line h hx hls.1 hindent hr hcommon.1
    rw [literals_ended_cons hx, literals_line hx, rawLines, List.map_cons, List.map_cons,
      literals_ended_cons (.of_alike h hx), hmoved]
    cases hends : (x.pass '\n' l).scanner.inLiteral with
    | true =>
      -- A line that is empty and ends inside a literal starts inside one as well, and then there is
      -- nothing left over from the lines before it.
      have hsome : x.literals '\n' l ≠ [] ∨ line = [] := by
        cases l with
        | nil => exact .inr (hline hends)
        | cons c l =>
          refine .inl fun hnil ↦ ?_
          have hlast := getLast?_literals hx hends
          rw [hnil] at hlast
          exact List.cons_ne_nil c l (List.getLast?_eq_none_iff.mp hlast.symm)
      rw [if_pos rfl, if_pos rfl, List.append_assoc, List.singleton_append,
        Text.withLineEndsFrom_append hnewline, Text.withLineEndsFrom_newline,
        Text.dropReturn_append hsome, dropReturn_literals hx hends, Text.withLineEnds,
        ih halike hx.line hls.2 hcommon.2 fun _ ↦ rfl, heol]
      simp
    | false =>
      rw [if_neg Bool.false_ne_true, if_neg Bool.false_ne_true, List.append_nil, List.append_nil,
        Text.withLineEndsFrom_append hnewline, ih halike hx.line hls.2 hcommon.2,
        literals_dropReturn hx hends, List.append_assoc]
      rw [hnext, hends]
      exact fun h ↦ absurd h Bool.false_ne_true

end Moving

/-! ## The literals of a body -/

theorem literals_eq_filter (x : Walk) (t : Text) : x.literals endMark t =
    ((x.scanner.labelled t).filter fun p ↦ p.2 = .literal).map Prod.fst := by
  induction t generalizing x with
  | nil => rfl
  | cons c t ih =>
    rw [literals, ← ahead, ih, Scanner.labelled_cons, List.filter_cons]
    simp only [decide_eq_true_eq]
    split <;> rfl

end Walk

def literalsOf (t : Text) : Text :=
  ((Scanner.labelled {} t).filter fun p ↦ p.2 = .literal).map Prod.fst

open Walk

theorem literalsOf_eq (t : Text) {n : Char} (hn : isInert n = true) :
    literalsOf t = start.literals n t := by
  rw [literals_of_isInert hn (show isInert endMark = true by decide), literals_eq_filter]
  rfl

/-- The literals of a body are those of its lines from the first to the last that is not blank. -/
theorem literalsOf_eq_lines {t : Text} {P ls Q : List Text} (ht : (start.pass '\x7d' t).Closed)
    (hlines : t ++ ['\n'] = ended P ++ (ended ls ++ ended Q))
    (hP : ∀ c ∈ ended P, isBlank c = true) (hQ : ∀ c ∈ ended Q, isBlank c = true)
    (hclosed : (start.pass ' ' (ended ls)).Closed) :
    literalsOf t = start.literals ' ' (ended ls) := by
  have hspace : isInert ' ' = true := by decide
  rw [pass_closer isInert_newline ht.pending] at ht
  have hlast := literals_line ready_start ' ' t
  rw [ht.inLiteral, if_neg Bool.false_ne_true, List.append_nil] at hlast
  rw [pass_of_isInert hspace isInert_newline] at hclosed
  rw [literalsOf_eq t isInert_newline, ← hlast, hlines,
    literals_blanks_append ready_start hP fun h ↦ absurd h Bool.false_ne_true,
    literals_append_blanks ready_start hQ (isInert_headD hQ hspace), hclosed.inLiteral,
    if_neg Bool.false_ne_true, List.append_nil, literals_of_isInert isInert_newline hspace]

/-- **Literals are kept** when a body is written, but for the ends of their lines. -/
theorem literalsOf_allToText_bodyLines (s : LayoutSettings) (depth : Nat) (t : Text)
    (ht : IsBody t) :
    literalsOf (Line.allToText s (bodyLines depth t)) =
        Text.withLineEnds s.lineEnding (literalsOf t) ∧
      (literalsOf (Line.allToText s (bodyLines depth t)) = literalsOf t ↔
        Text.HasLineEnds s.lineEnding (literalsOf t)) := by
  have hbody := bracketed_eq_some_iff.mp (isBody_iff.mp ht)
  obtain ⟨P, ls, Q, hlines, hP, hQ, hraw, hclosed, hls⟩ := exists_lines_of_closed hbody
  obtain ⟨r, heol, hr⟩ := lineEnding_text_eq_append s.lineEnding
  obtain ⟨common, hcommon, -, -, hshift⟩ := exists_common hraw
  have hindent : ∀ c ∈ Line.indentation s depth, isBlank c = true :=
    fun _ ↦ Line.isBlank_of_mem_indentation
  have hliterals : literalsOf (Line.allToText s (bodyLines depth t)) =
      Text.withLineEnds s.lineEnding (literalsOf t) := by
    rw [literalsOf_eq_lines hbody hlines hP hQ hclosed, Text.withLineEnds,
      withLineEndsFrom_literals (.refl start) ready_start hindent hr heol (fun l hl ↦ (hls l hl).1)
        (le_indentation? hcommon) fun _ ↦ rfl,
      allToText_bodyLines s depth (neat_rawLines ready_start ls) hshift heol, List.nil_append,
      literalsOf_eq _ (show isInert ' ' = true by decide)]
  exact ⟨hliterals, by rw [hliterals, Text.withLineEnds_eq_self_iff]⟩

/-- A body with literals over several lines that end in different ways. -/
def literalBody : Text :=
  "\r\n  a = @\"x \r\n  \x7d\r\r\n\"; // \"\r\n".toList ++
    "  b = $@\"\x7b c \n + d\x7d\n\";\r\n".toList

theorem literalsOf_allToText_literalBody :
    IsBody literalBody ∧
      literalsOf (Line.allToText { indent := .tabs, lineEnding := .newline }
        (bodyLines 2 literalBody)) =
        "\"x \n  \x7d\r\n\"".toList ++ "\"\x7b c \n + d\x7d\n\"".toList := by
  have hbody : IsBody literalBody := by decide +kernel
  have hliterals := (literalsOf_allToText_bodyLines { indent := .tabs, lineEnding := .newline } 2
    literalBody hbody).1
  exact ⟨hbody, hliterals.trans (by decide +kernel)⟩

/-- The end of a line inside a literal may change. -/
theorem not_forall_literalsOf_allToText :
    ¬∀ s depth t, IsBody t → literalsOf (Line.allToText s (bodyLines depth t)) = literalsOf t := by
  intro h
  have hbody : IsBody "a = @\"x\r\ny\";".toList := by decide +kernel
  exact absurd (h { indent := .tabs, lineEnding := .newline } 1 _ hbody) (by decide +kernel)

end SharpOutline
