import Mathlib.Data.List.DropRight
import SharpOutline.Layout.Line
import SharpOutline.Proofs.Lexeme.Walks
import SharpOutline.Proofs.Words

/-!
# Raw lines

A raw text is its lines with their ends, and what the layout knows of a line is what a walk sees on
the way through it (`Walk.rawLinesFrom_ended`). The lines of a body are found from the raw lines by
`outdented`, to which blanks at the end of a line do not matter (`outdented_map_trimmed`) unless
they are part of a literal.

A raw line that came out of a text and was trimmed is `Tidy`: it is fixed, or empty, or has blanks
and then something else. Tidy lines are moved behind another indentation by `RawLine.moved`, and the
main statement is that the lines of a body stay the same when all of them are (`outdented_moved`).
-/

namespace SharpOutline

open RawLine

/-! ## Trimming -/

namespace Text

variable {t u : Text}

@[simp] theorem trimEnd_trimEnd (t : Text) : trimEnd (trimEnd t) = trimEnd t := by
  rw [trimEnd, trimEnd, List.reverse_reverse, List.dropWhile_idempotent isBlank]

theorem trim_trimEnd (t : Text) : trim (trimEnd t) = trim t := by rw [trim, trimEnd_trimEnd, trim]

theorem exists_eq_dropReturn_append (t : Text) :
    ∃ u, t = dropReturn t ++ u ∧ ∀ c ∈ u, isBlank c = true := by
  rw [dropReturn]
  split
  · rename_i h
    obtain ⟨v, rfl⟩ := List.getLast?_eq_some_iff.mp h
    refine ⟨['\r'], by simp, fun c hc ↦ ?_⟩
    rw [List.mem_singleton.mp hc]
    decide
  · exact ⟨[], (List.append_nil t).symm, by simp⟩

theorem trimEnd_dropReturn (t : Text) : trimEnd (dropReturn t) = trimEnd t := by
  obtain ⟨u, hu, hblank⟩ := exists_eq_dropReturn_append t
  exact (congrArg trimEnd hu).trans (trimEnd_append_of_blank hblank) |>.symm

theorem dropReturn_append_return (t : Text) : dropReturn (t ++ ['\r']) = t := by
  rw [dropReturn, if_pos (by simp), List.dropLast_concat]

theorem dropReturn_eq_self_iff : dropReturn t = t ↔ t.getLast? ≠ some '\r' := by
  rw [dropReturn]
  split
  · rename_i h
    obtain ⟨v, rfl⟩ := List.getLast?_eq_some_iff.mp h
    simp
  · rename_i h
    exact iff_of_true rfl h

theorem dropReturn_trimEnd (t : Text) : dropReturn (trimEnd t) = trimEnd t := by
  refine dropReturn_eq_self_iff.mpr fun h ↦ ?_
  have hblank := isBlank_getLast?_of_trimEnd_eq_self (trimEnd_trimEnd t) '\r' h
  revert hblank
  decide

theorem dropReturn_dropReturn (h : ¬['\r', '\r'] <:+: t) :
    dropReturn (dropReturn t) = dropReturn t := by
  refine dropReturn_eq_self_iff.mpr fun hlast ↦ ?_
  rw [dropReturn] at hlast
  split at hlast
  · rename_i hreturn
    obtain ⟨v, rfl⟩ := List.getLast?_eq_some_iff.mp hreturn
    rw [List.dropLast_concat] at hlast
    obtain ⟨u, rfl⟩ := List.getLast?_eq_some_iff.mp hlast
    exact h ⟨u, [], by simp⟩
  · rename_i hreturn
    exact hreturn hlast

end Text

/-! ## Lines with their ends -/

def ended (ls : List Text) : Text := ls.flatMap (· ++ ['\n'])

@[simp] theorem ended_nil : ended [] = [] := rfl

@[simp] theorem ended_cons (l : Text) (ls : List Text) :
    ended (l :: ls) = l ++ '\n' :: ended ls := by
  simp [ended]

@[simp] theorem ended_append (ls ls' : List Text) : ended (ls ++ ls') = ended ls ++ ended ls' := by
  simp [ended]

/-- A text is a row of lines with their ends and a last line without one. -/
theorem exists_eq_ended_append (t : Text) :
    ∃ ls last, t = ended ls ++ last ∧ (∀ l ∈ ls, '\n' ∉ l) ∧ '\n' ∉ last := by
  induction t with
  | nil => exact ⟨[], [], rfl, by simp, by simp⟩
  | cons c t ih =>
    obtain ⟨ls, last, rfl, hls, hlast⟩ := ih
    by_cases hc : c = '\n'
    · subst hc
      exact ⟨[] :: ls, last, by simp, by simpa using hls, hlast⟩
    · have hcons : ∀ {l : Text}, '\n' ∉ l → '\n' ∉ c :: l := fun hl ↦
        List.not_mem_cons_of_ne_of_not_mem (Ne.symm hc) hl
      cases ls with
      | nil => exact ⟨[], c :: last, rfl, by simp, hcons hlast⟩
      | cons l ls =>
        refine ⟨(c :: l) :: ls, last, by simp, ?_, hlast⟩
        rw [List.forall_mem_cons] at hls ⊢
        exact ⟨hcons hls.1, hls.2⟩

namespace Walk

variable {x y : Walk} {l : Text} {ls ls' : List Text}

/-- The raw line in front of which the walk stands. -/
def lineAt (x : Walk) (l : Text) : RawLine :=
  ⟨Text.dropReturn l, x.scanner.inLiteral, (x.pass '\n' l).scanner.inLiteral⟩

/-- The raw lines on the way of the walk. -/
def rawLines (x : Walk) : List Text → List RawLine
  | [] => []
  | l :: ls => x.lineAt l :: (x.pass ' ' (l ++ ['\n'])).rawLines ls

theorem pass_ended_cons (x : Walk) (l : Text) (ls : List Text) :
    x.pass ' ' (ended (l :: ls)) = (x.pass ' ' (l ++ ['\n'])).pass ' ' (ended ls) := by
  rw [ended_cons, ← List.singleton_append, ← List.append_assoc, pass_append,
    pass_line x _ ' ']

theorem pass_ended_append (x : Walk) (n : Char) (ls : List Text) (u : Text) :
    x.pass n (ended ls ++ u) = (x.pass ' ' (ended ls)).pass n u := by
  induction ls generalizing x with
  | nil => rfl
  | cons l ls ih =>
    have hsplit : ended (l :: ls) ++ u = (l ++ ['\n']) ++ (ended ls ++ u) := by simp
    rw [hsplit, pass_append, pass_line x _ ' ', ih, pass_ended_cons]

theorem rawLines_append (x : Walk) (ls ls' : List Text) :
    x.rawLines (ls ++ ls') = x.rawLines ls ++ (x.pass ' ' (ended ls)).rawLines ls' := by
  induction ls generalizing x with
  | nil => rfl
  | cons l ls ih => rw [List.cons_append, rawLines, ih, rawLines, pass_ended_cons, List.cons_append]

/-- Raw lines can be cut where their lines are. -/
theorem exists_of_rawLines_eq_append {f : RawLine → RawLine} {A B : List RawLine}
    (h : (x.rawLines ls).map f = A ++ B) :
    ∃ P Q, ls = P ++ Q ∧ (x.rawLines P).map f = A ∧
      ((x.pass ' ' (ended P)).rawLines Q).map f = B := by
  induction A generalizing x ls with
  | nil => exact ⟨[], ls, rfl, rfl, h⟩
  | cons a A ih =>
    cases ls with
    | nil => simp [rawLines] at h
    | cons l ls =>
      rw [rawLines, List.map_cons, List.cons_append, List.cons.injEq] at h
      obtain ⟨P, Q, rfl, hP, hQ⟩ := ih h.2
      refine ⟨l :: P, Q, rfl, ?_, ?_⟩
      · rw [rawLines, List.map_cons, h.1, hP]
      · rwa [pass_ended_cons]

theorem Ready.lines (hx : Ready x) : Ready (x.pass ' ' (ended ls)) := by
  induction ls generalizing x with
  | nil => exact hx
  | cons l ls ih =>
    rw [pass_ended_cons]
    exact ih hx.line

/-! ## Cutting a text into lines -/

theorem rawLinesFrom_line (hl : '\n' ∉ l) (b : Bool) (line t : Text) :
    rawLinesFrom x.scanner b line (l ++ '\n' :: t) =
      ⟨Text.dropReturn (line ++ l), b, (x.pass '\n' l).scanner.inLiteral⟩ ::
        rawLinesFrom (x.pass ' ' (l ++ ['\n'])).scanner
          (x.pass ' ' (l ++ ['\n'])).scanner.inLiteral [] t := by
  induction l generalizing x line with
  | nil =>
    have hnext := Scanner.step_blank_next x.scanner (ahead t) ' ' (c := '\n') (by decide)
    rw [List.nil_append, rawLinesFrom, if_pos rfl, hnext, List.append_nil]
    rfl
  | cons c l ih =>
    have hnext : ahead (l ++ '\n' :: t) = l.headD '\n' := by cases l <;> rfl
    have hnext' : (l ++ ['\n']).headD ' ' = l.headD '\n' := by cases l <;> rfl
    have hc : c ≠ '\n' := fun h ↦ hl (by simp [h])
    rw [List.cons_append, rawLinesFrom, if_neg hc, hnext]
    have ih := ih (x := x.step c (l.headD '\n')) (fun h ↦ hl (by simp [h])) (line ++ [c])
    rw [List.append_assoc, List.singleton_append] at ih
    rw [List.cons_append, pass, pass, hnext']
    exact ih

theorem rawLinesFrom_last (hl : '\n' ∉ l) (b : Bool) (line : Text) :
    rawLinesFrom x.scanner b line l =
      [⟨line ++ l, b, (x.pass endMark l).scanner.inLiteral⟩] := by
  induction l generalizing x line with
  | nil => rw [rawLinesFrom, List.append_nil, pass]
  | cons c l ih =>
    have hc : c ≠ '\n' := fun h ↦ hl (by simp [h])
    have ih := ih (x := x.step c (ahead l)) (fun h ↦ hl (by simp [h])) (line ++ [c])
    rw [List.append_assoc, List.singleton_append] at ih
    rw [rawLinesFrom, if_neg hc]
    exact ih

/-- The raw lines of a text are those that the walk through it sees. -/
theorem rawLinesFrom_ended (hls : ∀ l ∈ ls, '\n' ∉ l) (hl : '\n' ∉ l) :
    rawLinesFrom x.scanner x.scanner.inLiteral [] (ended ls ++ l) =
      x.rawLines ls ++ [⟨l, (x.pass ' ' (ended ls)).scanner.inLiteral,
        ((x.pass ' ' (ended ls)).pass endMark l).scanner.inLiteral⟩] := by
  induction ls generalizing x with
  | nil => exact rawLinesFrom_last hl _ []
  | cons l' ls ih =>
    rw [List.forall_mem_cons] at hls
    rw [ended_cons, List.append_assoc, List.cons_append, rawLinesFrom_line hls.1, ih hls.2,
      ← ended_cons, pass_ended_cons]
    rfl

end Walk

/-! ## Lines without blanks at their ends -/

namespace RawLine

variable {l : RawLine}

/-- The line without blanks at its end, unless they are part of a literal. -/
def trimmed (l : RawLine) : RawLine :=
  { l with text := if l.endsInLiteral then l.text else Text.trimEnd l.text }

theorem trim_trimmed (l : RawLine) : Text.trim l.trimmed.text = Text.trim l.text := by
  rw [trimmed]
  dsimp only
  split
  · rfl
  · exact Text.trim_trimEnd l.text

@[simp] theorem isBlankLine_trimmed (l : RawLine) : l.trimmed.isBlankLine = l.isBlankLine := by
  rw [isBlankLine, trim_trimmed]
  rfl

@[simp] theorem indentation?_trimmed (l : RawLine) : l.trimmed.indentation? = l.indentation? := by
  have hstart : ¬(Text.trim l.text).isEmpty = true →
      l.trimmed.text.takeWhile isBlank = l.text.takeWhile isBlank := by
    intro hne
    obtain ⟨u, hu, hblank⟩ : ∃ u, l.text = l.trimmed.text ++ u ∧ ∀ c ∈ u, isBlank c = true := by
      rw [trimmed]
      dsimp only
      split
      · exact ⟨[], (List.append_nil _).symm, by simp⟩
      · exact Text.exists_eq_trimEnd_append l.text
    have hlength : (l.trimmed.text.takeWhile isBlank).length ≠ l.trimmed.text.length := by
      intro hlength
      have hall : l.trimmed.text.takeWhile isBlank = l.trimmed.text :=
        (List.takeWhile_prefix isBlank).eq_of_length hlength
      rw [List.isEmpty_iff, ← trim_trimmed, Text.trim_eq_nil_iff] at hne
      exact hne (List.takeWhile_eq_self_iff.mp hall)
    rw [hu, List.takeWhile_append, if_neg hlength]
  rw [indentation?, trim_trimmed, indentation?]
  split
  · rename_i h
    exact (if_pos h).symm
  · rename_i h
    rw [hstart (fun hempty ↦ h (by simp [hempty]))]
    exact (if_neg h).symm

theorem shift_trimmed (l : RawLine) (width : Nat) : l.trimmed.shift width = l.shift width := by
  rw [shift, shift, trimmed]
  cases hends : l.endsInLiteral with
  | true => simp
  | false => simp

end RawLine

/-- The lines from the first to the last that is not blank, moved to the left together. -/
def outdented (ls : List RawLine) : List BodyLine :=
  (withoutBlankEnds ls).map fun l ↦
    l.shift ((((withoutBlankEnds ls).filterMap indentation?).min?).getD 0)

theorem reindent_eq (t : Text) : reindent t = outdented (rawLines t) := rfl

theorem withoutBlankEnds_map {f : RawLine → RawLine} {ls : List RawLine}
    (h : ∀ l ∈ ls, (f l).isBlankLine = l.isBlankLine) :
    withoutBlankEnds (ls.map f) = (withoutBlankEnds ls).map f := by
  have hdrop : ∀ {ls : List RawLine}, (∀ l ∈ ls, (f l).isBlankLine = l.isBlankLine) →
      (ls.map f).dropWhile isBlankLine = (ls.dropWhile isBlankLine).map f := by
    intro ls h
    induction ls with
    | nil => rfl
    | cons l ls ih =>
      rw [List.forall_mem_cons] at h
      rw [List.map_cons, List.dropWhile_cons, List.dropWhile_cons, h.1]
      split
      · exact ih h.2
      · rfl
  have hsub : ∀ l ∈ (ls.dropWhile isBlankLine).reverse,
      (f l).isBlankLine = l.isBlankLine := fun l hl ↦
    h l ((List.dropWhile_suffix _).subset (List.mem_reverse.mp hl))
  rw [withoutBlankEnds, withoutBlankEnds, hdrop h, ← List.map_reverse, hdrop hsub,
    List.map_reverse]

/-- Blanks at the end of a line do not matter. -/
theorem outdented_map_trimmed (ls : List RawLine) :
    outdented (ls.map trimmed) = outdented ls := by
  have hindent : indentation? ∘ trimmed = indentation? :=
    funext indentation?_trimmed
  rw [outdented, outdented, withoutBlankEnds_map fun l _ ↦ l.isBlankLine_trimmed, List.map_map,
    List.filterMap_map, hindent]
  exact List.map_congr_left fun l _ ↦ l.shift_trimmed _

theorem withoutBlankEnds_append {A B C : List RawLine} (hA : ∀ l ∈ A, l.isBlankLine = true)
    (hC : ∀ l ∈ C, l.isBlankLine = true) :
    withoutBlankEnds (A ++ B ++ C) = withoutBlankEnds B := by
  have hA' : A.dropWhile isBlankLine = [] := List.dropWhile_eq_nil_iff.mpr hA
  have hC' : C.dropWhile isBlankLine = [] := List.dropWhile_eq_nil_iff.mpr hC
  have hC'' : C.reverse.dropWhile isBlankLine = [] :=
    List.dropWhile_eq_nil_iff.mpr fun l hl ↦ hC l (List.mem_reverse.mp hl)
  rw [withoutBlankEnds, withoutBlankEnds, List.append_assoc, List.dropWhile_append, hA',
    List.isEmpty_nil, if_pos rfl, List.dropWhile_append]
  by_cases hB : B.dropWhile isBlankLine = []
  · rw [hB, List.isEmpty_nil, if_pos rfl, hC']
  · rw [if_neg (by simpa using hB), List.reverse_append, List.dropWhile_append, hC'',
      List.isEmpty_nil, if_pos rfl]

theorem outdented_append {A B C : List RawLine} (hA : ∀ l ∈ A, l.isBlankLine = true)
    (hC : ∀ l ∈ C, l.isBlankLine = true) : outdented (A ++ B ++ C) = outdented B := by
  rw [outdented, outdented, withoutBlankEnds_append hA hC]

theorem exists_eq_withoutBlankEnds (ls : List RawLine) :
    ∃ A C, ls = A ++ withoutBlankEnds ls ++ C ∧ (∀ l ∈ A, l.isBlankLine = true) ∧
      ∀ l ∈ C, l.isBlankLine = true := by
  refine ⟨ls.takeWhile isBlankLine,
    ((ls.dropWhile isBlankLine).reverse.takeWhile isBlankLine).reverse, ?_, ?_, ?_⟩
  · rw [withoutBlankEnds, List.append_assoc, ← List.reverse_append,
      List.takeWhile_append_dropWhile, List.reverse_reverse, List.takeWhile_append_dropWhile]
  · exact fun l hl ↦ List.mem_takeWhile_imp hl
  · exact fun l hl ↦ List.mem_takeWhile_imp (List.mem_reverse.mp hl)

theorem withoutBlankEnds_idempotent (ls : List RawLine) :
    withoutBlankEnds (withoutBlankEnds ls) = withoutBlankEnds ls := by
  obtain ⟨A, C, hls, hA, hC⟩ := exists_eq_withoutBlankEnds ls
  have h := withoutBlankEnds_append (B := withoutBlankEnds ls) hA hC
  rwa [← hls, eq_comm] at h

/-! ## Tidy lines -/

namespace RawLine

variable {l : RawLine} {indent a v : Text} {common : Nat} {c : Char}

/-- The line has no blanks at its end, unless they are part of a literal. -/
structure Tidy (l : RawLine) : Prop where
  trimEnd : l.endsInLiteral = false → Text.trimEnd l.text = l.text
  dropReturn : Text.dropReturn l.text = l.text
  /-- A line of blanks is empty. -/
  blank : l.startsInLiteral = false → Text.trim l.text = [] → l.text = []

/-- The line is tidy, except that it may end with a carriage return in a literal. -/
structure Neat (l : RawLine) : Prop where
  trimEnd : l.endsInLiteral = false → Text.trimEnd l.text = l.text
  blank : l.startsInLiteral = false → Text.trim l.text = [] → l.text = []

theorem Tidy.neat (h : l.Tidy) : l.Neat := ⟨h.trimEnd, h.blank⟩

/-- A line that may be moved is empty, or has something behind its blanks. -/
theorem Neat.shape (h : l.Neat) (hfixed : l.startsInLiteral = false) :
    l.text = [] ∨ ∃ a c v, l.text = a ++ c :: v ∧ (∀ d ∈ a, isBlank d = true) ∧
      isBlank c = false := by
  cases hrest : l.text.dropWhile isBlank with
  | nil =>
    rw [List.dropWhile_eq_nil_iff] at hrest
    exact .inl (h.blank hfixed (Text.trim_eq_nil_iff.mpr hrest))
  | cons c v =>
    refine .inr ⟨l.text.takeWhile isBlank, c, v, ?_, fun d hd ↦ List.mem_takeWhile_imp hd, ?_⟩
    · rw [← hrest, List.takeWhile_append_dropWhile]
    · have hhead := List.head_dropWhile_not isBlank (l := l.text) (by simp [hrest])
      simpa [hrest] using hhead

theorem indentation?_eq_some (hfixed : l.startsInLiteral = false) (htext : l.text = a ++ c :: v)
    (ha : ∀ d ∈ a, isBlank d = true) (hc : isBlank c = false) :
    l.indentation? = some a.length := by
  have htrim : ¬Text.trim l.text = [] := by
    intro htrim
    rw [Text.trim_eq_nil_iff, htext] at htrim
    have hblank := htrim c (by simp)
    rw [hc] at hblank
    exact Bool.noConfusion hblank
  have htake : l.text.takeWhile isBlank = a := by
    rw [htext, List.takeWhile_append_of_pos ha, List.takeWhile_cons_of_neg (by simp [hc]),
      List.append_nil]
  rw [indentation?, if_neg (by simp [hfixed, htrim]), htake]

theorem indentation?_of_fixed (hfixed : l.startsInLiteral = true) : l.indentation? = none := by
  rw [indentation?, hfixed, Bool.true_or, if_pos rfl]

theorem indentation?_of_empty (htext : l.text = []) : l.indentation? = none := by
  rw [indentation?, htext]
  exact if_pos (Bool.or_true _)

/-! ## Moving lines -/

/-- The line with an indentation in place of its first characters. A line that starts inside a
literal stays as it is, and one that is empty then is not indented. -/
def moved (indent : Text) (common : Nat) (l : RawLine) : RawLine :=
  { l with
    text :=
      if l.startsInLiteral then l.text
      else if (l.text.drop common).isEmpty then []
      else indent ++ l.text.drop common }

theorem moved_of_fixed (hfixed : l.startsInLiteral = true) : l.moved indent common = l := by
  rw [moved, if_pos hfixed]

theorem moved_of_empty (htext : l.text = []) : l.moved indent common = l := by
  obtain ⟨text, starts, ends⟩ := l
  obtain rfl : text = [] := htext
  simp [moved]

/-- Of the blanks of a line those that all lines have are replaced by the indentation. -/
theorem text_moved (hfixed : l.startsInLiteral = false) (htext : l.text = a ++ c :: v)
    (hcommon : common ≤ a.length) :
    (l.moved indent common).text = (indent ++ a.drop common) ++ c :: v := by
  have hdrop : l.text.drop common = a.drop common ++ c :: v := by
    rw [htext, List.drop_append_of_le_length hcommon]
  rw [moved]
  simp [hfixed, hdrop]

theorem mem_or_mem_of_mem_moved (h : c ∈ (l.moved indent common).text) :
    c ∈ indent ∨ c ∈ l.text := by
  rw [moved] at h
  dsimp only at h
  split at h
  · exact .inr h
  split at h
  · exact absurd h List.not_mem_nil
  · exact (List.mem_append.mp h).imp_right List.mem_of_mem_drop

section Moving

variable (hl : l.Neat) (hcommon : ∀ k ∈ l.indentation?, common ≤ k)

include hl hcommon

/-- A line that is moved is fixed or empty, and stays as it is, or has other blanks at its start. -/
theorem Neat.moved_shape (indent : Text) :
    ((l.startsInLiteral = true ∨ l.text = []) ∧ l.moved indent common = l) ∨
      l.startsInLiteral = false ∧ ∃ a c v, l.text = a ++ c :: v ∧ common ≤ a.length ∧
        (∀ d ∈ a, isBlank d = true) ∧ isBlank c = false ∧
        (l.moved indent common).text = (indent ++ a.drop common) ++ c :: v := by
  cases hfixed : l.startsInLiteral with
  | true => exact .inl ⟨.inl rfl, moved_of_fixed hfixed⟩
  | false =>
    rcases hl.shape hfixed with htext | ⟨a, c, v, htext, ha, hc⟩
    · exact .inl ⟨.inr htext, moved_of_empty htext⟩
    · have hle : common ≤ a.length := hcommon _ (indentation?_eq_some hfixed htext ha hc)
      exact .inr ⟨rfl, a, c, v, htext, hle, ha, hc, text_moved hfixed htext hle⟩

theorem Neat.exists_eq_append (hindent : ∀ d ∈ indent, isBlank d = true) :
    ∃ a a' u, l.text = a ++ u ∧ (l.moved indent common).text = a' ++ u ∧
      (∀ d ∈ a, isBlank d = true) ∧ (∀ d ∈ a', isBlank d = true) ∧
      (l.startsInLiteral = true → a = [] ∧ a' = []) := by
  rcases hl.moved_shape hcommon indent with ⟨-, hmoved⟩ | ⟨hfixed, a, c, v, htext, -, ha, -, hmoved⟩
  · exact ⟨[], [], l.text, rfl, by rw [hmoved]; rfl, by simp, by simp, fun _ ↦ ⟨rfl, rfl⟩⟩
  · refine ⟨a, _, c :: v, htext, hmoved, ha, fun d hd ↦ ?_, fun h ↦ ?_⟩
    · rcases List.mem_append.mp hd with hd | hd
      · exact hindent d hd
      · exact ha d (List.mem_of_mem_drop hd)
    · rw [hfixed] at h
      exact Bool.noConfusion h

theorem Neat.getLast?_moved (indent : Text) :
    (l.moved indent common).text.getLast? = l.text.getLast? := by
  rcases hl.moved_shape hcommon indent with ⟨-, hmoved⟩ | ⟨-, a, c, v, htext, -, -, -, hmoved⟩
  · rw [hmoved]
  · rw [hmoved, htext, List.getLast?_append_of_ne_nil _ (by simp),
      List.getLast?_append_of_ne_nil _ (by simp)]

theorem Neat.moved (indent : Text) : (l.moved indent common).Neat := by
  have hlast := hl.getLast?_moved hcommon indent
  rcases hl.moved_shape hcommon indent with ⟨-, hmoved⟩ | ⟨-, a, c, v, htext, -, -, hc, hmoved⟩
  · rwa [hmoved]
  · refine ⟨fun hends ↦ ?_, fun _ htrim ↦ ?_⟩
    · refine Text.trimEnd_eq_self ?_
      rw [hlast]
      exact Text.isBlank_getLast?_of_trimEnd_eq_self (hl.trimEnd hends)
    · rw [Text.trim_eq_nil_iff, hmoved] at htrim
      have hblank := htrim c (by simp)
      rw [hc] at hblank
      exact Bool.noConfusion hblank

theorem Neat.isBlankLine_moved : (l.moved indent common).isBlankLine = l.isBlankLine := by
  rcases hl.moved_shape hcommon indent with
    ⟨-, hmoved⟩ | ⟨-, a, c, v, htext, -, -, hc, hmoved⟩
  · rw [hmoved]
  · have hne : ∀ {b : Text}, (Text.trim (b ++ c :: v)).isEmpty = false := by
      intro b
      rw [List.isEmpty_eq_false_iff, Ne, Text.trim_eq_nil_iff]
      intro htrim
      have hblank := htrim c (by simp)
      rw [hc] at hblank
      exact Bool.noConfusion hblank
    rw [isBlankLine, isBlankLine, hmoved, htext, hne, hne, Bool.and_false, Bool.and_false]

theorem Neat.indentation?_moved (hindent : ∀ d ∈ indent, isBlank d = true) :
    (l.moved indent common).indentation? =
      l.indentation?.map fun k ↦ indent.length + (k - common) := by
  rcases hl.moved_shape hcommon indent with
    ⟨hl' | hl', hmoved⟩ | ⟨hfixed, a, c, v, htext, -, ha, hc, hmoved⟩
  · rw [hmoved, indentation?_of_fixed hl']
    rfl
  · rw [hmoved, indentation?_of_empty hl']
    rfl
  · have hblank : ∀ d ∈ indent ++ a.drop common, isBlank d = true := by
      intro d hd
      rcases List.mem_append.mp hd with hd | hd
      · exact hindent d hd
      · exact ha d (List.mem_of_mem_drop hd)
    have hfixed' : (l.moved indent common).startsInLiteral = false := hfixed
    rw [indentation?_eq_some hfixed htext ha hc, indentation?_eq_some hfixed' hmoved hblank hc,
      List.length_append, List.length_drop, Option.map_some]

end Moving

theorem Tidy.moved (hl : l.Tidy) (hcommon : ∀ k ∈ l.indentation?, common ≤ k) (indent : Text) :
    (l.moved indent common).Tidy := by
  have hneat := hl.neat.moved hcommon indent
  refine ⟨hneat.trimEnd, ?_, hneat.blank⟩
  rw [Text.dropReturn_eq_self_iff, hl.neat.getLast?_moved hcommon, ← Text.dropReturn_eq_self_iff]
  exact hl.dropReturn

theorem Neat.shift_eq (hl : l.Neat) (width : Nat) :
    l.shift width =
      if l.startsInLiteral then ⟨l.text, true⟩ else ⟨l.text.drop width, false⟩ := by
  rw [shift]
  cases hends : l.endsInLiteral with
  | true => rfl
  | false => simp [hl.trimEnd hends]

theorem Tidy.trimmed_append (hl : l.Tidy) {r : Text} (hr : r = [] ∨ r = ['\r']) :
    trimmed ⟨Text.dropReturn (l.text ++ r), l.startsInLiteral, l.endsInLiteral⟩ = l := by
  have hreturn : Text.dropReturn (l.text ++ r) = l.text := by
    rcases hr with rfl | rfl
    · rw [List.append_nil, hl.dropReturn]
    · exact Text.dropReturn_append_return l.text
  rw [trimmed, hreturn]
  cases hends : l.endsInLiteral with
  | true => simp [← hends]
  | false => simp [hl.trimEnd hends, ← hends]

theorem Neat.shift_congr (hl : l.Neat) (h : l.startsInLiteral = true ∨ l.text = [])
    (width width' : Nat) : l.shift width = l.shift width' := by
  rw [hl.shift_eq, hl.shift_eq]
  rcases h with h | h
  · rw [if_pos h, if_pos h]
  · rw [h, List.drop_nil, List.drop_nil]

/-- The indentation is what a moved line loses. -/
theorem Neat.shift_moved (hl : l.Neat) (hcommon : ∀ k ∈ l.indentation?, common ≤ k) :
    (l.moved indent common).shift indent.length = l.shift common := by
  have hl' := hl.moved hcommon indent
  rcases hl.moved_shape hcommon indent with
    ⟨h, hmoved⟩ | ⟨hfixed, a, c, v, htext, hle, -, -, hmoved⟩
  · rw [hmoved, hl.shift_congr h]
  · have hfixed' : (l.moved indent common).startsInLiteral = false := hfixed
    rw [hl'.shift_eq, hl.shift_eq, hfixed, hfixed', hmoved, htext, List.append_assoc,
      List.drop_left, List.drop_append_of_le_length hle]
    rfl

end RawLine

/-- If each number is counted from the least one, that becomes the start. -/
theorem min?_map_add_sub {ks : List Nat} {k : Nat} (h : ks.min? = some k) (n : Nat) :
    (ks.map fun j ↦ n + (j - k)).min? = some n := by
  rw [List.min?_eq_some_iff] at h ⊢
  constructor
  · exact List.mem_map.mpr ⟨k, h.1, by simp⟩
  · intro b hb
    obtain ⟨j, -, rfl⟩ := List.mem_map.mp hb
    exact Nat.le_add_right n _

theorem le_indentation? {ls : List RawLine} {common : Nat}
    (hcommon : common = ((ls.filterMap indentation?).min?).getD 0) :
    ∀ l ∈ ls, ∀ k ∈ l.indentation?, common ≤ k := by
  intro l hl k hk
  have hmem : k ∈ ls.filterMap indentation? := List.mem_filterMap.mpr ⟨l, hl, hk⟩
  obtain ⟨j, hj⟩ := Option.isSome_iff_exists.mp (List.isSome_min?_of_mem hmem)
  rw [hcommon, hj, Option.getD_some]
  exact (List.min?_eq_some_iff.mp hj).2 k hmem

/-- The lines of a body stay the same when all of them are moved behind an indentation. -/
theorem outdented_moved {ls : List RawLine} {indent : Text} {common : Nat}
    (hls : ∀ l ∈ ls, l.Neat) (hindent : ∀ d ∈ indent, isBlank d = true)
    (hends : withoutBlankEnds ls = ls)
    (hcommon : common = ((ls.filterMap indentation?).min?).getD 0) :
    outdented (ls.map (moved indent common)) = outdented ls := by
  have hle := le_indentation? hcommon
  have hindents : ls.filterMap (indentation? ∘ moved indent common) =
      (ls.filterMap indentation?).map fun k ↦ indent.length + (k - common) := by
    rw [List.map_filterMap]
    exact List.filterMap_congr fun l hl ↦ (hls l hl).indentation?_moved (hle l hl) hindent
  rw [outdented, outdented, withoutBlankEnds_map fun l hl ↦ (hls l hl).isBlankLine_moved (hle l hl),
    hends, List.map_map, List.filterMap_map, ← hcommon, hindents]
  refine List.map_congr_left fun l hl ↦ ?_
  rw [Function.comp_apply]
  rcases (hls l hl).moved_shape (hle l hl) indent with
    ⟨h, hmoved⟩ | ⟨hfixed, a, c, v, htext, -, ha, hc, -⟩
  · rw [hmoved]
    exact (hls l hl).shift_congr h _ _
  · -- Some line has an indentation, so the least one is moved to the new indentation.
    have hmem : a.length ∈ ls.filterMap indentation? :=
      List.mem_filterMap.mpr ⟨l, hl, indentation?_eq_some hfixed htext ha hc⟩
    obtain ⟨k, hk⟩ := Option.isSome_iff_exists.mp (List.isSome_min?_of_mem hmem)
    obtain rfl : common = k := by rw [hcommon, hk, Option.getD_some]
    rw [min?_map_add_sub hk, Option.getD_some]
    exact (hls l hl).shift_moved (hle l hl)

end SharpOutline
