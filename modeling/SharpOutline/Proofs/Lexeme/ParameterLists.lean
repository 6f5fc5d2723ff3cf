import SharpOutline.Proofs.Lexeme.Closers

/-!
# Trimmed parameter lists

The parameters of a declaration are kept as they were read and are written without the blanks at
either end. Those blanks leave no trace but one: a line break at the end may be what ended a line
comment, and without it the closing parenthesis becomes part of the comment. So a trimmed parameter
list is read back if and only if it does not end inside a line comment
(`Reading.yields_trim_iff`).

A text in brackets is read up to its end if it is balanced and the bracket behind it is code
(`bracketed_append_iff`). The labels of a text do not depend on what stands around it, as long as
nothing in it is looked at together with that (`Scanner.Apart`), and blanks are no brackets; so a
balanced text stays balanced when it is trimmed, and the only question is whether the parenthesis
behind it is code.
-/

namespace SharpOutline

theorem Text.exists_eq_append_trim (t : Text) :
    ∃ a z, t = a ++ (Text.trim t ++ z) ∧ (∀ c ∈ a, isBlank c = true) ∧
      ∀ c ∈ z, isBlank c = true := by
  obtain ⟨z, hz, hblank⟩ := Text.exists_eq_trimEnd_append t
  refine ⟨(Text.trimEnd t).takeWhile isBlank, z, ?_, fun c hc ↦ List.mem_takeWhile_imp hc, hblank⟩
  rw [Text.trim, Text.trimStart, ← List.append_assoc, List.takeWhile_append_dropWhile, ← hz]

/-! ## Labels of parts of a text -/

namespace Scanner

variable {s s' : Scanner} {c : Char} {u v : Text} {n : Nat}

/-- The last character of the first text is not looked at together with the second one. -/
def Apart (u v : Text) : Prop :=
  ∀ c ∈ u.getLast?, ∀ s : Scanner, s.step c (ahead v) = s.step c endMark

theorem isInert_endMark : isInert endMark = true := by decide

theorem apart_of_isInert (hv : isInert (ahead v) = true) : Apart u v :=
  fun _ _ _ ↦ step_of_isInert hv isInert_endMark

theorem apart_of_blank (hu : ∀ c ∈ u, isBlank c = true) : Apart u v :=
  fun c hc s ↦ step_blank_next s _ _ (hu c (List.mem_of_mem_getLast? hc))

theorem isInert_ahead_of_blank (hv : ∀ c ∈ v, isBlank c = true) : isInert (ahead v) = true :=
  isInert_headD hv isInert_endMark

theorem Apart.step (h : Apart (c :: u) v) : s.step c (ahead (u ++ v)) = s.step c (ahead u) := by
  cases u with
  | nil => exact h c rfl s
  | cons d u => rfl

theorem Apart.tail (h : Apart (c :: u) v) : Apart u v := by
  cases u with
  | nil => exact fun d hd ↦ absurd hd (by simp)
  | cons d u => exact h

theorem labelled_append (h : Apart u v) :
    s.labelled (u ++ v) = s.labelled u ++ (s.after u).labelled v := by
  induction u generalizing s with
  | nil => rfl
  | cons c u ih =>
    rw [List.cons_append, labelled_cons, labelled_cons, h.step, ih h.tail, List.cons_append, after]

theorem after_append (h : Apart u v) : s.after (u ++ v) = (s.after u).after v := by
  induction u generalizing s with
  | nil => rfl
  | cons c u ih => rw [List.cons_append, after, h.step, ih h.tail, after]

theorem Alike.labelled (h : Alike s s') (t : Text) : s'.labelled t = s.labelled t := by
  induction t generalizing s s' with
  | nil => rfl
  | cons c t ih =>
    obtain ⟨hstate, hclass⟩ := h.step c (ahead t)
    rw [labelled_cons, labelled_cons, hclass, ih hstate]

theorem Alike.after (h : Alike s s') (t : Text) : Alike (s.after t) (s'.after t) := by
  induction t generalizing s s' with
  | nil => exact h
  | cons c t ih => exact ih (h.step c (ahead t)).1

theorem codeCount_append_of_le (h : Apart u v) (hn : n ≤ u.length) :
    s.codeCount c (u ++ v) n = s.codeCount c u n := by
  rw [codeCount, codeCount, labelled_append h, List.take_append_of_le_length (by simpa using hn)]

theorem codeCount_append (h : Apart u v) :
    s.codeCount c (u ++ v) (u.length + n) =
      s.codeCount c u u.length + (s.after u).codeCount c v n := by
  have hall : ∀ m, (s.labelled u).take (u.length + m) = s.labelled u := fun m ↦
    List.take_of_length_le (by simp)
  rw [codeCount, labelled_append h, List.take_append, List.count_append, length_labelled,
    Nat.add_sub_cancel_left, hall, codeCount, ← Nat.add_zero u.length, hall, codeCount]

theorem codeCount_of_notMem (h : c ∉ u) : s.codeCount c u n = 0 := by
  rw [codeCount, List.count_eq_zero]
  exact fun hmem ↦ h (List.of_mem_zip (List.mem_of_mem_take hmem)).1

end Scanner

open Scanner

variable {opener closer : Char} {s s' : Scanner} {depth n : Nat} {u v rest : Text}

theorem closesAt_append_of_lt (h : Apart u v) (hn : n < u.length) :
    ClosesAt opener closer s depth (u ++ v) n ↔ ClosesAt opener closer s depth u n := by
  rw [closesAt_iff, closesAt_iff, codeCount_append_of_le h (Nat.le_of_lt hn),
    codeCount_append_of_le h (Nat.le_of_lt hn), labelled_append h,
    List.getElem?_append_left (by simpa using hn)]

/-- A text closes behind a part of it where the rest of it closes, unless the part has brackets. -/
theorem closesAt_append_of_notMem (h : Apart u v) (hopener : opener ∉ u) (hcloser : closer ∉ u) :
    ClosesAt opener closer s depth (u ++ v) (u.length + n) ↔
      ClosesAt opener closer (s.after u) depth v n := by
  rw [closesAt_iff, closesAt_iff, codeCount_append h, codeCount_append h,
    codeCount_of_notMem hopener, codeCount_of_notMem hcloser, labelled_append h,
    List.getElem?_append_right (by simp), length_labelled, Nat.add_sub_cancel_left, Nat.zero_add,
    Nat.zero_add]

theorem closesAt_length_iff (hinert : isInert closer = true) :
    ClosesAt opener closer s depth (u ++ closer :: rest) u.length ↔
      depth + s.codeCount opener u u.length = s.codeCount closer u u.length ∧
        ((s.after u).step closer (ahead rest)).2 = .code := by
  have hapart : Apart u (closer :: rest) := apart_of_isInert hinert
  rw [closesAt_iff, codeCount_append_of_le hapart (Nat.le_refl _),
    codeCount_append_of_le hapart (Nat.le_refl _), labelled_append hapart,
    List.getElem?_append_right (by simp), length_labelled, Nat.sub_self, labelled_cons,
    List.getElem?_cons_zero, Option.some.injEq, Prod.mk.injEq, and_comm]
  simp

/-! ## Balanced texts -/

/-- The text does not close anywhere, and at its end no level is open. -/
structure Balanced (opener closer : Char) (s : Scanner) (u : Text) : Prop where
  not_closes : ∀ n, ¬ClosesAt opener closer s 0 u n
  level : s.codeCount opener u u.length = s.codeCount closer u u.length

/-- A text in brackets is read up to its end if it is balanced and the bracket behind it is code. -/
theorem bracketed_append_iff (hne : opener ≠ closer) (hinert : isInert closer = true) :
    bracketed opener closer (u ++ closer :: rest) = some u ↔
      Balanced opener closer {} u ∧
        ((after {} u).step closer (ahead rest)).2 = .code := by
  have hapart : Apart u (closer :: rest) := apart_of_isInert hinert
  rw [bracketed, bracketedFrom_eq_some_iff_isLeast hne]
  constructor
  · rintro ⟨n, ⟨hn, hleast⟩, htake⟩
    obtain rfl : n = u.length := by
      have hlength := congrArg List.length htake
      rw [List.length_take_of_le (Nat.le_of_lt hn.lt_length)] at hlength
      exact hlength
    obtain ⟨hlevel, hcode⟩ := (closesAt_length_iff hinert).mp hn
    refine ⟨⟨fun n hn ↦ ?_, by rw [← hlevel, Nat.zero_add]⟩, hcode⟩
    have hlt := hn.lt_length
    exact absurd hlt (Nat.not_lt.mpr (hleast ((closesAt_append_of_lt hapart hlt).mpr hn)))
  · rintro ⟨hbalanced, hcode⟩
    refine ⟨u.length, ⟨?_, fun n hn ↦ ?_⟩, List.take_left⟩
    · exact (closesAt_length_iff hinert).mpr ⟨by rw [Nat.zero_add, hbalanced.level], hcode⟩
    · refine Nat.not_lt.mp fun hlt ↦ hbalanced.not_closes n ?_
      exact (closesAt_append_of_lt hapart hlt).mp hn

namespace Balanced

theorem of_alike (h : Alike s s') (hu : Balanced opener closer s u) :
    Balanced opener closer s' u := by
  have hcount : ∀ c n, s'.codeCount c u n = s.codeCount c u n := fun c n ↦ by
    rw [codeCount, codeCount, h.labelled]
  refine ⟨fun n hn ↦ hu.not_closes n ⟨?_, ?_⟩, by rw [hcount, hcount, hu.level]⟩
  · rw [← h.labelled, hn.label]
  · rw [← hcount, ← hcount, hn.level]

theorem of_append_left (h : Apart u v) (hopener : opener ∉ u) (hcloser : closer ∉ u)
    (hbalanced : Balanced opener closer s (u ++ v)) : Balanced opener closer (s.after u) v := by
  refine ⟨fun n hn ↦ hbalanced.not_closes _
    ((closesAt_append_of_notMem h hopener hcloser).mpr hn), ?_⟩
  have hlevel := hbalanced.level
  rwa [List.length_append, codeCount_append h, codeCount_append h, codeCount_of_notMem hopener,
    codeCount_of_notMem hcloser, Nat.zero_add, Nat.zero_add] at hlevel

theorem of_append_right (h : Apart u v) (hopener : opener ∉ v) (hcloser : closer ∉ v)
    (hbalanced : Balanced opener closer s (u ++ v)) : Balanced opener closer s u := by
  refine ⟨fun n hn ↦ hbalanced.not_closes n ((closesAt_append_of_lt h hn.lt_length).mpr hn), ?_⟩
  have hlevel := hbalanced.level
  rwa [List.length_append, codeCount_append h, codeCount_append h, codeCount_of_notMem hopener,
    codeCount_of_notMem hcloser] at hlevel

end Balanced

/-! ## Blanks around a text -/

theorem Walk.scanner_pass (x : Walk) (t : Text) :
    (x.pass endMark t).scanner = x.scanner.after t := by
  induction t generalizing x with
  | nil => rfl
  | cons c t ih => exact ih _

namespace Scanner

theorem alike_after_blanks {a : Text} (ha : ∀ c ∈ a, isBlank c = true) :
    Alike {} (after {} a) := by
  have halike := (Walk.alike_blanks (n := endMark) ha Walk.ready_start rfl).scanner
  rwa [Walk.scanner_pass] at halike

theorem pending_after (hs : s.pending = none) (t : Text) : (s.after t).pending = none := by
  rw [← Walk.scanner_pass ⟨s, none⟩ t]
  exact Walk.pending_pass hs isInert_endMark

/-- Blanks lead to code only from code, or from a line comment that they end. -/
theorem inCode_or_lineComment {z : Text} (hz : ∀ c ∈ z, isBlank c = true) (hs : s.pending = none)
    (h : (s.after z).inCode = true) : s.inCode = true ∨ s.mode = .lineComment := by
  induction z generalizing s with
  | nil => exact .inl h
  | cons c z ih =>
    rw [after, step_blank (hz c List.mem_cons_self) hs] at h
    have hlater := ih (fun d hd ↦ hz d (List.mem_cons_of_mem c hd))
      ((pending_afterBlank s c).trans hs) h
    obtain ⟨mode, last, beforeLast, escaped, pending, holes⟩ := s
    cases mode with
    | lineComment => exact .inr rfl
    | _ => exact hlater

/-- A closing parenthesis is code only where the scanner stands in code. -/
theorem step_parenthesis_eq_code_iff (hs : s.pending = none) :
    (s.step ')' c).2 = .code ↔ s.inCode = true := by
  obtain ⟨mode, last, beforeLast, escaped, pending, holes⟩ := s
  obtain rfl : pending = none := hs
  cases holes with
  | cons h holes => simp [step, inCode]
  | nil => cases mode <;> simp [step, stepInner, stepCode, remember, inCode]

end Scanner

/-! ## Parameter lists -/

def endsInLineComment (t : Text) : Bool := (after {} t).mode == .lineComment

/-- A parameter list is balanced without the blanks around it, and then ends in code unless it ends
inside a line comment. -/
theorem balanced_trim {t p : Text} (h : bracketed '(' ')' t = some p) :
    Balanced '(' ')' {} (Text.trim p) ∧
      ((after {} (Text.trim p)).inCode = true ∨ endsInLineComment (Text.trim p) = true) := by
  obtain ⟨rest, rfl⟩ := bracketed_eq_some h
  obtain ⟨hbalanced, hcode⟩ := (bracketed_append_iff (by decide) (by decide)).mp h
  rw [step_parenthesis_eq_code_iff (pending_after rfl p)] at hcode
  obtain ⟨a, z, hp, ha, hz⟩ := Text.exists_eq_append_trim p
  have hparenthesis : ∀ {v : Text} {c : Char}, (∀ d ∈ v, isBlank d = true) → isBlank c = false →
      c ∉ v := fun hv hc hmem ↦ ne_of_isBlank (hv _ hmem) hc rfl
  have hstart : Apart a (Text.trim p ++ z) := apart_of_blank ha
  have hend : Apart (Text.trim p) z := apart_of_isInert (isInert_ahead_of_blank hz)
  generalize Text.trim p = u at *
  subst hp
  have halike := (alike_after_blanks ha).symm
  constructor
  · have hu := hbalanced.of_append_left hstart (hparenthesis ha (by decide))
      (hparenthesis ha (by decide))
    exact (hu.of_alike halike).of_append_right hend (hparenthesis hz (by decide))
      (hparenthesis hz (by decide))
  · -- The blanks at the start do not matter, and those at the end lead to code.
    rw [after_append hstart, ← (halike.after _).inCode, after_append hend] at hcode
    rw [endsInLineComment, beq_iff_eq]
    exact inCode_or_lineComment hz (pending_after rfl u) hcode

/-! ## Reading back -/

namespace Reading

/-- **Written parameter lists are read back** unless they end inside a line comment. Let `p` be what
was read up to a closing parenthesis. In front of another one and any text, the trimmed `p` is read
up to there if and only if it does not end inside a line comment; if it does, the parenthesis
belongs to the comment, and whatever is read then goes beyond it. -/
theorem yields_trim_iff (cur cur' : Cursor) (p : Text)
    (h : delimited '(' ')' false false cur = .ok p cur') (rest : Text) :
    ((delimited '(' ')' false false).Yields (Text.trim p ++ ')' :: rest) (Text.trim p) rest ↔
        endsInLineComment (Text.trim p) = false) ∧
      (endsInLineComment (Text.trim p) = true → ∀ e q e', e.rest = Text.trim p ++ ')' :: rest →
        delimited '(' ')' false false e = .ok q e' → Text.trim p ++ [')'] <+: q) := by
  obtain ⟨hbalanced, hend⟩ := balanced_trim (delimited_eq_ok_iff.mp h).1
  have hne : '(' ≠ ')' := by decide
  have hinert : isInert ')' = true := by decide
  have hcode : ((after {} (Text.trim p)).step ')' (ahead rest)).2 = .code ↔
      endsInLineComment (Text.trim p) = false := by
    rw [step_parenthesis_eq_code_iff (pending_after rfl _)]
    refine ⟨fun hcode ↦ ?_, fun hcomment ↦ hend.resolve_right (by simp [hcomment])⟩
    simp only [inCode, Bool.and_eq_true, beq_iff_eq] at hcode
    rw [endsInLineComment, hcode.1.1]
    rfl
  generalize Text.trim p = u at *
  constructor
  · rw [yields_delimited_iff, bracketed_append_iff hne hinert, hcode]
    exact and_iff_right hbalanced
  · intro hcomment e q e' hrest he
    rw [delimited_eq_ok_iff, hrest, SharpOutline.bracketed,
      bracketedFrom_eq_some_iff_isLeast hne] at he
    obtain ⟨⟨n, ⟨hn, -⟩, rfl⟩, -⟩ := he
    have hapart : Apart u (')' :: rest) := apart_of_isInert hinert
    have hlt : u.length < n := by
      rcases Nat.lt_trichotomy n u.length with hlt | rfl | hlt
      · exact absurd ((closesAt_append_of_lt hapart hlt).mp hn) (hbalanced.not_closes n)
      · rw [hcode.mp ((closesAt_length_iff hinert).mp hn).2] at hcomment
        exact Bool.noConfusion hcomment
      · exact hlt
    exact List.prefix_take_iff.mpr ⟨⟨rest, by simp⟩, by simpa using Nat.succ_le_of_lt hlt⟩

/-- Parameters with parentheses that do not count, and the rest of a declaration. -/
def parameterSource : Text := " int a, // (\n string b = \")\" /* ) */ ) { }".toList

theorem yields_trim_iff_parameterSource :
    (delimited '(' ')' false false).Yields
      ("int a, // (\n string b = \")\" /* ) */".toList ++ ')' :: " => c;".toList)
      "int a, // (\n string b = \")\" /* ) */".toList " => c;".toList := by
  have hread : delimited '(' ')' false false (Cursor.start parameterSource) =
      .ok (parameterSource.take 37) ((Cursor.start parameterSource).skip 38) :=
    delimited_eq_ok_iff.mpr ⟨by decide +kernel, by decide +kernel⟩
  have hback := yields_trim_iff _ _ _ hread " => c;".toList
  rw [show Text.trim (parameterSource.take 37) = "int a, // (\n string b = \")\" /* ) */".toList
    by decide +kernel] at hback
  exact hback.1.mpr (by decide +kernel)

/-- The line break between a line comment and the closing parenthesis is trimmed. -/
theorem not_forall_yields_trim :
    ¬∀ cur p cur' rest, delimited '(' ')' false false cur = .ok p cur' →
      (delimited '(' ')' false false).Yields (Text.trim p ++ ')' :: rest) (Text.trim p) rest := by
  intro h
  have hread : delimited '(' ')' false false (Cursor.start "int a // x\n)".toList) =
      .ok "int a // x\n".toList ((Cursor.start "int a // x\n)".toList).skip 12) :=
    delimited_eq_ok_iff.mpr ⟨by decide +kernel, by decide +kernel⟩
  have hback := yields_delimited_iff.mp (h _ _ _ [] hread)
  exact absurd hback (by decide +kernel)

end Reading

end SharpOutline
