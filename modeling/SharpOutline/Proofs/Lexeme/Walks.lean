import SharpOutline.Lexeme.Bracketed
import SharpOutline.Proofs.Lexeme.Tokens

/-!
# Walks through a text in braces

A text in braces is read by a walk: the scanner goes from character to character, and the open
braces are counted. The walk ends before the brace that closes the text if and only if it is in code
there and no brace is open (`bracketedFrom_eq_some_iff`).

Blanks hardly matter to a walk. The scanner looks ahead only for characters that are not blank
(`Scanner.step_of_isInert`), and of the characters behind it only the signs of a string count;
states that differ in nothing else are `Scanner.Alike`, and go on alike. So blanks may be put in or
left out at the end of any line, and at the start of a line that does not start inside a literal
(`Walk.alike_margins`).
-/

namespace SharpOutline

theorem ne_of_isBlank {c d : Char} (hc : isBlank c = true) (hd : isBlank d = false) : c ≠ d := by
  rintro rfl
  rw [hc] at hd
  exact Bool.noConfusion hd

theorem ne_signs_of_isBlank {c : Char} (hc : isBlank c = true) : c ≠ '/' ∧ c ≠ '*' ∧ c ≠ '"' ∧
    c ≠ '\x7b' ∧ c ≠ '\x7d' ∧ c ≠ '\'' ∧ c ≠ '\\' := by
  refine ⟨?_, ?_, ?_, ?_, ?_, ?_, ?_⟩ <;> exact ne_of_isBlank hc (by decide)

/-- The scanner does not look ahead for this character. -/
def isInert (c : Char) : Bool := c != '/' && c != '*' && c != '"' && c != '\x7b' && c != '\x7d'

theorem isInert_of_isBlank {c : Char} (h : isBlank c = true) : isInert c = true := by
  obtain ⟨h₁, h₂, h₃, h₄, h₅, -⟩ := ne_signs_of_isBlank h
  simp [isInert, h₁, h₂, h₃, h₄, h₅]

theorem isInert_newline : isInert '\n' = true := by decide

theorem isInert_headD {t : Text} {n : Char} (ht : ∀ c ∈ t, isBlank c = true)
    (hn : isInert n = true) : isInert (t.headD n) = true := by
  cases t with
  | nil => exact hn
  | cons c t => exact isInert_of_isBlank (ht c (by simp))

namespace Scanner

variable {s u : Scanner} {c n n' : Char}

/-! ## Braces in holes -/

@[simp] theorem pending_openBrace (s : Scanner) : s.openBrace.pending = s.pending := by
  rw [openBrace]
  split <;> rfl

@[simp] theorem pending_closeBrace (s : Scanner) : s.closeBrace.pending = s.pending := by
  rw [closeBrace]
  split
  · rfl
  · split <;> rfl

/-! ## Looking ahead -/

/-- Of the next character it matters only which one it is of those that the scanner looks for. -/
theorem step_of_isInert (hn : isInert n = true) (hn' : isInert n' = true) :
    s.step c n = s.step c n' := by
  simp only [isInert, Bool.and_eq_true, bne_iff_ne] at hn hn'
  obtain ⟨⟨⟨⟨h₁, h₂⟩, h₃⟩, h₄⟩, h₅⟩ := hn
  obtain ⟨⟨⟨⟨h₁', h₂'⟩, h₃'⟩, h₄'⟩, h₅'⟩ := hn'
  have hinner : s.stepInner c n = s.stepInner c n' := by
    rw [stepInner, stepInner]
    cases s.pending with
    | some k => rfl
    | none =>
      cases s.mode with
      | code => simp only [stepCode, h₁, h₂, h₁', h₂']
      | lineComment => rfl
      | blockComment => simp only [h₁, h₁']
      | character => rfl
      | string verbatim interpolated =>
        simp only [stepString, h₃, h₃']
        by_cases hc : c = '\x7b' ∨ c = '\x7d'
        · rcases hc with rfl | rfl
          · simp [h₄, h₄']
          · simp [h₅, h₅']
        · have hc : (c == '\x7b' || c == '\x7d') = false := by simpa using hc
          simp [hc]
  rw [step, step, hinner]

/-- Nothing is decided about a character that the scanner does not look for. -/
theorem pending_step (hn : isInert n = true) : (s.step c n).1.pending = none := by
  simp only [isInert, Bool.and_eq_true, bne_iff_ne] at hn
  obtain ⟨⟨⟨⟨h₁, h₂⟩, h₃⟩, h₄⟩, h₅⟩ := hn
  change (s.stepInner c n).1.pending = none
  rw [stepInner]
  cases hp : s.pending with
  | some k => rfl
  | none =>
    cases s.mode with
    | code => grind [stepCode, remember, pending_openBrace, pending_closeBrace]
    | lineComment => grind
    | blockComment => grind
    | character => grind [stepEscaping]
    | string verbatim interpolated => grind [stepString, stepEscaping]

/-- The closing brace is looked for only where a brace of a literal is written twice. -/
theorem step_brace (hn : isInert n = true) (h : (s.step c '\x7d').1.pending = none) :
    s.step c '\x7d' = s.step c n := by
  simp only [isInert, Bool.and_eq_true, bne_iff_ne] at hn
  obtain ⟨⟨⟨⟨h₁, h₂⟩, h₃⟩, h₄⟩, h₅⟩ := hn
  have hinner : s.stepInner c '\x7d' = s.stepInner c n := by
    change (s.stepInner c '\x7d').1.pending = none at h
    rw [stepInner] at h
    rw [stepInner, stepInner]
    cases hp : s.pending with
    | some k => rfl
    | none =>
      rw [hp] at h
      cases hm : s.mode with
      | code => simp [stepCode, h₁, h₂]
      | lineComment => rfl
      | blockComment => simp [h₁]
      | character => rfl
      | string verbatim interpolated =>
        rw [hm] at h
        grind [stepString]
  rw [step, step, hinner]

/-! ## Blanks -/

/-- The state after a blank. -/
def afterBlank (s : Scanner) (c : Char) : Scanner :=
  match s.mode with
  | .code => s.remember c
  | .lineComment => if c = '\n' then { s with mode := .code } else s
  | .blockComment => s
  | .string verbatim _ => { s with escaped := verbatim && s.escaped }
  | .character => { s with escaped := false }

theorem stepEscaping_blank {quote : Char} (hc : c ≠ '\\') (hq : c ≠ quote) :
    s.stepEscaping c quote = { s with escaped := false } := by
  rw [stepEscaping, if_neg hc, if_neg hq]
  obtain ⟨_, _, _, escaped, _, _⟩ := s
  cases escaped <;> rfl

theorem step_blank (hc : isBlank c = true) (hp : s.pending = none) :
    (s.step c n).1 = s.afterBlank c := by
  obtain ⟨h₁, h₂, h₃, h₄, h₅, h₆, h₇⟩ := ne_signs_of_isBlank hc
  change (s.stepInner c n).1 = _
  obtain ⟨mode, last, beforeLast, escaped, pending, holes⟩ := s
  obtain rfl : pending = none := hp
  cases mode with
  | code => simp [stepInner, stepCode, afterBlank, h₁, h₃, h₄, h₅, h₆]
  | lineComment =>
    simp only [stepInner, afterBlank]
    split <;> rfl
  | blockComment => simp [stepInner, afterBlank, h₂]
  | character => exact stepEscaping_blank h₇ h₆
  | string verbatim interpolated =>
    have hbraces : (interpolated && !escaped && (c == '\x7b' || c == '\x7d')) = false := by
      simp [h₄, h₅]
    simp only [stepInner, stepString, hbraces, Bool.false_eq_true, if_false, h₃]
    cases verbatim with
    | true => rfl
    | false => exact stepEscaping_blank h₇ h₃

/-- What follows a blank does not matter. -/
theorem step_blank_next (s : Scanner) (n n' : Char) (hc : isBlank c = true) :
    s.step c n = s.step c n' := by
  obtain ⟨h₁, h₂, h₃, h₄, h₅, -⟩ := ne_signs_of_isBlank hc
  have hinner : s.stepInner c n = s.stepInner c n' := by
    simp [stepInner, stepCode, stepString, h₁, h₂, h₃, h₄, h₅]
  rw [step, step, hinner]

/-! ## States that go on alike -/

/-- What the last two characters mean: whether the last one is a sign of a string, and which kind of
string the next quote opens. -/
def signs (last beforeLast : Char) : Bool × Bool × Bool × Bool :=
  (last == '@', last == '$', last == '@' || (last == '$' && beforeLast == '@'),
    last == '$' || (last == '@' && beforeLast == '$'))

/-- The states differ at most in characters behind them that mean the same. -/
def Alike (s u : Scanner) : Prop :=
  ∃ l b, u = { s with last := l, beforeLast := b } ∧ signs l b = signs s.last s.beforeLast

theorem signs_of_quiet {l b : Char} (h : Quiet l) : signs l b = (false, false, false, false) := by
  simp [signs, h.1, h.2]

/-- Of the character before a new one it matters only which sign it is. -/
theorem signs_of_signs {l b l' b' : Char} (h : signs l b = signs l' b') (c : Char) :
    signs c l = signs c l' := by
  simp only [signs, Prod.mk.injEq] at h ⊢
  rw [h.1, h.2.1]
  exact ⟨trivial, trivial, rfl, rfl⟩

namespace Alike

theorem refl (s : Scanner) : Alike s s := ⟨s.last, s.beforeLast, rfl, rfl⟩

theorem symm (h : Alike s u) : Alike u s := by
  obtain ⟨l, b, rfl, h⟩ := h
  exact ⟨s.last, s.beforeLast, rfl, h.symm⟩

theorem trans {v : Scanner} (h : Alike s u) (h' : Alike u v) : Alike s v := by
  obtain ⟨l, b, rfl, h⟩ := h
  obtain ⟨l', b', rfl, h'⟩ := h'
  exact ⟨l', b', rfl, h'.trans h⟩

theorem mode (h : Alike s u) : u.mode = s.mode := by
  obtain ⟨l, b, rfl, -⟩ := h
  rfl

theorem pending (h : Alike s u) : u.pending = s.pending := by
  obtain ⟨l, b, rfl, -⟩ := h
  rfl

theorem inLiteral (h : Alike s u) : u.inLiteral = s.inLiteral := by
  obtain ⟨l, b, rfl, -⟩ := h
  rfl

theorem inCode (h : Alike s u) : u.inCode = s.inCode := by
  obtain ⟨l, b, rfl, -⟩ := h
  rfl

theorem quiet (h : Alike s u) (hs : Quiet s.last) : Quiet u.last := by
  obtain ⟨l, b, rfl, h⟩ := h
  rw [signs_of_quiet hs] at h
  simp only [signs, Prod.mk.injEq, beq_eq_false_iff_ne] at h
  exact ⟨h.1, h.2.1⟩

theorem remember (h : Alike s u) (c : Char) : Alike (s.remember c) (u.remember c) := by
  obtain ⟨l, b, rfl, h⟩ := h
  exact ⟨c, l, rfl, signs_of_signs h c⟩

theorem openBrace (h : Alike s u) : Alike s.openBrace u.openBrace := by
  obtain ⟨l, b, rfl, h⟩ := h
  rw [Scanner.openBrace, Scanner.openBrace]
  dsimp only
  split
  · exact ⟨l, b, rfl, h⟩
  · exact ⟨l, b, rfl, h⟩

theorem closeBrace (h : Alike s u) : Alike s.closeBrace u.closeBrace := by
  obtain ⟨l, b, rfl, h⟩ := h
  rw [Scanner.closeBrace, Scanner.closeBrace]
  dsimp only
  split
  · exact ⟨l, b, rfl, h⟩
  split
  · exact ⟨l, b, rfl, h⟩
  · exact ⟨l, b, rfl, h⟩

theorem withMode (h : Alike s u) (mode : LexicalMode) :
    Alike { s with mode := mode } { u with mode := mode } := by
  obtain ⟨l, b, rfl, h⟩ := h
  exact ⟨l, b, rfl, h⟩

theorem withPending (h : Alike s u) (pending : Option CharClass) :
    Alike { s with pending := pending } { u with pending := pending } := by
  obtain ⟨l, b, rfl, h⟩ := h
  exact ⟨l, b, rfl, h⟩

theorem stepCode (h : Alike s u) (c n : Char) :
    Alike (s.stepCode c n).1 (u.stepCode c n).1 ∧ (s.stepCode c n).2 = (u.stepCode c n).2 := by
  have hverbatim : (u.last == '@' || (u.last == '$' && u.beforeLast == '@')) =
      (s.last == '@' || (s.last == '$' && s.beforeLast == '@')) := by
    obtain ⟨l, b, rfl, h⟩ := h
    exact congrArg (fun x ↦ x.2.2.1) h
  have hinterpolated : (u.last == '$' || (u.last == '@' && u.beforeLast == '$')) =
      (s.last == '$' || (s.last == '@' && s.beforeLast == '$')) := by
    obtain ⟨l, b, rfl, h⟩ := h
    exact congrArg (fun x ↦ x.2.2.2) h
  rw [Scanner.stepCode, Scanner.stepCode, hverbatim, hinterpolated]
  split
  · exact ⟨((h.withMode _).withPending _).remember c, rfl⟩
  split
  · exact ⟨((h.withMode _).withPending _).remember c, rfl⟩
  split
  · exact ⟨(h.withMode _).remember c, rfl⟩
  split
  · exact ⟨(h.withMode _).remember c, rfl⟩
  split
  · exact ⟨h.openBrace.remember c, rfl⟩
  split
  · exact ⟨h.closeBrace.remember c, rfl⟩
  · exact ⟨h.remember c, rfl⟩

theorem stepEscaping (h : Alike s u) (c quote : Char) :
    Alike (s.stepEscaping c quote) (u.stepEscaping c quote) := by
  obtain ⟨l, b, rfl, h⟩ := h
  rw [Scanner.stepEscaping, Scanner.stepEscaping]
  dsimp only
  split
  · exact ⟨l, b, rfl, h⟩
  split
  · exact ⟨l, b, rfl, h⟩
  split
  · exact ⟨l, b, rfl, h⟩
  · exact ⟨l, b, rfl, h⟩

theorem stepString (h : Alike s u) (verbatim interpolated : Bool) (c n : Char) :
    Alike (s.stepString verbatim interpolated c n) (u.stepString verbatim interpolated c n) := by
  have hescaping := h.stepEscaping c '"'
  obtain ⟨l, b, rfl, h⟩ := h
  rw [Scanner.stepString, Scanner.stepString]
  dsimp only
  split
  · split
    · exact ⟨l, b, rfl, h⟩
    split
    · rename_i hc
      have hquiet : Quiet c := by
        rw [hc]
        exact ⟨by decide, by decide⟩
      exact ⟨c, b, rfl, (signs_of_quiet hquiet).trans (signs_of_quiet hquiet).symm⟩
    · exact ⟨l, b, rfl, h⟩
  split
  · split
    · split
      · exact ⟨l, b, rfl, h⟩
      · exact ⟨l, b, rfl, h⟩
    · exact ⟨l, b, rfl, h⟩
  · exact hescaping

theorem stepInner (h : Alike s u) (c n : Char) :
    Alike (s.stepInner c n).1 (u.stepInner c n).1 ∧
      (s.stepInner c n).2 = (u.stepInner c n).2 := by
  have hcode := h.stepCode c n
  have hescaping := h.stepEscaping c '\''
  have hstring := fun verbatim interpolated ↦ h.stepString verbatim interpolated c n
  obtain ⟨l, b, rfl, h⟩ := h
  rw [Scanner.stepInner, Scanner.stepInner]
  dsimp only
  split
  · exact ⟨⟨l, b, rfl, h⟩, rfl⟩
  split
  · exact hcode
  · split
    · exact ⟨⟨l, b, rfl, h⟩, rfl⟩
    · exact ⟨⟨l, b, rfl, h⟩, rfl⟩
  · split
    · exact ⟨⟨l, b, rfl, h⟩, rfl⟩
    · exact ⟨⟨l, b, rfl, h⟩, rfl⟩
  · exact ⟨hstring _ _, rfl⟩
  · exact ⟨hescaping, rfl⟩

theorem step (h : Alike s u) (c n : Char) :
    Alike (s.step c n).1 (u.step c n).1 ∧ (s.step c n).2 = (u.step c n).2 := by
  obtain ⟨hstate, hclass⟩ := h.stepInner c n
  refine ⟨hstate, ?_⟩
  have hholes : u.holes = s.holes := by
    obtain ⟨l, b, rfl, -⟩ := h
    rfl
  have hholes' : (u.stepInner c n).1.holes = (s.stepInner c n).1.holes := by
    obtain ⟨l, b, heq, -⟩ := hstate
    rw [heq]
  rw [Scanner.step, Scanner.step, hholes, hholes', hclass]

end Alike

/-! ## Blanks between lines -/

@[simp] theorem pending_afterBlank (s : Scanner) (c : Char) :
    (s.afterBlank c).pending = s.pending := by
  rw [afterBlank]
  split
  · rfl
  · split <;> rfl
  all_goals rfl

@[simp] theorem inLiteral_afterBlank (s : Scanner) (c : Char) :
    (s.afterBlank c).inLiteral = s.inLiteral := by
  obtain ⟨mode, last, beforeLast, escaped, pending, holes⟩ := s
  cases mode with
  | lineComment =>
    rw [afterBlank]
    dsimp only
    split <;> rfl
  | _ => rfl

theorem quiet_of_isBlank (h : isBlank c = true) : Quiet c :=
  ⟨ne_of_isBlank h (by decide), ne_of_isBlank h (by decide)⟩

/-- A blank outside of literals changes nothing, unless it ends a comment. -/
theorem alike_afterBlank (hc : isBlank c = true) (hs : s.inLiteral = false) (hq : Quiet s.last)
    (h : c = '\n' → s.mode ≠ .lineComment) : Alike s (s.afterBlank c) := by
  rw [afterBlank]
  split
  · refine ⟨c, s.last, rfl, ?_⟩
    rw [signs_of_quiet (quiet_of_isBlank hc), signs_of_quiet hq]
  · rename_i hm
    rw [if_neg fun hc ↦ h hc hm]
    exact .refl s
  · exact .refl s
  · rename_i hm
    simp [inLiteral, hm] at hs
  · rename_i hm
    simp [inLiteral, hm] at hs

/-- A blank before the end of a line does not matter, not even in a literal, where it may be
escaped. -/
theorem alike_afterBlank_newline (hc : c ≠ '\n') :
    Alike (s.afterBlank '\n') ((s.afterBlank c).afterBlank '\n') := by
  obtain ⟨mode, last, beforeLast, escaped, pending, holes⟩ := s
  cases mode with
  | code =>
    have hquiet : Quiet '\n' := ⟨by decide, by decide⟩
    exact ⟨'\n', c, rfl, (signs_of_quiet hquiet).trans (signs_of_quiet hquiet).symm⟩
  | lineComment =>
    simp only [afterBlank, if_neg hc]
    exact .refl _
  | blockComment => exact .refl _
  | string verbatim interpolated =>
    have hescaped : (verbatim && (verbatim && escaped)) = (verbatim && escaped) := by
      cases verbatim <;> rfl
    simp only [afterBlank, hescaped]
    exact .refl _
  | character => exact .refl _

/-- Outside of code no sign of a string stands behind the scanner. -/
def Sane (s : Scanner) : Prop := s.mode ≠ .code → Quiet s.last

@[simp] theorem last_stepEscaping (s : Scanner) (c quote : Char) :
    (s.stepEscaping c quote).last = s.last := by
  rw [stepEscaping]
  split
  · rfl
  split
  · rfl
  split <;> rfl

theorem Sane.step (h : Sane s) (c n : Char) : Sane (s.step c n).1 := by
  have hslash : Quiet '/' := ⟨by decide, by decide⟩
  have hquote : Quiet '"' := ⟨by decide, by decide⟩
  have hquote' : Quiet '\'' := ⟨by decide, by decide⟩
  have hbrace : Quiet '\x7d' := ⟨by decide, by decide⟩
  change Sane (s.stepInner c n).1
  rw [stepInner]
  split
  · exact h
  split
  · rename_i hm
    rw [stepCode]
    split
    · rename_i hc
      rw [hc.1]
      exact fun _ ↦ hslash
    split
    · rename_i hc
      rw [hc.1]
      exact fun _ ↦ hslash
    split
    · rename_i hc
      rw [hc]
      exact fun _ ↦ hquote
    split
    · rename_i hc
      rw [hc]
      exact fun _ ↦ hquote'
    split
    · refine fun hmode ↦ absurd ?_ hmode
      rw [remember, openBrace]
      split <;> exact hm
    split
    · rename_i hc
      rw [hc]
      exact fun _ ↦ hbrace
    · exact fun hmode ↦ absurd hm hmode
  · split
    · exact fun hmode ↦ absurd rfl hmode
    · exact h
  · split
    · exact fun hmode ↦ absurd rfl hmode
    · exact h
  · rename_i hm
    have hq : Quiet s.last := h (by simp [hm])
    dsimp only
    rw [stepString]
    split
    · split
      · exact h
      split
      · exact fun hmode ↦ absurd rfl hmode
      · exact h
    split
    · split
      · split
        · exact h
        · exact fun hmode ↦ absurd rfl hmode
      · exact h
    · intro _
      rwa [last_stepEscaping]
  · rename_i hm
    intro _
    dsimp only
    rw [last_stepEscaping]
    exact h (by simp [hm])

theorem Sane.quiet_newline (h : Sane s) : Quiet (s.afterBlank '\n').last := by
  rw [afterBlank]
  split
  · change Quiet '\n'
    exact quiet_of_isBlank (by decide)
  all_goals
    rename_i hm
    exact h (by simp [hm])

theorem mode_newline (s : Scanner) : (s.afterBlank '\n').mode ≠ .lineComment := by
  rw [afterBlank]
  split <;> simp_all [remember]

theorem pending_step_ne_code : s.pending ≠ some .code → (s.step c n).1.pending ≠ some .code := by
  intro hp
  change (s.stepInner c n).1.pending ≠ some .code
  rw [stepInner]
  split
  · simp
  split
  · grind [stepCode, remember, pending_openBrace, pending_closeBrace]
  · grind
  · grind
  · grind [stepString, stepEscaping]
  · grind [stepEscaping]

theorem step_closer_eq_code (hp : s.pending ≠ some .code) :
    (s.step '\x7d' n).2 = .code ↔ s.inCode = true := by
  obtain ⟨mode, last, beforeLast, escaped, pending, holes⟩ := s
  cases pending with
  | some k =>
    have hk : k ≠ .code := fun h ↦ hp (congrArg some h)
    cases holes <;> simp [step, stepInner, inCode, hk]
  | none =>
    cases holes with
    | cons h holes => simp [step, inCode]
    | nil => cases mode <;> simp [step, stepInner, stepCode, closeBrace, remember, inCode]

end Scanner

/-! ## Walks -/

/-- A walk through a text in braces: the scanner, and the number of braces that are open, unless one
has been closed that was not. -/
structure Walk where
  scanner : Scanner
  depth : Option Nat

namespace Walk

open Scanner

def count (k : CharClass) (c : Char) (depth : Option Nat) : Option Nat :=
  if k = .code ∧ c = '\x7b' then depth.map (· + 1)
  else if k = .code ∧ c = '\x7d' then depth.bind fun d ↦ if d = 0 then none else some (d - 1)
  else depth

def step (x : Walk) (c next : Char) : Walk :=
  ⟨(x.scanner.step c next).1, count (x.scanner.step c next).2 c x.depth⟩

/-- The walk after a text, which is followed by a character. -/
def pass (x : Walk) (next : Char) : Text → Walk
  | [] => x
  | c :: cs => (x.step c (cs.headD next)).pass next cs

def start : Walk := ⟨{}, some 0⟩

variable {x y : Walk} {c n n' : Char} {t u v : Text}

theorem pass_append (x : Walk) (n : Char) (u v : Text) :
    x.pass n (u ++ v) = (x.pass (v.headD n) u).pass n v := by
  induction u generalizing x with
  | nil => rfl
  | cons c u ih =>
    have hnext : (u ++ v).headD n = u.headD (v.headD n) := by cases u <;> rfl
    rw [List.cons_append, pass, pass, hnext, ih]

theorem depth_pass_of_none (hx : x.depth = none) : (x.pass n u).depth = none := by
  induction u generalizing x with
  | nil => exact hx
  | cons c u ih =>
    refine ih ?_
    rw [step, count, hx]
    split
    · rfl
    split <;> rfl

/-- A text in braces ends where its walk is in code and no brace is open. -/
theorem bracketedFrom_eq_some_iff {s : Scanner} {d : Nat} {rest : Text}
    (hp : s.pending ≠ some .code) :
    bracketedFrom '\x7b' '\x7d' s d (u ++ '\x7d' :: rest) = some u ↔
      (pass ⟨s, some d⟩ '\x7d' u).depth = some 0 ∧
        (pass ⟨s, some d⟩ '\x7d' u).scanner.inCode = true := by
  induction u generalizing s d with
  | nil =>
    rw [List.nil_append, bracketedFrom, pass, ← step_closer_eq_code (n := ahead rest) hp]
    by_cases hcode : (s.step '\x7d' (ahead rest)).2 = .code
    · by_cases hd : d = 0 <;> simp [hcode, hd]
    · simp [hcode]
  | cons c u ih =>
    have hnext : ahead (u ++ '\x7d' :: rest) = u.headD '\x7d' := by cases u <;> rfl
    have hmap : ∀ o : Option Text, o.map (c :: ·) = some (c :: u) ↔ o = some u := by simp
    have ih := fun d ↦ ih (d := d) (pending_step_ne_code (c := c) (n := u.headD '\x7d') hp)
    rw [List.cons_append, bracketedFrom, hnext, pass, step, count]
    dsimp only
    split
    · rw [hmap, ih, Option.map_some]
    split
    · by_cases hd : d = 0
      · simp [hd, depth_pass_of_none]
      · simp only [hd, if_false, hmap, ih, Option.bind_some]
    · rw [hmap, ih]

/-! ## Looking ahead -/

/-- Of what follows a text it matters only whether the scanner looks for it. -/
theorem pass_of_isInert (hn : isInert n = true) (hn' : isInert n' = true) :
    x.pass n u = x.pass n' u := by
  induction u generalizing x with
  | nil => rfl
  | cons c u ih =>
    have hstep : x.step c (u.headD n) = x.step c (u.headD n') := by
      cases u with
      | nil => rw [step, step, List.headD_nil, List.headD_nil, step_of_isInert hn hn']
      | cons d u => rfl
    rw [pass, pass, hstep, ih]

theorem pending_pass (hx : x.scanner.pending = none) (hn : isInert n = true) :
    (x.pass n u).scanner.pending = none := by
  rcases u.eq_nil_or_concat with rfl | ⟨u, c, rfl⟩
  · exact hx
  · rw [List.concat_eq_append, pass_append]
    exact pending_step hn

/-- The brace that closes a text is not looked for, unless a literal ends with a brace there. -/
theorem pass_closer (hn : isInert n = true) (h : (x.pass '\x7d' u).scanner.pending = none) :
    x.pass '\x7d' u = x.pass n u := by
  rcases u.eq_nil_or_concat with rfl | ⟨u, c, rfl⟩
  · rfl
  · rw [List.concat_eq_append, pass_append, List.headD_cons] at h
    rw [List.concat_eq_append, pass_append, pass_append, List.headD_cons, List.headD_cons]
    have hstep := step_brace hn h
    rw [pass, pass, pass, pass, step, step, List.headD_nil, List.headD_nil, hstep]

theorem sane_pass (hx : Sane x.scanner) : Sane (x.pass n u).scanner := by
  induction u generalizing x with
  | nil => exact hx
  | cons c u ih => exact ih (hx.step c _)

/-! ## Walks that go on alike -/

/-- The walks have as many open braces, and their scanners go on alike. -/
structure Alike (x y : Walk) : Prop where
  scanner : Scanner.Alike x.scanner y.scanner
  depth : y.depth = x.depth

namespace Alike

theorem refl (x : Walk) : Alike x x := ⟨.refl _, rfl⟩

theorem symm (h : Alike x y) : Alike y x := ⟨h.scanner.symm, h.depth.symm⟩

theorem trans {z : Walk} (h : Alike x y) (h' : Alike y z) : Alike x z :=
  ⟨h.scanner.trans h'.scanner, h'.depth.trans h.depth⟩

theorem step (h : Alike x y) (c n : Char) : Alike (x.step c n) (y.step c n) := by
  obtain ⟨hstate, hclass⟩ := h.scanner.step c n
  refine ⟨hstate, ?_⟩
  rw [Walk.step, Walk.step, h.depth, hclass]

theorem pass (h : Alike x y) (n : Char) (u : Text) : Alike (x.pass n u) (y.pass n u) := by
  induction u generalizing x y with
  | nil => exact h
  | cons c u ih => exact ih (h.step c _)

end Alike

/-! ## Blanks -/

theorem step_blank (hc : isBlank c = true) (hx : x.scanner.pending = none) :
    x.step c n = ⟨x.scanner.afterBlank c, x.depth⟩ := by
  obtain ⟨-, -, -, h₁, h₂, -⟩ := ne_signs_of_isBlank hc
  rw [step, Scanner.step_blank hc hx, count, if_neg fun h ↦ h₁ h.2, if_neg fun h ↦ h₂ h.2]

/-- Blanks neither start nor end a literal. -/
theorem inLiteral_blanks (hu : ∀ c ∈ u, isBlank c = true) (hx : x.scanner.pending = none) :
    (x.pass n u).scanner.inLiteral = x.scanner.inLiteral := by
  induction u generalizing x with
  | nil => rfl
  | cons c u ih =>
    rw [pass, step_blank (hu c (by simp)) hx, ih (fun d hd ↦ hu d (by simp [hd]))
      ((pending_afterBlank _ _).trans hx)]
    exact inLiteral_afterBlank _ c

theorem alike_blanks_newline (hu : ∀ c ∈ u, isBlank c = true) (hu' : '\n' ∉ u)
    (hx : x.scanner.pending = none) : Alike (x.pass n ['\n']) (x.pass n' (u ++ ['\n'])) := by
  have hnewline : isBlank '\n' = true := by decide
  induction u generalizing x with
  | nil =>
    rw [List.nil_append, pass, pass, pass, pass, step_blank hnewline hx, step_blank hnewline hx]
    exact .refl _
  | cons c u ih =>
    have hpending := (pending_afterBlank x.scanner c).trans hx
    rw [List.cons_append, pass.eq_def x n' (c :: _)]
    dsimp only
    rw [step_blank (hu c (by simp)) hx]
    refine .trans ?_ (ih (fun d hd ↦ hu d (by simp [hd])) (fun h ↦ hu' (by simp [h])) hpending)
    rw [pass, pass, pass, pass, step_blank hnewline hx, step_blank hnewline hpending]
    exact ⟨alike_afterBlank_newline fun h ↦ hu' (by simp [h]), rfl⟩

/-! ## Lines -/

/-- The walk stands where a line may start. -/
structure Ready (x : Walk) : Prop where
  pending : x.scanner.pending = none
  quiet : Quiet x.scanner.last
  mode : x.scanner.mode ≠ .lineComment

theorem Ready.sane (hx : Ready x) : Sane x.scanner := fun _ ↦ hx.quiet

theorem Ready.of_alike (h : Alike x y) (hx : Ready x) : Ready y where
  pending := h.scanner.pending.trans hx.pending
  quiet := h.scanner.quiet hx.quiet
  mode := h.scanner.mode ▸ hx.mode

theorem ready_start : Ready start := ⟨rfl, ⟨by decide, by decide⟩, by decide⟩

theorem ready_newline (hx : Sane x.scanner) (hp : x.scanner.pending = none) :
    Ready (x.pass n ['\n']) := by
  rw [pass, pass, step_blank (by decide) hp]
  exact ⟨(pending_afterBlank _ _).trans hp, hx.quiet_newline, mode_newline _⟩

/-- Blanks at the start of a line do not matter, unless they are part of a literal. -/
theorem alike_blanks (hu : ∀ c ∈ u, isBlank c = true) (hx : Ready x)
    (hliteral : x.scanner.inLiteral = false) : Alike x (x.pass n u) := by
  induction u generalizing x with
  | nil => exact .refl x
  | cons c u ih =>
    have hc := hu c (by simp)
    have halike : Alike x (x.step c (u.headD n)) := by
      rw [step_blank hc hx.pending]
      exact ⟨alike_afterBlank hc hliteral hx.quiet fun _ ↦ hx.mode, rfl⟩
    refine halike.trans (ih (fun d hd ↦ hu d (by simp [hd])) (.of_alike halike hx) ?_)
    rw [halike.scanner.inLiteral, hliteral]

theorem alike_moved {a : Text} (ha : ∀ c ∈ a, isBlank c = true) (hx : Ready x)
    (hfixed : x.scanner.inLiteral = true → a = []) (hn : isInert n = true) :
    Alike (x.pass '\n' u) (x.pass n (a ++ u)) := by
  have hstart : Alike x (x.pass (u.headD n) a) := by
    cases hliteral : x.scanner.inLiteral with
    | true =>
      rw [hfixed hliteral]
      exact .refl x
    | false => exact alike_blanks ha hx hliteral
  rw [pass_append, pass_of_isInert isInert_newline hn]
  exact hstart.pass n u

theorem pass_line (x : Walk) (n n' : Char) (u : Text) :
    x.pass n (u ++ ['\n']) = x.pass n' (u ++ ['\n']) := by
  have hnext := step_blank_next (x.pass '\n' u).scanner n n' (c := '\n') (by decide)
  rw [pass_append, pass_append]
  simp only [List.headD_cons, List.headD_nil, pass, step, hnext]

section Margins

variable {a z : Text} (ha : ∀ c ∈ a, isBlank c = true) (hz : ∀ c ∈ z, isBlank c = true)
  (hx : Ready x) (hfixed : x.scanner.inLiteral = true → a = [])

include ha hz hx hfixed

/-- A line with blanks around it ends inside a literal if the line without them does. -/
theorem inLiteral_margins :
    (x.pass '\n' (a ++ u ++ z)).scanner.inLiteral = (x.pass '\n' u).scanner.inLiteral := by
  have hinert := isInert_headD hz isInert_newline
  rw [pass_append, inLiteral_blanks hz (pending_pass hx.pending hinert)]
  exact (alike_moved ha hx hfixed hinert).scanner.inLiteral

theorem alike_margins (hz' : '\n' ∉ z) :
    Alike (x.pass ' ' (u ++ ['\n'])) (x.pass n (a ++ u ++ z ++ ['\n'])) := by
  have hinert : isInert ((z ++ ['\n']).headD n) = true := by
    have hhead : (z ++ ['\n']).headD n = z.headD '\n' := by cases z <;> rfl
    rw [hhead]
    exact isInert_headD hz isInert_newline
  rw [List.append_assoc, pass_append, pass_append x n]
  refine .trans ((alike_moved ha hx hfixed hinert).pass ' ' ['\n']) ?_
  exact alike_blanks_newline hz hz' (pending_pass hx.pending hinert)

end Margins

theorem Ready.line (hx : Ready x) : Ready (x.pass n (u ++ ['\n'])) := by
  rw [pass_append]
  exact ready_newline (sane_pass hx.sane) (pending_pass hx.pending isInert_newline)

end Walk

end SharpOutline
