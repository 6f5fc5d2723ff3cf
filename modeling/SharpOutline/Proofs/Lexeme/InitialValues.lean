import Mathlib.Tactic.MkIffOfInductiveProp
import SharpOutline.Proofs.Lexeme.CommentGaps
import SharpOutline.Proofs.Lexeme.ScannerStates

/-!
# Lists of initial values

The initial values of a declaration are read twice. First the text up to the semicolon is taken as
one statement, and then it is cut at the commas between its parts. Both readings keep a scanner and
count brackets, and a cut is a statement that also looks at type arguments; so one walk, with the
state `PartScan`, describes them both (`statementFrom_append`, `listPartsFrom_append`).

A clean text is one that a walk passes from the start without a cut and with nothing open at its
end (`Text.IsClean`). It is passed in the same way wherever a part may begin, because a walk depends
on what lies behind it only as far as `PartScan.Alike` says. So clean texts with commas between them
are read back as one statement (`statementFrom_join`). For a list comments and semicolons matter as
little as other characters, so it is cut into its parts under weaker conditions (`Text.IsPart`,
`listParts_joined`).
-/

namespace SharpOutline

open Scanner

/-! ## Walks -/

namespace PartScan

variable {p q : PartScan} {c : Char} {u v : Text}

/-- The state after a text. A comma is passed like any other character. -/
def after (p : PartScan) : Text → PartScan
  | [] => p
  | c :: cs => (p.next c (p.scanner.step c (ahead cs))).after cs

/-- No comma of the text separates two parts. -/
def isUncut (p : PartScan) : Text → Bool
  | [] => true
  | c :: cs =>
    !p.separates c (p.scanner.step c (ahead cs)).2 &&
      (p.next c (p.scanner.step c (ahead cs))).isUncut cs

@[simp] theorem scanner_next (p : PartScan) (c : Char) (r : Scanner × CharClass) :
    (p.next c r).scanner = r.1 := by
  grind [next]

@[simp] theorem previous_next (p : PartScan) (c : Char) (r : Scanner × CharClass) :
    (p.next c r).previous = some c := by
  grind [next]

theorem level_next (p : PartScan) (c : Char) (r : Scanner × CharClass) :
    (p.next c r).level = if r.2 = .code then levelAfter c p.level else p.level := by
  grind [next, levelAfter]

@[simp] theorem scanner_after (p : PartScan) (u : Text) :
    (p.after u).scanner = p.scanner.after u := by
  induction u generalizing p with
  | nil => rfl
  | cons c u ih => rw [after, ih, scanner_next, Scanner.after]

theorem after_append (h : Apart u v) : p.after (u ++ v) = (p.after u).after v := by
  induction u generalizing p with
  | nil => rfl
  | cons c u ih => rw [List.cons_append, after, h.step, ih h.tail, after]

theorem isUncut_append (h : Apart u v) :
    p.isUncut (u ++ v) = (p.isUncut u && (p.after u).isUncut v) := by
  induction u generalizing p with
  | nil => rfl
  | cons c u ih =>
    rw [List.cons_append, isUncut, isUncut, h.step, ih h.tail, after, Bool.and_assoc]

theorem next_of_separates {r : Scanner × CharClass} (h : p.separates c r.2 = true) :
    { p with scanner := r.1, previous := some c } = p.next c r := by
  simp only [separates, Bool.and_eq_true, beq_iff_eq] at h
  obtain ⟨⟨⟨hcode, rfl⟩, -⟩, -⟩ := h
  simp [next, hcode]

/-! ### States that go on alike -/

/-- The states differ at most in what lies behind them, and that means the same. -/
structure Alike (p q : PartScan) : Prop where
  scanner : Scanner.Alike p.scanner q.scanner
  level : q.level = p.level
  generic : q.generic = p.generic
  previous : q.previous.any isIdentifierCharacter = p.previous.any isIdentifierCharacter

namespace Alike

theorem separates (h : Alike p q) (c : Char) (k : CharClass) :
    q.separates c k = p.separates c k := by
  rw [PartScan.separates, PartScan.separates, h.level, h.generic]

theorem next (h : Alike p q) (c n : Char) :
    Alike (p.next c (p.scanner.step c n)) (q.next c (q.scanner.step c n)) := by
  obtain ⟨hstate, hclass⟩ := h.scanner.step c n
  refine ⟨by simpa using hstate, ?_, ?_, by simp⟩
  · rw [level_next, level_next, h.level, hclass]
  · have hlevel := h.level
    have hgeneric := h.generic
    have hprevious := h.previous
    grind [PartScan.next]

theorem after (h : Alike p q) (u : Text) : Alike (p.after u) (q.after u) := by
  induction u generalizing p q with
  | nil => exact h
  | cons c u ih => exact ih (h.next c _)

theorem isUncut (h : Alike p q) (u : Text) : q.isUncut u = p.isUncut u := by
  induction u generalizing p q with
  | nil => rfl
  | cons c u ih =>
    rw [PartScan.isUncut, PartScan.isUncut, h.separates, (h.scanner.step c _).2, ih (h.next c _)]

end Alike

/-- A part may begin here: it goes on like at the start of a list. -/
abbrev Fresh (p : PartScan) : Prop := Alike {} p

/-- Nothing is open. -/
def IsClear (p : PartScan) : Prop :=
  (∃ l b, p.scanner = ready [] l b) ∧ p.level = 0 ∧ p.generic = 0

theorem Alike.isClear (h : Alike p q) (hp : p.IsClear) : q.IsClear := by
  obtain ⟨⟨l, b, hscanner⟩, hlevel, hgeneric⟩ := hp
  obtain ⟨l', b', heq, -⟩ := h.scanner
  exact ⟨⟨l', b', by rw [heq, hscanner]; rfl⟩, h.level.trans hlevel, h.generic.trans hgeneric⟩

end PartScan

/-! ## Nothing is open -/

namespace Scanner

/-- In code the scanner knows no more than the last two characters. -/
theorem EscapesIn.exists_ready {s : Scanner} (h : EscapesIn s) (hs : s.inCode = true) :
    ∃ l b, s = ready [] l b := by
  obtain ⟨mode, last, beforeLast, escaped, pending, holes⟩ := s
  simp only [inCode, Bool.and_eq_true, beq_iff_eq, Option.isNone_iff_eq_none,
    List.isEmpty_iff] at hs
  obtain ⟨⟨rfl, rfl⟩, rfl⟩ := hs
  cases escaped with
  | false => exact ⟨last, beforeLast, rfl⟩
  | true => simp [EscapesIn] at h

end Scanner

/-- The text is passed from the start of a list without a cut and with nothing open at its end; no
comment and no semicolon of code is in it. -/
@[mk_iff]
structure Text.IsClean (q : Text) : Prop where
  inCode : (Scanner.after {} q).inCode = true
  level : (PartScan.after {} q).level = 0
  generic : (PartScan.after {} q).generic = 0
  uncut : PartScan.isUncut {} q = true
  comment_free : ∀ l ∈ Scanner.labelled {} q, l.2 ≠ .comment
  unended : (';', .code) ∉ Scanner.labelled {} q

instance (q : Text) : Decidable (Text.IsClean q) := decidable_of_iff _ (Text.isClean_iff q).symm

/-- The text may be a part of a list: it is trimmed, and it is passed from the start of the list
without a cut and with nothing open at its end. -/
@[mk_iff]
structure Text.IsPart (q : Text) : Prop where
  trim_eq : Text.trim q = q
  inCode : (Scanner.after {} q).inCode = true
  level : (PartScan.after {} q).level = 0
  generic : (PartScan.after {} q).generic = 0
  uncut : PartScan.isUncut {} q = true

instance (q : Text) : Decidable (Text.IsPart q) := decidable_of_iff _ (Text.isPart_iff q).symm

/-- The character is only passed: it separates, opens and closes nothing. -/
def isBland (c : Char) : Bool :=
  !(['"', '\'', '/', ';', ',', '(', ')', '[', ']', '\x7b', '\x7d', '<', '>'].contains c)

theorem isBland_of_isMild {c : Char} (h : isMild c = true) : isBland c = true := by
  have hne {d : Char} : isSymbol d = true → c ≠ d := ne_of_isMild h
  simp only [isMild, Bool.and_eq_true, bne_iff_ne] at h
  simp [isBland, h.1.2, h.2, hne (d := '/') rfl, hne (d := ';') rfl, hne (d := ',') rfl,
    hne (d := '(') rfl, hne (d := ')') rfl, hne (d := '[') rfl, hne (d := ']') rfl,
    hne (d := '\x7b') rfl, hne (d := '\x7d') rfl, hne (d := '<') rfl, hne (d := '>') rfl]

namespace PartScan

variable {p : PartScan} {c n : Char} {u : Text}

theorem step_of_isBland {l b : Char} (hp : p.scanner = ready [] l b) (hc : isBland c = true) :
    (p.scanner.step c n).2 = .code ∧ p.separates c (p.scanner.step c n).2 = false ∧
      p.next c (p.scanner.step c n) =
        { p with scanner := ready [] c l, previous := some c } := by
  simp only [isBland, List.contains_cons, List.contains_nil, Bool.or_false, Bool.not_eq_true',
    Bool.or_eq_false_iff, beq_eq_false_iff_ne] at hc
  obtain ⟨hquote, hcharacter, hslash, -, hcomma, h₁, h₂, h₃, h₄, h₅, h₆, h₇, h₈⟩ := hc
  have hstep : p.scanner.step c n = (ready [] c l, .code) := by
    rw [hp]
    exact step_plain hquote hcharacter (fun hc ↦ absurd hc hslash) h₅ h₆
  rw [hstep]
  refine ⟨rfl, by simp [separates, hcomma], ?_⟩
  simp [next, h₁, h₂, h₃, h₄, h₅, h₆, h₇, h₈]

theorem IsClear.step_bland (h : p.IsClear) (hc : isBland c = true) :
    (p.scanner.step c n).2 = .code ∧ p.separates c (p.scanner.step c n).2 = false ∧
      (p.next c (p.scanner.step c n)).IsClear := by
  obtain ⟨⟨l, b, hp⟩, hlevel, hgeneric⟩ := h
  obtain ⟨hcode, hseparates, hnext⟩ := step_of_isBland (n := n) hp hc
  rw [hnext]
  exact ⟨hcode, hseparates, ⟨c, l, rfl⟩, hlevel, hgeneric⟩

theorem IsClear.step_break (h : p.IsClear) (hc : c = ',' ∨ c = ' ' ∨ c = '=') :
    (p.scanner.step c n).2 = .code ∧ (p.next c (p.scanner.step c n)).Fresh := by
  obtain ⟨⟨l, b, hp⟩, hlevel, hgeneric⟩ := h
  have hstep : p.scanner.step c n = (ready [] c l, .code) := by
    rw [hp]
    exact step_of_isCalm (by rcases hc with rfl | rfl | rfl <;> decide)
  have hnext : p.next c (ready [] c l, .code) =
      { scanner := ready [] c l, level := 0, generic := 0, previous := some c } := by
    obtain ⟨scanner, level, generic, previous⟩ := p
    obtain ⟨rfl, rfl⟩ : level = 0 ∧ generic = 0 := ⟨hlevel, hgeneric⟩
    rcases hc with rfl | rfl | rfl <;> simp [next]
  rw [hstep, hnext]
  have hquiet : Quiet c := by
    rcases hc with rfl | rfl | rfl <;> exact ⟨by decide, by decide⟩
  have hother : isIdentifierCharacter c = false := by
    rcases hc with rfl | rfl | rfl <;> decide +kernel
  refine ⟨rfl, ⟨c, l, rfl, ?_⟩, rfl, rfl, by simpa using hother⟩
  exact (signs_of_quiet hquiet).trans (signs_of_quiet ⟨by decide, by decide⟩).symm

/-- Nothing is open but `n` lists of type arguments. -/
structure Stands (n : Nat) (p : PartScan) : Prop where
  scanner : ∃ l b, p.scanner = ready [] l b
  level : p.level = 0
  generic : p.generic = n

/-- Where `n` lists of type arguments are open the text is passed without a cut, and then `k` are
open. -/
def Flows (n : Nat) (u : Text) (k : Nat) : Prop :=
  ∀ p : PartScan, p.Stands n → p.isUncut u = true ∧ (p.after u).Stands k ∧
    ∀ l ∈ p.scanner.labelled u, l.2 = .code ∧ l.1 ≠ ';'

theorem flows_of_isBland {n : Nat} (hu : ∀ c ∈ u, isBland c = true) : Flows n u n := by
  intro p hp
  induction u generalizing p with
  | nil => exact ⟨rfl, hp, by simp⟩
  | cons c u ih =>
    have hc := hu c List.mem_cons_self
    obtain ⟨l, b, hscanner⟩ := hp.scanner
    obtain ⟨hcode, hsame, hnext⟩ := step_of_isBland (n := ahead u) hscanner hc
    have hstands : (p.next c (p.scanner.step c (ahead u))).Stands n := by
      rw [hnext]
      exact ⟨⟨c, l, rfl⟩, hp.level, hp.generic⟩
    obtain ⟨huncut, hafter, hlabels⟩ := ih (fun d hd ↦ hu d (List.mem_cons_of_mem c hd)) _ hstands
    rw [scanner_next] at hlabels
    refine ⟨by rw [isUncut, hsame, huncut]; rfl, hafter, ?_⟩
    rw [labelled_cons, List.forall_mem_cons]
    refine ⟨⟨hcode, ?_⟩, hlabels⟩
    rintro rfl
    exact absurd hc (by decide)

theorem IsClear.walk_bland (h : p.IsClear) (hu : ∀ c ∈ u, isBland c = true) :
    p.isUncut u = true ∧ (p.after u).IsClear ∧
      ∀ l ∈ p.scanner.labelled u, l.2 = .code ∧ l.1 ≠ ';' := by
  obtain ⟨huncut, hafter, hlabels⟩ := flows_of_isBland hu p ⟨h.1, h.2.1, h.2.2⟩
  exact ⟨huncut, ⟨hafter.scanner, hafter.level, hafter.generic⟩, hlabels⟩

theorem Fresh.isClear (h : p.Fresh) : p.IsClear :=
  Alike.isClear h ⟨⟨_, _, rfl⟩, rfl, rfl⟩

theorem fresh_start : Fresh {} := ⟨.refl _, rfl, rfl, rfl⟩

end PartScan

open PartScan

namespace Text

variable {p : PartScan} {u v : Text}

theorem isClean_of_flows (h : Flows 0 u 0) : IsClean u := by
  obtain ⟨huncut, ⟨⟨l, b, hscanner⟩, hlevel, hgeneric⟩, hlabels⟩ :=
    h {} ⟨⟨endMark, endMark, rfl⟩, rfl, rfl⟩
  rw [scanner_after] at hscanner
  refine ⟨by rw [hscanner]; rfl, hlevel, hgeneric, huncut, fun q hq ↦ ?_, fun hmem ↦ ?_⟩
  · rw [(hlabels q hq).1]
    nofun
  · exact (hlabels _ hmem).2 rfl

theorem isClean_of_isBland (h : ∀ c ∈ u, isBland c = true) : IsClean u :=
  isClean_of_flows (flows_of_isBland h)

theorem IsClean.isPart (h : IsClean u) (htrim : Text.trim u = u) : IsPart u :=
  ⟨htrim, h.inCode, h.level, h.generic, h.uncut⟩

theorem isClear_after (hcode : (Scanner.after {} u).inCode = true)
    (hlevel : (PartScan.after {} u).level = 0) (hgeneric : (PartScan.after {} u).generic = 0) :
    (PartScan.after {} u).IsClear := by
  have hstart : EscapesIn {} := nofun
  refine ⟨?_, hlevel, hgeneric⟩
  rw [scanner_after]
  exact (hstart.after u).exists_ready hcode

theorem IsClean.walk (h : IsClean u) (hp : p.Fresh) :
    p.isUncut u = true ∧ (p.after u).IsClear ∧
      (∀ l ∈ p.scanner.labelled u, l.2 ≠ .comment) ∧ (';', .code) ∉ p.scanner.labelled u := by
  have hclear := isClear_after h.inCode h.level h.generic
  refine ⟨by rw [hp.isUncut, h.uncut], (hp.after u).isClear hclear, ?_, ?_⟩
  · rw [hp.scanner.labelled]
    exact h.comment_free
  · rw [hp.scanner.labelled]
    exact h.unended

theorem IsClean.append_bland (hu : ∀ c ∈ u, isBland c = true) (hv : IsClean v) :
    IsClean (u ++ ' ' :: v) := by
  obtain ⟨huncut, hclear, hlabels⟩ := fresh_start.isClear.walk_bland hu
  obtain ⟨hcode, hfresh⟩ := hclear.step_break (c := ' ') (n := ahead v) (.inr (.inl rfl))
  obtain ⟨hsame, -⟩ := (hclear.step_bland (c := ' ') (n := ahead v) (by decide)).2
  obtain ⟨hvuncut, ⟨⟨l, b, hscanner⟩, hlevel, hgeneric⟩, hcomment, hend⟩ := hv.walk hfresh
  have hapart : Apart u (' ' :: v) := apart_of_isInert rfl
  have hlabelled : Scanner.labelled {} (u ++ ' ' :: v) = Scanner.labelled {} u ++ (' ', .code) ::
      ((Scanner.after {} u).step ' ' (ahead v)).1.labelled v := by
    rw [labelled_append hapart, labelled_cons, ← hcode, scanner_after]
  have hafter : PartScan.after {} (u ++ ' ' :: v) = ((PartScan.after {} u).next ' '
      ((PartScan.after {} u).scanner.step ' ' (ahead v))).after v := by
    rw [PartScan.after_append hapart, PartScan.after]
  rw [scanner_next, scanner_after] at hcomment hend
  refine ⟨?_, by rw [hafter, hlevel], by rw [hafter, hgeneric], ?_, ?_, ?_⟩
  · rw [← scanner_after {}, hafter, hscanner]
    rfl
  · rw [isUncut_append hapart, huncut, isUncut, hsame, hvuncut]
    rfl
  · rw [hlabelled, List.forall_mem_append, List.forall_mem_cons]
    refine ⟨fun q hq ↦ ?_, by nofun, hcomment⟩
    rw [(hlabels q hq).1]
    nofun
  · rw [hlabelled, List.mem_append, List.mem_cons, not_or, not_or]
    exact ⟨fun hmem ↦ (hlabels _ hmem).2 rfl, by decide, hend⟩

end Text

/-! ## Statements -/

section Statement

variable {p : PartScan} {u t : Text}

def prependText (u : Text) (r : Text × Unit × Nat) : Text × Unit × Nat :=
  (u ++ r.1, r.2.1, u.length + r.2.2)

theorem prependTo_prependText (c : Char) (u : Text) (r : Option (Text × Unit × Nat)) :
    (r.map (prependText u)).map (prependTo c) = r.map (prependText (c :: u)) := by
  cases r with
  | none => rfl
  | some r => simp [prependText, prependTo, Nat.add_right_comm]

theorem statementFrom_append (hapart : Apart u t)
    (hcomment : ∀ l ∈ p.scanner.labelled u, l.2 ≠ .comment)
    (hend : (';', .code) ∉ p.scanner.labelled u) :
    statementFrom p.scanner p.level (u ++ t) =
      (statementFrom (p.after u).scanner (p.after u).level t).map (prependText u) := by
  induction u generalizing p with
  | nil =>
    cases h : statementFrom p.scanner p.level t <;> simp [PartScan.after, h, prependText]
  | cons c u ih =>
    rw [labelled_cons, List.forall_mem_cons] at hcomment
    rw [labelled_cons, List.mem_cons, not_or] at hend
    have hnext := ih (p := p.next c (p.scanner.step c (ahead u))) hapart.tail
      (by simpa using hcomment.2) (by simpa using hend.2)
    rw [scanner_next, level_next] at hnext
    rw [List.cons_append, statementFrom, hapart.step, PartScan.after, ← prependTo_prependText,
      ← hnext]
    cases hclass : (p.scanner.step c (ahead u)).2 with
    | comment => exact absurd hclass hcomment.1
    | literal => simp
    | code =>
      have hc : c ≠ ';' := fun hc ↦ hend.1 (by rw [hc, ← hc, hclass])
      simp [hc]

end Statement

/-! ## Lists -/

section Lists

variable {p : PartScan} {u t part : Text} {parts : List Text}

theorem listPartsFrom_append (hapart : Apart u t) (h : p.isUncut u = true) :
    listPartsFrom p part (u ++ t) = listPartsFrom (p.after u) (part ++ u) t := by
  induction u generalizing p part with
  | nil => simp [PartScan.after]
  | cons c u ih =>
    rw [isUncut, Bool.and_eq_true, Bool.not_eq_true'] at h
    rw [List.cons_append, listPartsFrom, hapart.step, if_neg (by simp [h.1]), ih hapart.tail h.2,
      PartScan.after, List.append_assoc, List.singleton_append]

/-- What stands between two parts of a list. -/
def partSeparator : Text := [',', ' ']

theorem join_partSeparator_cons (w v : Text) (ws : List Text) :
    Text.join partSeparator (w :: v :: ws) =
      w ++ (partSeparator ++ Text.join partSeparator (v :: ws)) :=
  Text.join_cons_cons ..

theorem join_partSeparator_singleton (w : Text) : Text.join partSeparator [w] = w :=
  Text.join_singleton ..

theorem isBlank_of_mem_space : ∀ c ∈ [' '], isBlank c = true :=
  List.forall_mem_singleton.mpr (by decide)

theorem apart_partSeparator (t : Text) : Apart partSeparator t := by
  intro c hc s
  obtain rfl : ' ' = c := Option.some.inj hc
  exact step_blank_next s _ _ (by decide)

theorem PartScan.IsClear.walk_separator (h : p.IsClear) :
    (p.after partSeparator).Fresh ∧
      (∀ l ∈ p.scanner.labelled partSeparator, l.2 = .code ∧ l.1 ≠ ';') ∧
      ∀ part t, listPartsFrom p part (partSeparator ++ t) =
        Text.trim part :: listPartsFrom (p.after partSeparator) [' '] t := by
  obtain ⟨hcode, hfresh⟩ := h.step_break (c := ',') (n := ' ') (.inl rfl)
  have hclear := hfresh.isClear
  obtain ⟨hcode', hfresh'⟩ := hclear.step_break (c := ' ') (n := endMark) (.inr (.inl rfl))
  refine ⟨hfresh', ?_, fun part t ↦ ?_⟩
  · rw [scanner_next] at hcode'
    simp [partSeparator, hcode, hcode']
  · have hseparates : p.separates ',' (p.scanner.step ',' ' ').2 = true := by
      rw [hcode]
      simp [PartScan.separates, h.2.1, h.2.2]
    rw [partSeparator, List.cons_append, listPartsFrom, List.singleton_append, ahead_cons,
      if_pos hseparates, next_of_separates hseparates]
    exact congrArg _ (listPartsFrom_append (apart_of_blank isBlank_of_mem_space)
      (hclear.walk_bland (List.forall_mem_singleton.mpr (by decide))).1)

/-- Clean texts with commas between them are one statement. -/
theorem statementFrom_join (hp : p.Fresh) (hne : parts ≠ []) (h : ∀ q ∈ parts, Text.IsClean q)
    (t : Text) : statementFrom p.scanner p.level (Text.join partSeparator parts ++ ';' :: t) =
      some (Text.join partSeparator parts, (), (Text.join partSeparator parts).length + 1) := by
  induction parts generalizing p with
  | nil => exact absurd rfl hne
  | cons q parts ih =>
    obtain ⟨-, hclear, hcomment, hend⟩ := (h q List.mem_cons_self).walk hp
    cases parts with
    | nil =>
      obtain ⟨⟨l, b, hscanner⟩, hlevel, -⟩ := hclear
      have hstep : (ready [] l b).step ';' (ahead t) = (ready [] ';' l, .code) :=
        step_of_isCalm (by decide)
      have hstop : statementFrom (p.after q).scanner (p.after q).level (';' :: t) =
          some ([], (), 1) := by
        rw [hscanner, hlevel, statementFrom, hstep]
        rfl
      rw [join_partSeparator_singleton, statementFrom_append (apart_of_isInert rfl) hcomment hend,
        hstop]
      simp [prependText]
    | cons r parts =>
      obtain ⟨hfresh, hlabels, -⟩ := hclear.walk_separator
      have hlater := ih hfresh (by simp) fun x hx ↦ h x (List.mem_cons_of_mem q hx)
      rw [join_partSeparator_cons, List.append_assoc, List.append_assoc,
        statementFrom_append (apart_of_isInert rfl) hcomment hend,
        statementFrom_append (apart_partSeparator _) (fun l hl ↦ by rw [(hlabels l hl).1]; decide)
          fun hmem ↦ (hlabels _ hmem).2 rfl, hlater]
      simp [prependText]
      omega

/-- Parts with commas between them are cut at these commas, wherever the first of them begins. -/
theorem listPartsFrom_join (hp : p.Fresh) (hne : parts ≠ []) (h : ∀ q ∈ parts, Text.IsPart q)
    (hpart : ∀ c ∈ part, isBlank c = true) :
    listPartsFrom p part (Text.join partSeparator parts) = parts := by
  induction parts generalizing p part with
  | nil => exact absurd rfl hne
  | cons q parts ih =>
    have hq := h q List.mem_cons_self
    have huncut : p.isUncut q = true := by rw [hp.isUncut, hq.uncut]
    have htrim : Text.trim (part ++ q) = q := by rw [Text.trim_append_of_blank hpart, hq.trim_eq]
    cases parts with
    | nil =>
      rw [join_partSeparator_singleton, ← List.append_nil q,
        listPartsFrom_append (apart_of_isInert rfl) huncut, listPartsFrom, htrim, List.append_nil]
    | cons r parts =>
      have hclear := (hp.after q).isClear (Text.isClear_after hq.inCode hq.level hq.generic)
      obtain ⟨hfresh, -, hcut⟩ := hclear.walk_separator
      rw [join_partSeparator_cons, listPartsFrom_append (apart_of_isInert rfl) huncut, hcut, htrim,
        ih hfresh (by simp) (fun x hx ↦ h x (List.mem_cons_of_mem q hx)) isBlank_of_mem_space]

/-- **Cutting a list undoes joining its parts.** Parts may hold comments, semicolons, literals with
commas and any matching brackets, and may be empty. -/
theorem listParts_joined (hne : parts ≠ []) (h : ∀ q ∈ parts, Text.IsPart q) :
    listParts (Text.join partSeparator parts) = parts :=
  listPartsFrom_join fresh_start hne h (by simp)

/-- Parts with commas in a comment, in a string with a hole, in a character, in braces and between
type arguments; one of them ends with an angle bracket, and one is empty. -/
def mixedParts : List Text :=
  ["Map<K, (int, V)> m".toList, "a /* , */ < b; c >".toList, [],
    "$@\"\"\", \x7bf(x, ',')\x7d\"".toList, "new \x7b 1, [2, ','] \x7d".toList]

theorem listParts_joined_mixedParts :
    (mixedParts ≠ [] ∧ ∀ q ∈ mixedParts, Text.IsPart q) ∧
      listParts (Text.join partSeparator mixedParts) = mixedParts := by
  have hparts : mixedParts ≠ [] ∧ ∀ q ∈ mixedParts, Text.IsPart q := by decide +kernel
  exact ⟨hparts, listParts_joined hparts.1 hparts.2⟩

theorem statementSpan_join (hne : parts ≠ []) (hclean : ∀ q ∈ parts, Text.IsClean q)
    (htrim : ∀ q ∈ parts, q ≠ [] ∧ Text.trim q = q) (t : Text) :
    statementSpan (' ' :: (Text.join partSeparator parts ++ ';' :: t)) =
      some (Text.join partSeparator parts, (Text.join partSeparator parts).length + 2) := by
  obtain ⟨hcode, hfresh⟩ :=
    fresh_start.isClear.step_break (c := ' ') (n := endMark) (.inr (.inl rfl))
  have hspace := statementFrom_append (p := {}) (u := [' '])
    (t := Text.join partSeparator parts ++ ';' :: t) (apart_of_blank isBlank_of_mem_space)
    (by decide) (by decide)
  have hjoin := statementFrom_join (p := PartScan.after {} [' ']) hfresh hne hclean t
  rw [hjoin] at hspace
  rw [statementSpan, ← List.singleton_append, show statementFrom {} 0 _ = _ from hspace]
  simp only [Option.map_some, prependText, List.singleton_append, List.length_singleton,
    Text.trim_cons (c := ' ') (by decide),
    trim_join_of_trim htrim]
  congr 2
  omega

end Lists

end SharpOutline
