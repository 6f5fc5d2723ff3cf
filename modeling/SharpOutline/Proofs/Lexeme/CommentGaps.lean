import Mathlib.Data.List.Chain
import SharpOutline.Proofs.Block.LongerTexts
import SharpOutline.Proofs.Lexeme.ParameterLists

/-!
# Identifiers on both sides of a comment

The comments in a clause are dropped from it, and nothing is put in their place. A line comment ends
at a line break, which is code and stays, but behind a block comment the text goes on at once. So
the identifiers of a clause are those of the stretches between its comments unless a block comment
is all that stands between two of them, which then are one (`Reading.identifiers_eq_iff`).

The proof counts. Put in front of a text, a character makes one identifier more unless it joins the
one that the text begins with; for the stretches this depends on the next character, and for the
clause on the next one that is no comment. Literals do not matter, because a literal has a quote at
either end.
-/

namespace SharpOutline

open Text

/-! ## Identifiers -/

namespace Text

/-- The maximal runs of characters that may stand in an identifier. -/
def identifiers (t : Text) : List Text :=
  (t.splitOnP fun c ↦ !isIdentifierCharacter c).filter fun w ↦ w ≠ []

/-- The text begins with a character that may stand in an identifier. -/
def beginsIdentifier (t : Text) : Bool := t.head?.any isIdentifierCharacter

/-- The runs after a character was put in front of a text, which begins with one of them or does
not. -/
def withCharacter (c : Char) (joined : Bool) (runs : List Text) : List Text :=
  if isIdentifierCharacter c then
    if joined then runs.modifyHead (c :: ·) else [c] :: runs
  else runs

variable {u : Text} {c : Char}

theorem identifiers_cons (c : Char) (t : Text) :
    identifiers (c :: t) = withCharacter c t.beginsIdentifier (identifiers t) := by
  rw [identifiers, List.splitOnP_cons_eq_if_modifyHead, withCharacter]
  cases hc : isIdentifierCharacter c with
  | false => simp [identifiers]
  | true =>
    cases t with
    | nil => simp [identifiers, beginsIdentifier]
    | cons d t =>
      rw [identifiers, List.splitOnP_cons_eq_if_modifyHead]
      cases hd : isIdentifierCharacter d with
      | false => simp [beginsIdentifier, hd]
      | true =>
        obtain ⟨run, runs, hruns⟩ := List.exists_cons_of_ne_nil
          (List.splitOnP_ne_nil (fun c ↦ !isIdentifierCharacter c) t)
        simp [beginsIdentifier, hd, hruns]

theorem length_withCharacter (c : Char) (joined : Bool) (runs : List Text) :
    (withCharacter c joined runs).length =
      runs.length + if isIdentifierCharacter c && !joined then 1 else 0 := by
  rw [withCharacter]
  cases isIdentifierCharacter c <;> cases joined <;> simp

theorem identifiers_ne_nil {t : Text} (h : t.beginsIdentifier = true) : identifiers t ≠ [] := by
  induction t with
  | nil => cases h
  | cons c t ih =>
    have hc : isIdentifierCharacter c = true := h
    rw [identifiers_cons, withCharacter, if_pos hc]
    split
    · simpa using ih ‹_›
    · exact List.cons_ne_nil _ _

/-- Nothing in front of a run belongs to it unless it may stand in an identifier. -/
theorem identifiers_append_of_left (hu : ∀ c ∈ u, isIdentifierCharacter c = false) (t : Text) :
    identifiers (u ++ t) = identifiers t := by
  induction u with
  | nil => rfl
  | cons c u ih =>
    rw [List.forall_mem_cons] at hu
    rw [List.cons_append, identifiers_cons, withCharacter, hu.1, ih hu.2]
    rfl

theorem identifiers_append_of_right (hu : ∀ c ∈ u, isIdentifierCharacter c = false) (t : Text) :
    identifiers (t ++ u) = identifiers t := by
  induction t with
  | nil =>
    have hleft := identifiers_append_of_left hu []
    rwa [List.append_nil] at hleft
  | cons c t ih =>
    have hbegins : beginsIdentifier (t ++ u) = beginsIdentifier t := by
      cases t with
      | nil => cases u <;> simp_all [beginsIdentifier]
      | cons d t => rfl
    rw [List.cons_append, identifiers_cons, identifiers_cons, ih, hbegins]

theorem isIdentifierCharacter_of_isBlank (h : isBlank c = true) :
    isIdentifierCharacter c = false := by
  have hall : ∀ r ∈ blankRanges, ∀ i < r.2 + 1 - r.1,
      isIdentifierCharacter (Char.ofNat (r.1 + i)) = false := by decide +kernel
  obtain ⟨r, hr, hle, hge⟩ := (isBlank_iff c).mp h
  have hc := hall r hr (c.toNat - r.1) (by omega)
  rwa [Nat.add_sub_cancel' hle, Char.ofNat_toNat] at hc

theorem trimStart_append_cons (hc : isBlank c = false) (u v : Text) :
    trimStart (u ++ c :: v) = trimStart u ++ c :: v := by
  rw [trimStart, List.dropWhile_append, List.dropWhile_cons_of_neg (by simp [hc])]
  split
  · rename_i hempty
    rw [trimStart, List.isEmpty_iff.mp hempty, List.nil_append]
  · rfl

theorem trimEnd_append_cons (hc : isBlank c = false) (u v : Text) :
    trimEnd (u ++ c :: v) = u ++ c :: trimEnd v := by
  have hstart := trimStart_append_cons hc v.reverse u.reverse
  rw [trimEnd, List.reverse_append, List.reverse_cons, List.append_assoc, List.singleton_append,
    ← trimStart, hstart, trimStart, List.reverse_append, List.reverse_cons, List.reverse_reverse,
    List.append_assoc, List.singleton_append, trimEnd]

theorem identifiers_trim (t : Text) : identifiers (trim t) = identifiers t := by
  obtain ⟨a, z, ht, ha, hz⟩ := exists_eq_append_trim t
  conv_rhs => rw [ht]
  rw [identifiers_append_of_left fun c hc ↦ isIdentifierCharacter_of_isBlank (ha c hc),
    identifiers_append_of_right fun c hc ↦ isIdentifierCharacter_of_isBlank (hz c hc)]

end Text

/-! ## Characters with their classes -/

namespace Labelled

def kept (l : List (Char × CharClass)) : Text := (l.filter fun p ↦ p.2 ≠ .comment).map Prod.fst

/-- The stretches between the characters of comments. -/
def stretches (l : List (Char × CharClass)) : List Text :=
  (l.splitOnP fun p ↦ p.2 = .comment).map (·.map Prod.fst)

/-- A comment comes first, and behind it a character of code that may stand in an identifier. -/
def Resumes (l : List (Char × CharClass)) (b : Char) : Prop :=
  ∃ between after, l = between ++ (b, .code) :: after ∧ between ≠ [] ∧
    (∀ p ∈ between, p.2 = .comment) ∧ isIdentifierCharacter b = true

/-- Two characters of code that may stand in identifiers, with nothing but a comment between
them. -/
def Fuses (l : List (Char × CharClass)) (a b : Char) : Prop :=
  ∃ before rest, l = before ++ (a, .code) :: rest ∧ isIdentifierCharacter a = true ∧ Resumes rest b

variable {l : List (Char × CharClass)} {c : Char} {k : CharClass}

/-- A comment comes first. -/
def beginsComment (l : List (Char × CharClass)) : Bool := l.head?.any fun p ↦ p.2 = .comment

/-- A comment comes first, and behind it a character that may stand in an identifier. -/
def meets (l : List (Char × CharClass)) : Bool := beginsComment l && (kept l).beginsIdentifier

/-- The number of places where only comments keep identifiers apart. -/
def fusions : List (Char × CharClass) → Nat
  | [] => 0
  | p :: l =>
    fusions l + if p.2 ≠ .comment ∧ isIdentifierCharacter p.1 = true ∧ meets l = true then 1 else 0

variable {p : Char × CharClass} {b a : Char}

theorem kept_comment (c : Char) : kept ((c, .comment) :: l) = kept l := rfl

theorem kept_cons (hk : k ≠ .comment) : kept ((c, k) :: l) = c :: kept l := by
  simp [kept, hk]

theorem kept_append (l m : List (Char × CharClass)) : kept (l ++ m) = kept l ++ kept m := by
  simp [kept]

theorem stretches_comment (c : Char) : stretches ((c, .comment) :: l) = [] :: stretches l := by
  simp [stretches, List.splitOnP_cons_eq_if_modifyHead]

theorem stretches_cons (hk : k ≠ .comment) :
    stretches ((c, k) :: l) = (stretches l).modifyHead (c :: ·) := by
  rw [stretches, List.splitOnP_cons_eq_if_modifyHead, stretches]
  obtain ⟨run, runs, hruns⟩ := List.exists_cons_of_ne_nil
    (List.splitOnP_ne_nil (fun p : Char × CharClass ↦ decide (p.2 = .comment)) l)
  simp [hk, hruns]

theorem stretches_ne_nil (l : List (Char × CharClass)) : stretches l ≠ [] :=
  mt List.map_eq_nil_iff.mp (List.splitOnP_ne_nil _ l)

theorem exists_stretches (l : List (Char × CharClass)) : ∃ first later,
    stretches l = first :: later ∧
      first.beginsIdentifier = (!beginsComment l && (kept l).beginsIdentifier) := by
  cases l with
  | nil => exact ⟨[], [], rfl, rfl⟩
  | cons p l =>
    obtain ⟨c, k⟩ := p
    by_cases hk : k = .comment
    · subst hk
      exact ⟨[], stretches l, stretches_comment c, rfl⟩
    · obtain ⟨first, later, h⟩ := List.exists_cons_of_ne_nil (stretches_ne_nil l)
      refine ⟨c :: first, later, by rw [stretches_cons hk, h]; rfl, ?_⟩
      rw [kept_cons hk]
      simp [beginsComment, hk, beginsIdentifier]

theorem flatMap_identifiers_cons (hk : k ≠ .comment) :
    (stretches ((c, k) :: l)).flatMap identifiers =
      withCharacter c (!beginsComment l && (kept l).beginsIdentifier)
        ((stretches l).flatMap identifiers) := by
  obtain ⟨first, later, hstretches, hfirst⟩ := exists_stretches l
  rw [stretches_cons hk, hstretches, ← hfirst, List.modifyHead_cons, List.flatMap_cons,
    List.flatMap_cons, identifiers_cons, withCharacter, withCharacter]
  split
  · split
    · obtain ⟨run, runs, hruns⟩ := List.exists_cons_of_ne_nil (identifiers_ne_nil ‹_›)
      rw [hruns]
      rfl
    · rfl
  · rfl

/-- Every place where only comments keep identifiers apart makes one identifier out of two. -/
theorem length_identifiers_kept (l : List (Char × CharClass)) :
    (kept l).identifiers.length + fusions l =
      ((stretches l).flatMap identifiers).length := by
  induction l with
  | nil => rfl
  | cons p l ih =>
    obtain ⟨c, k⟩ := p
    by_cases hk : k = .comment
    · subst hk
      rw [kept_comment, stretches_comment, fusions]
      simpa [identifiers] using ih
    · rw [kept_cons hk, flatMap_identifiers_cons hk, identifiers_cons,
        length_withCharacter, length_withCharacter, ← ih, fusions, meets]
      cases isIdentifierCharacter c <;> cases beginsComment l <;>
        cases (kept l).beginsIdentifier <;> simp [hk] <;> omega

theorem identifiers_kept_of_fusions (h : fusions l = 0) :
    (kept l).identifiers = (stretches l).flatMap identifiers := by
  induction l with
  | nil => rfl
  | cons p l ih =>
    obtain ⟨c, k⟩ := p
    rw [fusions] at h
    obtain ⟨hl, hp⟩ := Nat.add_eq_zero_iff.mp h
    by_cases hk : k = .comment
    · subst hk
      rw [kept_comment, stretches_comment, ih hl]
      rfl
    · rw [kept_cons hk, flatMap_identifiers_cons hk, identifiers_cons, ih hl]
      cases hc : isIdentifierCharacter c with
      | false => simp [withCharacter, hc]
      | true =>
        simp only [meets] at hp
        cases hb : beginsComment l <;> simp_all

theorem identifiers_kept_iff : (kept l).identifiers = (stretches l).flatMap identifiers ↔
    fusions l = 0 := by
  refine ⟨fun h ↦ ?_, identifiers_kept_of_fusions⟩
  have hlength := length_identifiers_kept l
  rw [h] at hlength
  omega

/-! ### Places between identifiers -/

/-- Literals are apart from what is not one: they end and, behind a comment, begin with a quote. -/
def Quoted (p q : Char × CharClass) : Prop :=
  (p.2 = .literal → q.2 ≠ .literal → p.1 = '"' ∨ p.1 = '\'') ∧
    (p.2 = .comment → q.2 = .literal → q.1 = '"' ∨ q.1 = '\'')

theorem isIdentifierCharacter_quote (h : c = '"' ∨ c = '\'') : isIdentifierCharacter c = false := by
  rcases h with rfl | rfl <;> decide +kernel

theorem Quoted.left_eq_code {q : Char × CharClass} (h : Quoted (c, k) q)
    (hc : isIdentifierCharacter c = true) (hk : k ≠ .comment) (hq : q.2 = .comment) :
    k = .code := by
  cases k with
  | code => rfl
  | comment => exact absurd rfl hk
  | literal =>
    rw [isIdentifierCharacter_quote (h.1 rfl (by rw [hq]; nofun))] at hc
    cases hc

theorem Quoted.right_eq_code (h : Quoted p (c, k)) (hc : isIdentifierCharacter c = true)
    (hk : k ≠ .comment) (hp : p.2 = .comment) :
    k = .code := by
  cases k with
  | code => rfl
  | comment => exact absurd rfl hk
  | literal =>
    rw [isIdentifierCharacter_quote (h.2 hp rfl)] at hc
    cases hc

theorem kept_of_comments {m : List (Char × CharClass)} (h : ∀ p ∈ m, p.2 = .comment) :
    kept m = [] := by
  rw [kept, List.map_eq_nil_iff, List.filter_eq_nil_iff]
  intro p hp
  simp [h p hp]

theorem meets_of_resumes (h : Resumes l b) : meets l = true := by
  obtain ⟨between, after, rfl, hne, hcomment, hb⟩ := h
  obtain ⟨p, between, rfl⟩ := List.exists_cons_of_ne_nil hne
  rw [meets, kept_append, kept_of_comments hcomment, kept_cons (by nofun)]
  simp [beginsComment, hcomment p List.mem_cons_self, Text.beginsIdentifier, hb]

theorem exists_resumes (h : l.IsChain Quoted) (hl : meets l = true) : ∃ b, Resumes l b := by
  induction l with
  | nil => cases hl
  | cons p l ih =>
    obtain ⟨d, k⟩ := p
    rw [meets, Bool.and_eq_true] at hl
    obtain ⟨hcomment, hbegins⟩ := hl
    obtain rfl : k = .comment := by simpa [beginsComment] using hcomment
    cases l with
    | nil => cases hbegins
    | cons q l =>
      obtain ⟨e, k⟩ := q
      by_cases hk : k = .comment
      · -- The comment goes on.
        subst hk
        have hmeets : meets ((e, .comment) :: l) = true := Bool.and_eq_true_iff.mpr ⟨rfl, hbegins⟩
        obtain ⟨b, between, after, heq, -, hbetween, hb⟩ := ih h.tail hmeets
        refine ⟨b, (d, .comment) :: between, after, by rw [heq]; rfl, List.cons_ne_nil _ _, ?_, hb⟩
        exact List.forall_mem_cons.mpr ⟨rfl, hbetween⟩
      · rw [kept_comment, kept_cons hk] at hbegins
        have he : isIdentifierCharacter e = true := hbegins
        obtain rfl := (h.rel_head? rfl).right_eq_code he hk rfl
        exact ⟨e, [(d, .comment)], l, rfl, List.cons_ne_nil _ _, by simp, he⟩

theorem fuses_cons_iff : Fuses (p :: l) a b ↔
    (p = (a, .code) ∧ isIdentifierCharacter a = true ∧ Resumes l b) ∨ Fuses l a b := by
  constructor
  · rintro ⟨before, rest, hl, ha, hb⟩
    cases before with
    | nil =>
      cases hl
      exact .inl ⟨rfl, ha, hb⟩
    | cons q before => exact .inr ⟨before, rest, (List.cons.inj hl).2, ha, hb⟩
  · rintro (⟨rfl, ha, hb⟩ | ⟨before, rest, rfl, ha, hb⟩)
    · exact ⟨[], l, rfl, ha, hb⟩
    · exact ⟨p :: before, rest, rfl, ha, hb⟩

/-- Without the comment the two characters stand next to each other. -/
theorem Fuses.adjacent_trim (h : Fuses l a b) : [a, b] <:+: Text.trim (kept l) := by
  obtain ⟨before, rest, rfl, ha, between, after, rfl, -, hcomment, hb⟩ := h
  have hblank : ∀ {c}, isIdentifierCharacter c = true → isBlank c = false := fun hc ↦ by
    by_contra hblank
    rw [Text.isIdentifierCharacter_of_isBlank (Bool.of_not_eq_false hblank)] at hc
    cases hc
  rw [kept_append, kept_cons (by nofun), kept_append, kept_of_comments hcomment, List.nil_append,
    kept_cons (by nofun), Text.trim, List.append_cons, Text.trimEnd_append_cons (hblank hb),
    List.append_assoc, List.singleton_append, Text.trimStart_append_cons (hblank ha)]
  exact ⟨_, _, by rw [List.append_assoc]; rfl⟩

theorem fusions_eq_zero_iff (h : l.IsChain Quoted) : fusions l = 0 ↔ ∀ a b, ¬Fuses l a b := by
  induction l with
  | nil =>
    refine iff_of_true rfl ?_
    rintro a b ⟨before, rest, hl, -⟩
    simp at hl
  | cons p l ih =>
    obtain ⟨c, k⟩ := p
    -- An identifier that a comment follows is code, so the first place is one of two of code.
    have hplace : (k ≠ .comment ∧ isIdentifierCharacter c = true ∧ meets l = true) ↔
        ∃ a b, (c, k) = (a, .code) ∧ isIdentifierCharacter a = true ∧ Resumes l b := by
      constructor
      · rintro ⟨hk, hc, hmeets⟩
        obtain ⟨b, hb⟩ := exists_resumes h.tail hmeets
        obtain ⟨q, hq, hcomment⟩ : ∃ q ∈ l.head?, q.2 = .comment := by
          simpa [beginsComment, Option.any_eq_true] using (Bool.and_eq_true_iff.mp hmeets).1
        exact ⟨c, b, by rw [(h.rel_head? hq).left_eq_code hc hk hcomment], hc, hb⟩
      · rintro ⟨a, b, heq, ha, hb⟩
        cases heq
        exact ⟨by nofun, ha, meets_of_resumes hb⟩
    rw [fusions, Nat.add_eq_zero_iff, ih h.tail, ite_eq_right_iff, hplace]
    simp only [fuses_cons_iff, not_or, forall_and]
    grind

end Labelled

/-! ## Literals between other characters -/

namespace Scanner

variable {s : Scanner} {c d n m : Char}

/-- A class that was decided before goes with the mode. -/
def Tame (s : Scanner) : Prop :=
  s.pending = none ∨ (s.pending = some .literal ∧ ∃ v i, s.mode = .string v i) ∨
    (s.pending = some .comment ∧ (s.mode = .code ∨ s.mode = .lineComment ∨ s.mode = .blockComment))

theorem Tame.step (h : Tame s) (c n : Char) : Tame (s.step c n).1 := by
  change Tame (s.stepInner c n).1
  rw [stepInner]
  split
  · exact .inl rfl
  split
  · grind [Tame, stepCode, remember, pending_openBrace, pending_closeBrace]
  · grind [Tame]
  · grind [Tame]
  · grind [Tame, stepString, stepEscaping]
  · grind [Tame, stepEscaping]

theorem step_of_holes (h : s.holes ≠ []) : (s.step c n).2 = .literal := by
  obtain ⟨hole, holes, hholes⟩ := List.exists_cons_of_ne_nil h
  simp [step, hholes]

theorem step_of_string {v i : Bool} (hs : Tame s) (h : s.mode = .string v i) :
    (s.step c n).2 = .literal := by
  rw [step, stepInner]
  rcases hs with hp | ⟨hp, -⟩ | ⟨-, hmode⟩
  · simp [hp, h]
  · simp [hp]
  · simp [h] at hmode

theorem step_of_character (hs : Tame s) (h : s.mode = .character) : (s.step c n).2 = .literal := by
  rw [step, stepInner]
  rcases hs with hp | ⟨-, v, i, hmode⟩ | ⟨-, hmode⟩
  · simp [hp, h]
  · simp [h] at hmode
  · simp [h] at hmode

theorem quote_of_literal (hs : Tame s) (hc : (s.step c n).2 = .literal)
    (hd : ((s.step c n).1.step d m).2 ≠ .literal) : c = '"' ∨ c = '\'' := by
  have hnext := hs.step c n
  have hholes : (s.step c n).1.holes = [] := by
    by_contra h
    exact hd (step_of_holes h)
  have hstring : ∀ v i, (s.step c n).1.mode ≠ .string v i := fun v i h ↦ hd (step_of_string hnext h)
  have hcharacter : (s.step c n).1.mode ≠ .character := fun h ↦ hd (step_of_character hnext h)
  simp only [step] at hc hholes hstring hcharacter
  rw [stepInner] at hc hholes hstring hcharacter
  clear hd hnext
  rcases hs with hp | ⟨hp, v, i, hmode⟩ | ⟨hp, hmode⟩
  · rw [hp] at hc hholes hstring hcharacter
    cases hmode : s.mode with
    | code =>
      simp only [hmode] at hc hholes hstring hcharacter
      grind [stepCode, remember, openBrace, closeBrace]
    | lineComment =>
      simp only [hmode] at hc hholes hstring hcharacter
      grind
    | blockComment =>
      simp only [hmode] at hc hholes hstring hcharacter
      grind
    | string v i =>
      simp only [hmode] at hc hholes hstring hcharacter
      grind [stepString, stepEscaping]
    | character =>
      simp only [hmode] at hc hholes hstring hcharacter
      grind [stepEscaping]
  · simp [hp, hmode] at hstring
  · simp_all

/-- The scanner stands in no literal. -/
def Outside (s : Scanner) : Prop :=
  s.holes = [] ∧ s.pending ≠ some .literal ∧
    (s.mode = .code ∨ s.mode = .lineComment ∨ s.mode = .blockComment)

theorem outside_of_comment (hs : Tame s) (hc : (s.step c n).2 = .comment) :
    Outside (s.step c n).1 := by
  simp only [step] at hc ⊢
  rw [stepInner] at hc ⊢
  rcases hs with hp | ⟨hp, v, i, hmode⟩ | ⟨hp, hmode⟩
  · rw [hp] at hc ⊢
    cases hmode : s.mode with
    | code =>
      simp only [hmode] at hc ⊢
      grind [Outside, stepCode, remember, openBrace, closeBrace]
    | lineComment =>
      simp only [hmode] at hc ⊢
      grind [Outside]
    | blockComment =>
      simp only [hmode] at hc ⊢
      grind [Outside]
    | string v i => simp [hmode] at hc
    | character => simp [hmode] at hc
  · simp [hp] at hc
  · grind [Outside]

theorem quote_of_outside (hs : Outside s) (hc : (s.step c n).2 = .literal) :
    c = '"' ∨ c = '\'' := by
  obtain ⟨hholes, hpending, hmode⟩ := hs
  simp only [step] at hc
  rw [stepInner] at hc
  cases hp : s.pending with
  | some k => grind
  | none =>
    simp only [hp] at hc
    rcases hmode with hmode | hmode | hmode <;> simp only [hmode] at hc
    · grind [stepCode, remember, openBrace, closeBrace]
    · grind
    · grind

theorem isChain_labelled (hs : Tame s) (t : Text) : (s.labelled t).IsChain Labelled.Quoted := by
  induction t generalizing s with
  | nil => exact .nil
  | cons c t ih =>
    rw [labelled_cons]
    refine (ih (hs.step c _)).cons fun q hq ↦ ?_
    cases t with
    | nil => cases hq
    | cons d t =>
      rw [labelled_cons, List.head?_cons] at hq
      cases hq
      exact ⟨quote_of_literal hs, fun hc ↦ quote_of_outside (outside_of_comment hs hc)⟩

end Scanner

/-! ## Clauses -/

section Clauses

variable {α : Type} {level : Char → Nat → Nat} {stop? : Nat → Char → Char → Option (α × Nat)}

/-- A clause is what belongs to no comment in front of the sign that ends it. -/
theorem exists_of_clauseFrom {s : Scanner} {depth n : Nat} {t text : Text} {a : α}
    (h : clauseFrom level stop? s depth t = some (text, a, n)) :
    ∃ l c rest depth' k, l <+: s.labelled t ∧ t = l.map Prod.fst ++ c :: rest ∧
      text = Labelled.kept l ∧ stop? depth' c (ahead rest) = some (a, k) ∧ n = l.length + k := by
  induction t generalizing s depth text n with
  | nil => cases h
  | cons c t ih =>
    -- One character more in front, which is kept unless it belongs to a comment.
    have hcons : ∀ {depth' m : Nat} {later : Text},
        clauseFrom level stop? (s.step c (ahead t)).1 depth' t = some (later, a, m) →
        ∀ {text}, text = Labelled.kept [(c, (s.step c (ahead t)).2)] ++ later → n = m + 1 →
        ∃ l d rest depth' k, l <+: s.labelled (c :: t) ∧ c :: t = l.map Prod.fst ++ d :: rest ∧
          text = Labelled.kept l ∧ stop? depth' d (ahead rest) = some (a, k) ∧
          n = l.length + k := by
      intro depth' m later hlater text htext hm
      obtain ⟨l, d, rest, depth'', k, hlabels, ht, rfl, hstop, rfl⟩ := ih hlater
      refine ⟨(c, (s.step c (ahead t)).2) :: l, d, rest, depth'', k, ?_, ?_, ?_, hstop, ?_⟩
      · rw [Scanner.labelled_cons]
        exact List.cons_prefix_cons.mpr ⟨rfl, hlabels⟩
      · rw [List.map_cons, List.cons_append, ← ht]
      · rw [htext, ← Labelled.kept_append, List.singleton_append]
      · rw [hm, List.length_cons]
        omega
    rw [clauseFrom] at h
    cases hclass : (s.step c (ahead t)).2 with
    | comment =>
      simp only [hclass] at h
      obtain ⟨⟨later, b, m⟩, hlater, heq⟩ := Option.map_eq_some_iff.mp h
      obtain ⟨rfl, rfl, rfl⟩ : later = text ∧ b = a ∧ m + 1 = n := by simpa [passOver] using heq
      exact hcons hlater (by rw [hclass]; rfl) rfl
    | literal =>
      simp only [hclass] at h
      obtain ⟨⟨later, b, m⟩, hlater, heq⟩ := Option.map_eq_some_iff.mp h
      obtain ⟨rfl, rfl, rfl⟩ : c :: later = text ∧ b = a ∧ m + 1 = n := by
        simpa [prependTo] using heq
      exact hcons hlater (by rw [hclass]; rfl) rfl
    | code =>
      simp only [hclass] at h
      split at h
      · rename_i b k hstop
        obtain ⟨rfl, rfl, rfl⟩ : [] = text ∧ b = a ∧ k = n := by simpa using h
        exact ⟨[], c, t, depth, k, ⟨_, rfl⟩, rfl, rfl, hstop, (Nat.zero_add k).symm⟩
      · obtain ⟨⟨later, b, m⟩, hlater, heq⟩ := Option.map_eq_some_iff.mp h
        obtain ⟨rfl, rfl, rfl⟩ : c :: later = text ∧ b = a ∧ m + 1 = n := by
          simpa [prependTo] using heq
        exact hcons hlater (by rw [hclass]; rfl) rfl

theorem Reading.exists_kept_of_span {β : Type} {f : Text × α × Nat → β} (sign : α → Text)
    {expected : Text} {cur cur' : Cursor} {b : β}
    (hsign : ∀ {depth c rest a k}, stop? depth c (ahead rest) = some (a, k) →
      c :: rest = sign a ++ (c :: rest).drop k)
    (h : span (fun t ↦ (clauseFrom level stop? {} 0 t).map fun r ↦ (f r, r.2.2)) expected cur =
      .ok b cur') :
    ∃ l a n, l <+: Scanner.labelled {} cur.rest ∧
      cur.rest = l.map Prod.fst ++ (sign a ++ cur'.rest) ∧ b = f (Labelled.kept l, a, n) := by
  obtain ⟨n, hfind, hrest⟩ := span_eq_ok h
  obtain ⟨⟨text, a, m⟩, hfrom, heq⟩ := Option.map_eq_some_iff.mp hfind
  cases heq
  obtain ⟨l, c, rest, depth, k, hlabels, ht, rfl, hstop, rfl⟩ := exists_of_clauseFrom hfrom
  refine ⟨l, a, _, hlabels, ?_, rfl⟩
  have hdrop : cur'.rest = (c :: rest).drop k := by
    rw [hrest, ht, ← List.length_map Prod.fst, List.drop_length_add_append]
  rw [hdrop, ← hsign hstop, ← ht]

end Clauses

/-- The sign that a body starts with. -/
def BodyStart.sign : BodyStart → Text
  | .block => ['\x7b']
  | .expression => ['=', '>']
  | .statement => [';']

namespace Reading

open Labelled

/-- A clause is read up to a sign: an expression up to a semicolon, the tail of a signature up to
the start of the body, or the header of a type up to its brace. -/
inductive ReadsClause (cur : Cursor) : Text → Text → Cursor → Prop
  | statement {text : Text} {cur' : Cursor} (h : statement cur = .ok text cur') :
    ReadsClause cur text [';'] cur'
  | tail {text : Text} {start : BodyStart} {cur' : Cursor} (h : tail cur = .ok (text, start) cur') :
    ReadsClause cur text start.sign cur'
  | header {text : Text} {cur' : Cursor} (h : header cur = .ok text cur') :
    ReadsClause cur text ['\x7b'] cur'

variable {cur cur' : Cursor} {text sign : Text}

variable {depth : Nat} {c : Char} {rest : Text} {a : Unit}

theorem sign_statementStop {k : Nat} (h : statementStop depth c (ahead rest) = some (a, k)) :
    c :: rest = [';'] ++ (c :: rest).drop k := by
  obtain ⟨rfl, rfl⟩ := statementStop_eq_some h
  rfl

theorem sign_headerStop {k : Nat} (h : headerStop depth c (ahead rest) = some (a, k)) :
    c :: rest = ['\x7b'] ++ (c :: rest).drop k := by
  obtain ⟨rfl, rfl⟩ := headerStop_eq_some h
  rfl

theorem sign_tailStop {k : Nat} {a : BodyStart} (h : tailStop depth c (ahead rest) = some (a, k)) :
    c :: rest = a.sign ++ (c :: rest).drop k := by
  obtain ⟨rfl, rfl, rfl⟩ | ⟨rfl, rfl, rfl⟩ | ⟨rfl, rfl, hnext, rfl⟩ := tailStop_eq_some h
  · rfl
  · rfl
  · cases rest with
    | nil => exact absurd hnext (by decide)
    | cons d rest =>
      obtain rfl : d = '>' := hnext
      rfl

theorem ReadsClause.exists_kept (h : ReadsClause cur text sign cur') :
    ∃ l, l <+: Scanner.labelled {} cur.rest ∧
      cur.rest = l.map Prod.fst ++ (sign ++ cur'.rest) ∧ text = Text.trim (kept l) := by
  cases h with
  | statement h =>
    have hspan : statementSpan = fun t ↦ (clauseFrom levelAfter statementStop {} 0 t).map fun r ↦
        (Text.trim r.1, r.2.2) := funext fun t ↦ by rw [statementSpan, statementFrom_eq]
    rw [Reading.statement, hspan] at h
    obtain ⟨l, _, _, hlabels, hrest, htext⟩ :=
      exists_kept_of_span (fun _ ↦ [';']) sign_statementStop h
    exact ⟨l, hlabels, hrest, htext⟩
  | tail h =>
    have hspan : tailSpan = fun t ↦ (clauseFrom roundLevelAfter tailStop {} 0 t).map fun r ↦
        ((Text.trim r.1, r.2.1), r.2.2) := funext fun t ↦ by rw [tailSpan, tailFrom_eq]
    rw [Reading.tail, hspan] at h
    obtain ⟨l, a, _, hlabels, hrest, htext⟩ := exists_kept_of_span _ sign_tailStop h
    cases htext
    exact ⟨l, hlabels, hrest, rfl⟩
  | header h =>
    have hspan : headerSpan = fun t ↦ (clauseFrom (fun _ l ↦ l) headerStop {} 0 t).map fun r ↦
        (Text.trim r.1, r.2.2) := funext fun t ↦ by rw [headerSpan, headerFrom_eq]
    rw [Reading.header, hspan] at h
    obtain ⟨l, _, _, hlabels, hrest, htext⟩ :=
      exists_kept_of_span (fun _ ↦ ['\x7b']) sign_headerStop h
    exact ⟨l, hlabels, hrest, htext⟩

/-- **Comments between identifiers.** A clause is what belongs to no comment in front of the sign at
its end, without blanks at either end. Two characters of code that may stand in identifiers and that
only a comment keeps apart stand next to each other in it. Its identifiers are those of the
stretches between the comments exactly if there are no such two. -/
theorem identifiers_eq_iff (h : ReadsClause cur text sign cur') :
    ∃ l, l <+: Scanner.labelled {} cur.rest ∧
      cur.rest = l.map Prod.fst ++ (sign ++ cur'.rest) ∧ text = Text.trim (kept l) ∧
      (∀ a b, Fuses l a b → [a, b] <:+: text) ∧
      (text.identifiers = (stretches l).flatMap Text.identifiers ↔ ∀ a b, ¬Fuses l a b) := by
  obtain ⟨l, hlabels, hrest, rfl⟩ := h.exists_kept
  refine ⟨l, hlabels, hrest, rfl, fun a b hfuses ↦ hfuses.adjacent_trim, ?_⟩
  have hchain : l.IsChain Quoted := by
    rw [List.prefix_iff_eq_take.mp hlabels]
    exact (Scanner.isChain_labelled (.inl rfl) cur.rest).take _
  rw [Text.identifiers_trim, identifiers_kept_iff, fusions_eq_zero_iff hchain]

theorem ReadsClause.of_statementSpan {t : Text} {n : Nat} (h : statementSpan t = some (text, n)) :
    ReadsClause (Cursor.start t) text [';'] ((Cursor.start t).skip n) := by
  refine .statement ?_
  have hrest : statementSpan (Cursor.start t).rest = some (text, n) := h
  rw [Reading.statement, span, hrest]

/-- An expression with a comment between two names, one in a literal, and one that ends with its
line. -/
def gapSource : Text := "a/*,*/b + \"c/**/d\" // e\n f; g".toList

/-- The first comment joins the two names, so that there is one name fewer than before. -/
theorem identifiers_eq_iff_gapSource : ∃ l, Fuses l 'a' 'b' ∧
    ['a', 'b'] <:+: "ab + \"c/**/d\" \n f".toList ∧
    Text.identifiers "ab + \"c/**/d\" \n f".toList ≠ (stretches l).flatMap Text.identifiers := by
  have hread : statementSpan gapSource = some ("ab + \"c/**/d\" \n f".toList, 27) := by
    decide +kernel
  obtain ⟨l, hlabels, hrest, -, hadjacent, hiff⟩ :=
    identifiers_eq_iff (ReadsClause.of_statementSpan hread)
  have hlength : l.length = 26 := by
    have hsum := congrArg List.length hrest
    rw [List.length_append, List.length_map,
      show (Cursor.start gapSource).rest.length = 26 + 3 by decide +kernel,
      show ([';'] ++ ((Cursor.start gapSource).skip 27).rest).length = 3 by decide +kernel] at hsum
    omega
  have hfuses : Fuses l 'a' 'b' := by
    rw [List.prefix_iff_eq_take, hlength] at hlabels
    rw [hlabels]
    refine ⟨[], ((Scanner.labelled {} gapSource).take 26).drop 1, by decide +kernel,
      by decide +kernel, ((Scanner.labelled {} gapSource).take 6).drop 1,
      ((Scanner.labelled {} gapSource).take 26).drop 7, ?_⟩
    decide +kernel
  exact ⟨l, hfuses, hadjacent _ _ hfuses, fun h ↦ hiff.mp h _ _ hfuses⟩

/-- A comment between two names joins them. -/
theorem not_forall_identifiers_eq : ¬∀ cur text sign cur', ReadsClause cur text sign cur' →
    ∀ l, l <+: Scanner.labelled {} cur.rest → cur.rest = l.map Prod.fst ++ (sign ++ cur'.rest) →
      text.identifiers = (stretches l).flatMap Text.identifiers := by
  intro h
  have hread : statementSpan "a/**/b;".toList = some ("ab".toList, 7) := by decide +kernel
  have heq := h _ _ _ _ (ReadsClause.of_statementSpan hread)
    ((Scanner.labelled {} "a/**/b;".toList).take 6) ⟨_, List.take_append_drop _ _⟩
    (by decide +kernel)
  exact absurd heq (by decide +kernel)

end Reading

end SharpOutline
