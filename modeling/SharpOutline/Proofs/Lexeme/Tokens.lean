import SharpOutline.Lexeme.Scanner
import SharpOutline.Text.Basic

/-!
# Token sequences and their classes

The scanner labels characters one at a time. What it ought to do is said of tokens: a comment is
comment from its first character to its last, a literal is literal from its opening quote to its
closing one, and all else is code. This file says what a token sequence is and proves that the
scanner labels the text of every well-formed one as its tokens say.

## The grammar

Code and the insides of literals are two types that contain each other, `Tokens` and `Pieces`: a
literal holds pieces, and a piece may be a hole, which holds tokens. Both are sequences by their own
constructors. A token that depends on what follows it says so of the text of the rest.

## The invariant

Between two tokens the scanner is in code mode and has nothing pending (`Scanner.ready`), between
two pieces it is in the mode of the literal (`Scanner.within`). The two characters that the scanner
remembers matter only in front of a quote, where they may be a sign; so all that a token leaves
behind is whether the last one can be (`Scanner.Quiet`). Reading part of a text is described by
`Scanner.Reads`, for any text that follows, and composes.
-/

namespace SharpOutline

/-! ## Tokens -/

/-- How a literal opens, the signs of a string in the order in which they are written. -/
inductive Opening where
  | character
  | regular
  | verbatim
  | interpolated
  | interpolatedVerbatim
  | verbatimInterpolated
deriving DecidableEq, Repr

namespace Opening

def signs : Opening → Text
  | character | regular => []
  | verbatim => ['@']
  | interpolated => ['$']
  | interpolatedVerbatim => ['$', '@']
  | verbatimInterpolated => ['@', '$']

def quote : Opening → Char
  | character => '\''
  | _ => '"'

/-- A quote in the literal is written twice, and a backslash is a character like any other. -/
def isVerbatim (o : Opening) : Bool := o.signs.contains '@'

/-- The literal may have holes. -/
def isInterpolated (o : Opening) : Bool := o.signs.contains '$'

end Opening

mutual

/-- A sequence of tokens. -/
inductive Tokens where
  | nil
  | plain (c : Char) (rest : Tokens)
  | lineComment (body : Text) (rest : Tokens)
  | blockComment (body : Text) (rest : Tokens)
  | literal (opening : Opening) (body : Pieces) (rest : Tokens)
deriving Repr

/-- What stands between the quotes of a literal. -/
inductive Pieces where
  | nil
  | letter (c : Char) (rest : Pieces)
  | escape (c : Char) (rest : Pieces)
  | twice (c : Char) (rest : Pieces)
  | hole (code : Tokens) (rest : Pieces)
deriving Repr

end

mutual

def Tokens.text : Tokens → Text
  | .nil => []
  | .plain c rest => c :: rest.text
  | .lineComment body rest => ['/', '/'] ++ (body ++ '\n' :: rest.text)
  | .blockComment body rest => ['/', '*'] ++ (body ++ '*' :: '/' :: rest.text)
  | .literal o body rest => o.signs ++ o.quote :: (body.text ++ o.quote :: rest.text)

def Pieces.text : Pieces → Text
  | .nil => []
  | .letter c rest => c :: rest.text
  | .escape c rest => '\\' :: c :: rest.text
  | .twice c rest => c :: c :: rest.text
  | .hole code rest => '\x7b' :: (code.text ++ '\x7d' :: rest.text)

end

def Tokens.classes : Tokens → List CharClass
  | .nil => []
  | .plain _ rest => .code :: rest.classes
  | .lineComment body rest => .replicate (body.length + 2) .comment ++ .code :: rest.classes
  | .blockComment body rest => .replicate (body.length + 4) .comment ++ rest.classes
  | .literal o body rest =>
    .replicate o.signs.length .code ++ .replicate (body.text.length + 2) .literal ++ rest.classes

/-- Every brace of code in the sequence closes one that is open, and in the end none is; `depth` of
them are open in the beginning. -/
def Tokens.closes (depth : Nat) : Tokens → Bool
  | .nil => depth == 0
  | .plain c rest =>
    if c = '\x7b' then rest.closes (depth + 1)
    else if c = '\x7d' then 0 < depth && rest.closes (depth - 1)
    else rest.closes depth
  | .lineComment _ rest | .blockComment _ rest | .literal _ _ rest => rest.closes depth

mutual

/-- The tokens are what they seem. No character of code opens a literal or, with its successor, a
comment; comments and literals end where they say; and the signs of a string are all that stand in
front of it. `clear` says that no such sign stands in front of the whole sequence. -/
def Tokens.wellFormed (clear : Bool) : Tokens → Bool
  | .nil => true
  | .plain c rest =>
    c != '"' && c != '\'' && (c != '/' || (ahead rest.text != '/' && ahead rest.text != '*')) &&
      rest.wellFormed (c != '@' && c != '$')
  | .lineComment body rest => !body.contains '\n' && rest.wellFormed true
  | .blockComment body rest => !Text.includes ['*', '/'] body && rest.wellFormed true
  | .literal o body rest =>
    (clear || o == .character) && body.fits o && (!o.isVerbatim || ahead rest.text != '"') &&
      rest.wellFormed true

/-- The pieces can stand in a literal that opens in this way. A hole is well-formed code with
balanced braces, and does not look like a brace written twice. -/
def Pieces.fits (o : Opening) : Pieces → Bool
  | .nil => true
  | .letter c rest =>
    c != o.quote && (o.isVerbatim || c != '\\') &&
      (!o.isInterpolated || (c != '\x7b' && c != '\x7d')) && rest.fits o
  | .escape _ rest => !o.isVerbatim && rest.fits o
  | .twice c rest =>
    (o.isVerbatim && c == o.quote || o.isInterpolated && (c == '\x7b' || c == '\x7d')) &&
      rest.fits o
  | .hole code rest =>
    o.isInterpolated && code.wellFormed true && code.closes 0 && ahead code.text != '\x7b' &&
      rest.fits o

end

def Opening.mode : Opening → LexicalMode
  | .character => .character
  | o => .string o.isVerbatim o.isInterpolated

theorem cons_replicate_append_cons {α : Type} (n : Nat) (a : α) (l : List α) :
    a :: (.replicate n a ++ a :: l) = .replicate (n + 2) a ++ l := by
  rw [List.replicate_succ, List.replicate_succ', List.cons_append, List.append_assoc,
    List.singleton_append]

theorem ahead_append_ne {u v : Text} {c : Char} (hu : ahead u ≠ c) (hv : ahead v ≠ c) :
    ahead (u ++ v) ≠ c := by
  cases u with
  | nil => exact hv
  | cons x u => exact hu

namespace Scanner

/-! ## States between tokens and between pieces -/

/-- The state between two tokens. -/
def ready (holes : List Hole) (last beforeLast : Char) : Scanner := { last, beforeLast, holes }

/-- The state between two pieces of a literal. -/
def within (o : Opening) (holes : List Hole) (last beforeLast : Char) : Scanner :=
  { mode := o.mode, last, beforeLast, holes }

/-- The character is no sign of a string. -/
def Quiet (c : Char) : Prop := c ≠ '@' ∧ c ≠ '$'

/-- The class of a character that stands in these holes. -/
def label (holes : List Hole) (k : CharClass) : CharClass := if holes.isEmpty then k else .literal

/-- The holes, with this many braces open in the innermost one besides its own. -/
def deepened (depth : Nat) : List Hole → List Hole
  | [] => []
  | h :: outer => { h with depth := depth + 1 } :: outer

@[simp] theorem isEmpty_deepened (d : Nat) (holes : List Hole) :
    (deepened d holes).isEmpty = holes.isEmpty := by
  cases holes <;> rfl

@[simp] theorem label_deepened (d : Nat) (holes : List Hole) (k : CharClass) :
    label (deepened d holes) k = label holes k := by
  rw [label, isEmpty_deepened, label]

@[simp] theorem label_literal (holes : List Hole) : label holes .literal = .literal := by
  simp [label]

theorem map_label_nil (ks : List CharClass) : ks.map (label []) = ks := List.map_id' ks

theorem map_label_cons (h : Hole) (holes : List Hole) (ks : List CharClass) :
    ks.map (label (h :: holes)) = .replicate ks.length .literal := List.map_const' ..

/-- From the state `s`, the text `u` in front of `v` is labelled with `ks` and leads to `r`. -/
structure Reads (s : Scanner) (u v : Text) (r : Scanner) (ks : List CharClass) : Prop where
  after_eq : s.after (u ++ v) = r.after v
  classes_eq : s.classes (u ++ v) = ks ++ r.classes v

namespace Reads

variable {s r q : Scanner} {u v w : Text} {ks ls : List CharClass} {c : Char} {k : CharClass}

theorem nil : Reads s [] v s [] := ⟨rfl, rfl⟩

theorem cons (hstep : s.step c (ahead (u ++ v)) = (r, k)) (h : Reads r u v q ks) :
    Reads s (c :: u) v q (k :: ks) where
  after_eq := by
    rw [List.cons_append, after, hstep, h.after_eq]
  classes_eq := by
    rw [List.cons_append, classes, hstep, h.classes_eq]
    rfl

theorem append (h : Reads s u (w ++ v) r ks) (h' : Reads r w v q ls) :
    Reads s (u ++ w) v q (ks ++ ls) where
  after_eq := by
    rw [List.append_assoc, h.after_eq, h'.after_eq]
  classes_eq := by
    rw [List.append_assoc, h.classes_eq, h'.classes_eq, List.append_assoc]

theorem length_eq (h : Reads s u v r ks) : ks.length = u.length := by
  have hlength := congrArg List.length h.classes_eq
  simpa using hlength.symm

theorem stay (h : ∀ c ∈ u, ∀ n, s.step c n = (s, k)) :
    Reads s u v s (.replicate u.length k) := by
  induction u with
  | nil => exact nil
  | cons c u ih => exact cons (h c (by simp) _) (ih fun x hx ↦ h x (by simp [hx]))

end Reads

variable {holes : List Hole} {l b c n : Char} {d : Nat} {o : Opening}

/-! ## Steps in code -/

theorem step_plain (hq : c ≠ '"') (ha : c ≠ '\'') (hs : c = '/' → n ≠ '/' ∧ n ≠ '*')
    (ho : c ≠ '\x7b') (hc : c ≠ '\x7d') :
    (ready holes l b).step c n = (ready holes c l, label holes .code) := by
  have hline : ¬(c = '/' ∧ n = '/') := fun h ↦ (hs h.1).1 h.2
  have hblock : ¬(c = '/' ∧ n = '*') := fun h ↦ (hs h.1).2 h.2
  simp [step, stepInner, stepCode, ready, remember, label, hline, hblock, hq, ha, ho, hc]

theorem step_open : (ready (deepened d holes) l b).step '\x7b' n =
    (ready (deepened (d + 1) holes) '\x7b' l, label holes .code) := by
  cases holes <;> simp [step, stepInner, stepCode, ready, remember, label, openBrace, deepened]

theorem step_close (h : holes = [] ∨ 0 < d) : (ready (deepened d holes) l b).step '\x7d' n =
    (ready (deepened (d - 1) holes) '\x7d' l, label holes .code) := by
  cases holes with
  | nil => simp [step, stepInner, stepCode, ready, remember, label, closeBrace, deepened]
  | cons hole outer =>
    obtain ⟨d, rfl⟩ := Nat.exists_eq_succ_of_ne_zero
      (by simpa [Nat.pos_iff_ne_zero] using h : d ≠ 0)
    simp [step, stepInner, stepCode, ready, remember, label, closeBrace, deepened]

/-! ## Steps in literals -/

open Opening

theorem step_letter (hq : c ≠ o.quote) (he : o.isVerbatim = true ∨ c ≠ '\\')
    (hi : o.isInterpolated = false ∨ c ≠ '\x7b' ∧ c ≠ '\x7d') :
    (within o holes l b).step c n = (within o holes l b, .literal) := by
  cases o <;> simp_all [step, stepInner, stepString, stepEscaping, within, Opening.mode,
    quote, isVerbatim, isInterpolated, signs]

theorem step_quote (hn : o.isVerbatim = true → n ≠ '"') :
    (within o holes l b).step o.quote n = (ready holes l b, .literal) := by
  cases o <;> simp_all [step, stepInner, stepString, stepEscaping, within, ready, Opening.mode,
    Opening.quote, Opening.isVerbatim, Opening.isInterpolated, Opening.signs]

theorem reads_escape {v : Text} (h : o.isVerbatim = false) :
    Reads (within o holes l b) ['\\', c] v (within o holes l b) [.literal, .literal] := by
  refine .cons (r := { within o holes l b with escaped := true }) ?_ (.cons ?_ .nil)
  all_goals cases o <;> simp_all [step, stepInner, stepString, stepEscaping, within, Opening.mode,
    Opening.isVerbatim, Opening.isInterpolated, Opening.signs]

theorem reads_twice {v : Text} (h : o.isVerbatim = true ∧ c = o.quote ∨
      o.isInterpolated = true ∧ (c = '\x7b' ∨ c = '\x7d')) :
    Reads (within o holes l b) [c, c] v (within o holes l b) [.literal, .literal] := by
  refine .cons (r := { within o holes l b with pending := some .literal }) ?_ (.cons ?_ .nil)
  · rcases h with ⟨h, rfl⟩ | ⟨h, rfl | rfl⟩ <;> cases o <;>
      simp_all [step, stepInner, stepString, within, Opening.mode, Opening.quote,
        Opening.isVerbatim, Opening.isInterpolated, Opening.signs]
  · simp [step, stepInner, within]

theorem step_hole (ho : o.isInterpolated = true) (hn : n ≠ '\x7b') :
    (within o holes l b).step '\x7b' n =
      (ready (deepened 0 (⟨o.isVerbatim, 1⟩ :: holes)) '\x7b' b, .literal) := by
  cases o <;> simp_all [step, stepInner, stepString, within, ready, deepened, Opening.mode,
    Opening.isVerbatim, Opening.isInterpolated, Opening.signs]

theorem step_hole_end (ho : o.isInterpolated = true) :
    (ready (deepened 0 (⟨o.isVerbatim, 1⟩ :: holes)) l b).step '\x7d' n =
      (within o holes '\x7d' l, .literal) := by
  cases o <;> simp_all [step, stepInner, stepCode, closeBrace, remember, within, ready, deepened,
    Opening.mode, Opening.isVerbatim, Opening.isInterpolated, Opening.signs]

/-! ## Reading comments and openings -/

theorem reads_lineComment {body v : Text} (h : '\n' ∉ body) :
    Reads (ready holes l b) (['/', '/'] ++ (body ++ ['\n'])) v (ready holes '/' l)
      (.replicate (body.length + 2) (label holes .comment) ++ [label holes .code]) := by
  have hbody : Reads { ready holes '/' l with mode := .lineComment } body (['\n'] ++ v)
      { ready holes '/' l with mode := .lineComment }
      (.replicate body.length (label holes .comment)) := by
    refine .stay fun c hc n ↦ ?_
    have hc : c ≠ '\n' := fun hn ↦ h (hn ▸ hc)
    simp [step, stepInner, ready, label, hc]
  refine .cons (r := { ready holes '/' l with mode := .lineComment, pending := some .comment }) ?_
    (.cons (r := { ready holes '/' l with mode := .lineComment }) ?_ (hbody.append (.cons ?_ .nil)))
  · simp [step, stepInner, stepCode, remember, ready, label]
  · simp [step, stepInner, ready, label]
  · simp [step, stepInner, ready, label]

theorem step_blockBody (h : ¬(c = '*' ∧ n = '/')) :
    step { ready holes l b with mode := .blockComment } c n =
      ({ ready holes l b with mode := .blockComment }, label holes .comment) := by
  simp [step, stepInner, ready, label, h]

theorem reads_blockBody {body v : Text} (h : Text.includes ['*', '/'] body = false) :
    Reads { ready holes l b with mode := .blockComment } (body ++ ['*', '/']) v (ready holes l b)
      (.replicate (body.length + 2) (label holes .comment)) := by
  induction body with
  | nil =>
    refine .cons (r := { ready holes l b with pending := some .comment }) ?_ (.cons ?_ .nil)
    · simp [step, stepInner, ready, label]
    · simp [step, stepInner, ready, label]
  | cons c body ih =>
    rw [Text.includes, Bool.or_eq_false_iff] at h
    refine .cons (step_blockBody ?_) (ih h.2)
    rintro ⟨rfl, hn⟩
    cases body with
    | nil => simp at hn
    | cons x body =>
      obtain rfl : x = '/' := hn
      simp [List.isPrefixOf] at h

theorem reads_blockComment {body v : Text} (h : Text.includes ['*', '/'] body = false) :
    Reads (ready holes l b) (['/', '*'] ++ (body ++ ['*', '/'])) v (ready holes '/' l)
      (.replicate (body.length + 4) (label holes .comment)) := by
  refine .cons (r := { ready holes '/' l with mode := .blockComment, pending := some .comment }) ?_
    (.cons (r := { ready holes '/' l with mode := .blockComment }) ?_ (reads_blockBody h))
  · simp [step, stepInner, stepCode, remember, ready, label]
  · simp [step, stepInner, ready, label]

/-- A quote in code: the last two characters decide what it opens. -/
theorem step_string (hv : (l == '@' || (l == '$' && b == '@')) = o.isVerbatim)
    (hi : (l == '$' || (l == '@' && b == '$')) = o.isInterpolated) (ho : o ≠ .character) :
    (ready holes l b).step '"' n = (within o holes '"' l, .literal) := by
  have hm : o.mode = .string o.isVerbatim o.isInterpolated := by
    cases o <;> first | rfl | exact absurd rfl ho
  simp [step, stepInner, stepCode, remember, ready, within, hv, hi, hm]

theorem reads_opening {v : Text} (h : Quiet l ∨ o = .character) :
    ∃ b', Reads (ready holes l b) (o.signs ++ [o.quote]) v (within o holes o.quote b')
      (.replicate o.signs.length (label holes .code) ++ [.literal]) := by
  have sign {l b c n : Char} (hc : c = '@' ∨ c = '$') :
      (ready holes l b).step c n = (ready holes c l, label holes .code) := by
    refine step_plain ?_ ?_ ?_ ?_ ?_ <;> rcases hc with rfl | rfl <;> simp
  cases o with
  | character =>
    refine ⟨l, .cons ?_ .nil⟩
    simp [step, stepInner, stepCode, remember, ready, within, Opening.quote, Opening.mode]
  | regular =>
    have hl : Quiet l := by simpa using h
    refine ⟨l, .cons (step_string ?_ ?_ (by decide)) .nil⟩
    · simp [hl.1, hl.2, Opening.isVerbatim, Opening.signs]
    · simp [hl.1, hl.2, Opening.isInterpolated, Opening.signs]
  | verbatim =>
    have hl : Quiet l := by simpa using h
    refine ⟨'@', .cons (sign (.inl rfl)) (.cons (step_string ?_ ?_ (by decide)) .nil)⟩
    · simp [Opening.isVerbatim, Opening.signs]
    · simp [hl.2, Opening.isInterpolated, Opening.signs]
  | interpolated =>
    have hl : Quiet l := by simpa using h
    refine ⟨'$', .cons (sign (.inr rfl)) (.cons (step_string ?_ ?_ (by decide)) .nil)⟩
    · simp [hl.1, Opening.isVerbatim, Opening.signs]
    · simp [Opening.isInterpolated, Opening.signs]
  | interpolatedVerbatim =>
    exact ⟨'@', .cons (sign (.inr rfl)) (.cons (sign (.inl rfl))
      (.cons (step_string rfl rfl (by decide)) .nil))⟩
  | verbatimInterpolated =>
    exact ⟨'$', .cons (sign (.inl rfl)) (.cons (sign (.inr rfl))
      (.cons (step_string rfl rfl (by decide)) .nil))⟩

end Scanner

/-! ## Reading tokens and pieces -/

open Scanner

theorem quiet_quote (o : Opening) : Quiet o.quote := by
  cases o <;> exact ⟨by decide, by decide⟩

mutual

/-- The text of a well-formed sequence is labelled as its tokens say, up to the holes around it, and
leaves these holes as they were. -/
theorem Tokens.reads (ts : Tokens) (holes : List Hole) {clear : Bool} {d : Nat} {l b : Char}
    {v : Text}
    (hts : ts.wellFormed clear = true) (hl : clear = true → Quiet l)
    (hd : holes = [] ∨ ts.closes d = true)
    (hv : ahead v ≠ '/' ∧ ahead v ≠ '*' ∧ ahead v ≠ '"') :
    ∃ l' b', Reads (ready (deepened d holes) l b) ts.text v (ready (deepened 0 holes) l' b')
      (ts.classes.map (label holes)) := by
  cases ts with
  | nil =>
    have hd : deepened d holes = deepened 0 holes := by
      rcases hd with rfl | hd
      · rfl
      · rw [eq_of_beq hd]
    exact ⟨l, b, hd ▸ .nil⟩
  | plain c rest =>
    simp only [Tokens.wellFormed, Bool.and_eq_true, Bool.or_eq_true, bne_iff_ne, ne_eq] at hts
    obtain ⟨⟨⟨hq, ha⟩, hs⟩, hrest⟩ := hts
    rw [Tokens.closes] at hd
    by_cases ho : c = '\x7b'
    · subst ho
      obtain ⟨l', b', h⟩ := rest.reads holes (l := '\x7b') (b := l) hrest
        (fun _ ↦ ⟨by decide, by decide⟩) hd hv
      exact ⟨l', b', .cons step_open h⟩
    · by_cases hc : c = '\x7d'
      · subst hc
        -- in a hole, this brace closes one that the hole has opened, never the hole itself
        rw [if_neg ho, if_pos rfl, Bool.and_eq_true, decide_eq_true_eq] at hd
        obtain ⟨l', b', h⟩ := rest.reads holes (l := '\x7d') (b := l) hrest
          (fun _ ↦ ⟨by decide, by decide⟩) (hd.imp_right And.right) hv
        exact ⟨l', b', .cons (step_close (hd.imp_right And.left)) h⟩
      · rw [if_neg ho, if_neg hc] at hd
        obtain ⟨l', b', h⟩ := rest.reads holes (l := c) (b := l) hrest
          (fun h ↦ by simpa [Quiet] using h) hd hv
        have hstep : (ready (deepened d holes) l b).step c (ahead (rest.text ++ v)) =
            (ready (deepened d holes) c l, label holes .code) := by
          rw [← label_deepened d]
          refine step_plain hq ha (fun hslash ↦ ?_) ho hc
          have hs := hs.resolve_left fun h ↦ h hslash
          exact ⟨ahead_append_ne hs.1 hv.1, ahead_append_ne hs.2 hv.2.1⟩
        exact ⟨l', b', .cons hstep h⟩
  | lineComment body rest =>
    simp only [Tokens.wellFormed, Bool.and_eq_true, Bool.not_eq_true', List.contains_eq_mem,
      decide_eq_false_iff_not] at hts
    obtain ⟨l', b', h⟩ := rest.reads holes (l := '/') (b := l) hts.2
      (fun _ ↦ ⟨by decide, by decide⟩) hd hv
    refine ⟨l', b', ?_⟩
    simpa [Tokens.text, Tokens.classes] using (reads_lineComment hts.1).append h
  | blockComment body rest =>
    simp only [Tokens.wellFormed, Bool.and_eq_true, Bool.not_eq_true'] at hts
    obtain ⟨l', b', h⟩ := rest.reads holes (l := '/') (b := l) hts.2
      (fun _ ↦ ⟨by decide, by decide⟩) hd hv
    refine ⟨l', b', ?_⟩
    simpa [Tokens.text, Tokens.classes] using (reads_blockComment hts.1).append h
  | literal o body rest =>
    simp only [Tokens.wellFormed, Bool.and_eq_true, Bool.or_eq_true, Bool.not_eq_true', bne_iff_ne,
      beq_iff_eq, ne_eq] at hts
    obtain ⟨⟨⟨hclear, hbody⟩, hnext⟩, hrest⟩ := hts
    -- the signs in front of the quote are all of them only because no sign precedes the token
    obtain ⟨b₁, hopening⟩ := reads_opening (hclear.imp_left hl)
    obtain ⟨l₂, b₂, hl₂, hpieces⟩ := body.reads hbody (quiet_quote o)
    obtain ⟨l', b', h⟩ := rest.reads holes hrest (fun _ ↦ hl₂) hd hv
    have hquote : (within o (deepened d holes) l₂ b₂).step o.quote (ahead (rest.text ++ v)) =
        (ready (deepened d holes) l₂ b₂, .literal) :=
      step_quote fun hverbatim ↦ ahead_append_ne (hnext.resolve_left (by simp [hverbatim])) hv.2.2
    refine ⟨l', b', ?_⟩
    have h := hopening.append (hpieces.append (.cons hquote h))
    simpa [Tokens.text, Tokens.classes, cons_replicate_append_cons] using h

/-- Pieces that fit into a literal keep the scanner in it. -/
theorem Pieces.reads (ps : Pieces) {o : Opening} {holes : List Hole} {l b : Char} {v : Text}
    (hps : ps.fits o = true) (hl : Quiet l) :
    ∃ l' b', Quiet l' ∧ Reads (within o holes l b) ps.text v (within o holes l' b')
      (.replicate ps.text.length .literal) := by
  cases ps with
  | nil => exact ⟨l, b, hl, .nil⟩
  | letter c rest =>
    simp only [Pieces.fits, Bool.and_eq_true, Bool.or_eq_true, Bool.not_eq_true', bne_iff_ne, ne_eq]
      at hps
    obtain ⟨⟨⟨hq, he⟩, hi⟩, hrest⟩ := hps
    obtain ⟨l', b', hl', h⟩ := rest.reads hrest hl
    exact ⟨l', b', hl', .cons (step_letter hq he hi) h⟩
  | escape c rest =>
    simp only [Pieces.fits, Bool.and_eq_true, Bool.not_eq_true'] at hps
    obtain ⟨l', b', hl', h⟩ := rest.reads hps.2 hl
    exact ⟨l', b', hl', (reads_escape hps.1).append h⟩
  | twice c rest =>
    simp only [Pieces.fits, Bool.and_eq_true, Bool.or_eq_true, beq_iff_eq] at hps
    obtain ⟨l', b', hl', h⟩ := rest.reads hps.2 hl
    exact ⟨l', b', hl', (reads_twice hps.1).append h⟩
  | hole code rest =>
    simp only [Pieces.fits, Bool.and_eq_true, bne_iff_ne, ne_eq] at hps
    obtain ⟨⟨⟨⟨ho, hcode⟩, hcloses⟩, hnext⟩, hrest⟩ := hps
    obtain ⟨l₁, b₁, hinner⟩ := code.reads (⟨o.isVerbatim, 1⟩ :: holes)
      (l := '\x7b') (b := b) (v := '\x7d' :: (rest.text ++ v))
      hcode (fun _ ↦ ⟨by decide, by decide⟩) (.inr hcloses) (by simp)
    obtain ⟨l', b', hl', h⟩ := rest.reads (o := o) (l := '\x7d') (b := l₁) hrest
      ⟨by decide, by decide⟩
    have hfirst : ahead (code.text ++ '\x7d' :: rest.text ++ v) ≠ '\x7b' := by
      rw [List.append_assoc]
      exact ahead_append_ne hnext (by simp)
    have hcodes : code.classes.length = code.text.length := by simpa using hinner.length_eq
    have hlength : code.text.length + 2 + rest.text.length =
        (Pieces.hole code rest).text.length := by
      simp [Pieces.text]
      omega
    -- within a hole everything is a literal, whatever the tokens of the hole say
    rw [map_label_cons, hcodes] at hinner
    refine ⟨l', b', hl', ?_⟩
    rw [← hlength, ← List.replicate_append_replicate, ← cons_replicate_append_cons]
    exact .cons (step_hole ho hfirst) (hinner.append (.cons (step_hole_end ho) h))

end

/-- **The scanner knows tokens.** The text of every well-formed token sequence is labelled as the
tokens say: comments as comment, except for the newline that ends a line comment, literals as
literal from quote to quote with all that is in their holes, and the rest as code. After the last
token the scanner is in code. -/
theorem Scanner.classes_text (ts : Tokens) (h : ts.wellFormed true = true) :
    classes {} ts.text = ts.classes ∧ (after {} ts.text).inCode = true := by
  obtain ⟨l, b, hreads⟩ := ts.reads [] (d := 0) (l := endMark) (b := endMark) (v := []) h
    (fun _ ↦ ⟨by decide, by decide⟩) (.inl rfl) ⟨by decide, by decide, by decide⟩
  constructor
  · simpa [map_label_nil, classes, ready, deepened] using hreads.classes_eq
  · have hafter := hreads.after_eq
    rw [List.append_nil] at hafter
    exact congrArg inCode hafter

/-- A verbatim string in the hole of another string, with a hole of its own, in front of a comment:
the text is `($"{{{f@$"\{x}"""}")//}` and a newline. -/
def Tokens.nested : Tokens :=
  .plain '(' (.literal .interpolated
    (.twice '\x7b' (.hole (.plain 'f' (.literal .verbatimInterpolated
      (.letter '\\' (.hole (.plain 'x' .nil) (.twice '"' .nil))) .nil)) .nil))
    (.plain ')' (.lineComment ['\x7d'] .nil)))

theorem Scanner.classes_text_nested : Tokens.nested.wellFormed true = true ∧
    classes {} Tokens.nested.text = Tokens.nested.classes ∧
      (after {} Tokens.nested.text).inCode = true :=
  ⟨by decide, Scanner.classes_text Tokens.nested (by decide)⟩

end SharpOutline
