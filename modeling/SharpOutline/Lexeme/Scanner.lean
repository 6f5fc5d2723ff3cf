import SharpOutline.Text.Blank

/-!
# Characters of code, literals and comments

Brackets, separators and keywords count only in code, so everything that cuts source text first
has to know which of its characters are code. The scanner decides it in one pass with one character
of look-ahead. It knows line and block comments, character literals, regular, verbatim and
interpolated strings, and the holes of interpolated strings, which hold code again to any depth.

A character inside a hole is part of a literal as far as the text around it is concerned, whatever
it is inside the hole. The end of the text is shown to the scanner as `U+0000`.
-/

namespace SharpOutline

/-- Stands for the character after the last one. -/
def endMark : Char := '\x00'

/-- The next character of what is left, or the end mark. -/
def ahead (rest : Text) : Char := rest.headD endMark

@[simp] theorem ahead_nil : ahead [] = endMark := rfl

@[simp] theorem ahead_cons (c : Char) (cs : Text) : ahead (c :: cs) = c := rfl

/-- What a character belongs to. -/
inductive CharClass where
  | code
  | literal
  | comment
deriving DecidableEq, Repr

/-- What the scanner is inside of. -/
inductive LexicalMode where
  | code
  | lineComment
  | blockComment
  | string (verbatim interpolated : Bool)
  | character
deriving DecidableEq, Repr

/-- An open hole of an interpolated string: whether the string is verbatim, and how many braces are
open inside the hole, its own included. -/
structure Hole where
  verbatim : Bool
  depth : Nat
deriving DecidableEq, Repr

/-- The state of the scanner between two characters. -/
structure Scanner where
  mode : LexicalMode := .code
  /-- The last character read as code, and the one before it. -/
  last : Char := endMark
  beforeLast : Char := endMark
  /-- The next character is escaped by a backslash. -/
  escaped : Bool := false
  /-- The class of the next character, where the last one has already decided it. -/
  pending : Option CharClass := none
  /-- The open holes, innermost first. -/
  holes : List Hole := []
deriving DecidableEq, Repr

namespace Scanner

/-- One more brace is open in the innermost hole. -/
def openBrace (s : Scanner) : Scanner :=
  match s.holes with
  | [] => s
  | h :: outer => { s with holes := { h with depth := h.depth + 1 } :: outer }

/-- One brace fewer is open in the innermost hole; the last one ends the hole and goes on with the
string around it. -/
def closeBrace (s : Scanner) : Scanner :=
  match s.holes with
  | [] => s
  | h :: outer =>
    if h.depth - 1 = 0 then { s with holes := outer, mode := .string h.verbatim true }
    else { s with holes := { h with depth := h.depth - 1 } :: outer }

def remember (s : Scanner) (c : Char) : Scanner := { s with beforeLast := s.last, last := c }

/-- A character in code, with what it does to the mode. -/
def stepCode (s : Scanner) (c next : Char) : Scanner × CharClass :=
  if c = '/' ∧ next = '/' then
    ({ s with mode := .lineComment, pending := some .comment }.remember c, .comment)
  else if c = '/' ∧ next = '*' then
    ({ s with mode := .blockComment, pending := some .comment }.remember c, .comment)
  else if c = '"' then
    let verbatim := s.last == '@' || (s.last == '$' && s.beforeLast == '@')
    let interpolated := s.last == '$' || (s.last == '@' && s.beforeLast == '$')
    ({ s with mode := .string verbatim interpolated }.remember c, .literal)
  else if c = '\'' then ({ s with mode := .character }.remember c, .literal)
  else if c = '\x7b' then (s.openBrace.remember c, .code)
  else if c = '\x7d' then (s.closeBrace.remember c, .code)
  else (s.remember c, .code)

/-- A character of a literal that ends with `quote` and in which a backslash escapes. -/
def stepEscaping (s : Scanner) (c quote : Char) : Scanner :=
  if s.escaped then { s with escaped := false }
  else if c = '\\' then { s with escaped := true }
  else if c = quote then { s with mode := .code }
  else s

def stepString (s : Scanner) (verbatim interpolated : Bool) (c next : Char) : Scanner :=
  if interpolated && !s.escaped && (c == '\x7b' || c == '\x7d') then
    if next = c then { s with pending := some .literal }
    else if c = '\x7b' then
      { s with holes := ⟨verbatim, 1⟩ :: s.holes, mode := .code, last := c }
    else s
  else if verbatim then
    if c = '"' then
      if next = '"' then { s with pending := some .literal } else { s with mode := .code }
    else s
  else s.stepEscaping c '"'

/-- The next character, labelled without regard to the holes around it. -/
def stepInner (s : Scanner) (c next : Char) : Scanner × CharClass :=
  match s.pending with
  | some k => ({ s with pending := none }, k)
  | none =>
    match s.mode with
    | .code => s.stepCode c next
    | .lineComment => if c = '\n' then ({ s with mode := .code }, .code) else (s, .comment)
    | .blockComment =>
      if c = '*' ∧ next = '/' then
        ({ s with mode := .code, pending := some .comment }, .comment)
      else (s, .comment)
    | .string verbatim interpolated => (s.stepString verbatim interpolated c next, .literal)
    | .character => (s.stepEscaping c '\'', .literal)

/-- The next character with the one after it: the state after it and its class. Everything inside a
hole, its braces included, is part of the literal around it. -/
def step (s : Scanner) (c next : Char) : Scanner × CharClass :=
  let r := s.stepInner c next
  (r.1, if s.holes.isEmpty && r.1.holes.isEmpty then r.2 else .literal)

/-- The scanner stands in code, outside every hole. -/
def inCode (s : Scanner) : Bool := s.mode == .code && s.pending.isNone && s.holes.isEmpty

/-- The scanner stands in a literal or in a hole of one. -/
def inLiteral (s : Scanner) : Bool :=
  match s.mode with
  | .string _ _ | .character => true
  | _ => !s.holes.isEmpty

/-- The state after a whole text, each character shown with its successor. -/
def after (s : Scanner) : Text → Scanner
  | [] => s
  | c :: cs => (s.step c (ahead cs)).1.after cs

/-- The classes of the characters of a text, each shown with its successor. -/
def classes (s : Scanner) : Text → List CharClass
  | [] => []
  | c :: cs => (s.step c (ahead cs)).2 :: (s.step c (ahead cs)).1.classes cs

@[simp] theorem length_classes (s : Scanner) (t : Text) : (s.classes t).length = t.length := by
  induction t generalizing s with
  | nil => rfl
  | cons c cs ih => simp [classes, ih]

/-- The states after each character of a text. -/
def states (s : Scanner) : Text → List Scanner
  | [] => []
  | c :: cs => (s.step c (ahead cs)).1 :: (s.step c (ahead cs)).1.states cs

end Scanner

end SharpOutline
