import SharpOutline.Lexeme.Scanner
import SharpOutline.Text.Basic

/-!
# Clauses of a declaration

The stretches of a declaration that end at a character of code: the expression of a statement, what
stands between a parameter list and the body, and what stands between the name of a type and its
members. Comments are dropped from them, and the ends are trimmed. Each reader returns the text and
the number of characters it passed, its end included; there is no result if the text ends first.
-/

namespace SharpOutline

/-- Adds a character in front of a clause that has been read. -/
def prependTo {α : Type} (c : Char) (r : Text × α × Nat) : Text × α × Nat :=
  (c :: r.1, r.2.1, r.2.2 + 1)

/-- Passes over a character in front of a clause that has been read. -/
def passOver {α : Type} (r : Text × α × Nat) : Text × α × Nat := (r.1, r.2.1, r.2.2 + 1)

/-! ## Statements -/

/-- The level of brackets after a character, where every kind of bracket counts alike. -/
def levelAfter (c : Char) (level : Nat) : Nat :=
  if c = '(' ∨ c = '[' ∨ c = '\x7b' then level + 1
  else if c = ')' ∨ c = ']' ∨ c = '\x7d' then level - 1
  else level

/-- The text up to the semicolon outside all brackets. -/
def statementFrom (s : Scanner) (level : Nat) : Text → Option (Text × Unit × Nat)
  | [] => none
  | c :: cs =>
    let r := s.step c (ahead cs)
    match r.2 with
    | .comment => (statementFrom r.1 level cs).map passOver
    | .literal => (statementFrom r.1 level cs).map (prependTo c)
    | .code =>
      if c = ';' ∧ level = 0 then some ([], (), 1)
      else (statementFrom r.1 (levelAfter c level) cs).map (prependTo c)

/-- The expression that a semicolon ends. -/
def statementSpan (t : Text) : Option (Text × Nat) :=
  (statementFrom {} 0 t).map fun r ↦ (Text.trim r.1, r.2.2)

/-! ## Tails of signatures -/

/-- How a member goes on after its signature. -/
inductive BodyStart where
  /-- An opening brace. -/
  | block
  /-- An arrow before an expression. -/
  | expression
  /-- A semicolon: there is no body. -/
  | statement
deriving DecidableEq, Repr

/-- The level of parentheses and square brackets after a character. -/
def roundLevelAfter (c : Char) (level : Nat) : Nat :=
  if c = '(' ∨ c = '[' then level + 1
  else if c = ')' ∨ c = ']' then level - 1
  else level

/-- The text up to the start of a body outside all brackets. -/
def tailFrom (s : Scanner) (level : Nat) : Text → Option (Text × BodyStart × Nat)
  | [] => none
  | c :: cs =>
    let r := s.step c (ahead cs)
    match r.2 with
    | .comment => (tailFrom r.1 level cs).map passOver
    | .literal => (tailFrom r.1 level cs).map (prependTo c)
    | .code =>
      if level = 0 ∧ c = '\x7b' then some ([], .block, 1)
      else if level = 0 ∧ c = ';' then some ([], .statement, 1)
      else if level = 0 ∧ c = '=' ∧ ahead cs = '>' then some ([], .expression, 2)
      else (tailFrom r.1 (roundLevelAfter c level) cs).map (prependTo c)

/-- What follows a parameter list, up to the start of the body, and how the body starts. -/
def tailSpan (t : Text) : Option ((Text × BodyStart) × Nat) :=
  (tailFrom {} 0 t).map fun r ↦ ((Text.trim r.1, r.2.1), r.2.2)

/-! ## Headers of types -/

/-- The text up to an opening brace. -/
def headerFrom (s : Scanner) : Text → Option (Text × Unit × Nat)
  | [] => none
  | c :: cs =>
    let r := s.step c (ahead cs)
    match r.2 with
    | .comment => (headerFrom r.1 cs).map passOver
    | .literal => (headerFrom r.1 cs).map (prependTo c)
    | .code => if c = '\x7b' then some ([], (), 1) else (headerFrom r.1 cs).map (prependTo c)

/-- What stands between the name of a type and its members. -/
def headerSpan (t : Text) : Option (Text × Nat) :=
  (headerFrom {} t).map fun r ↦ (Text.trim r.1, r.2.2)

/-! ## Block comments -/

/-- The text of a block comment up to its end. -/
def blockCommentSpan : Text → Option (Text × Nat)
  | [] => none
  | c :: cs =>
    if c = '*' ∧ ahead cs = '/' then some ([], 2)
    else (blockCommentSpan cs).map fun r ↦ (c :: r.1, r.2 + 1)

end SharpOutline
