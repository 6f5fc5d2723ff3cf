import SharpOutline.Lexeme.Scanner
import SharpOutline.Text.Basic

/-!
# Cursors

A cursor stands between two characters of a source text. It knows what is left, how much lies
behind it in bytes, lines and columns, and the last two characters that it passed.

All motion is `Cursor.skip`, and moving twice is moving once by the sum (`Cursor.skip_skip`); what
an operation of a reader does to the cursor is therefore described by one number.

Looking ahead at the end of the text shows the end mark. A source text may contain that character
too, and nothing that only looks ahead can tell the two apart.
-/

namespace SharpOutline

/-- A place in a text: the bytes before it in UTF-8, the lines before it, and the characters before
it on its line. -/
structure Position where
  byte : Nat := 0
  line : Nat := 0
  column : Nat := 0
deriving DecidableEq, Repr

/-- The place after a character. -/
def Position.next (p : Position) (c : Char) : Position :=
  if c = '\n' then ⟨p.byte + c.utf8Size, p.line + 1, 0⟩
  else ⟨p.byte + c.utf8Size, p.line, p.column + 1⟩

/-- A cursor in a source text. -/
structure Cursor where
  rest : Text
  position : Position := {}
  current : Char := endMark
  previous : Char := endMark
deriving DecidableEq, Repr

namespace Cursor

def start (source : Text) : Cursor := { rest := source }

/-- The next character, or the end mark. -/
def peek (c : Cursor) : Char := ahead c.rest

def atEnd (c : Cursor) : Bool := c.rest.isEmpty

/-- The cursor after the next character; at the end it stays. -/
def advance (c : Cursor) : Cursor :=
  match c.rest with
  | [] => c
  | x :: rest => ⟨rest, c.position.next x, x, c.current⟩

/-- The cursor after the next `n` characters, or at the end if there are not as many. -/
def skip : Nat → Cursor → Cursor
  | 0, c => c
  | n + 1, c => skip n c.advance

def toEnd (c : Cursor) : Cursor := c.skip c.rest.length

def skipWhile (test : Char → Bool) (c : Cursor) : Cursor := c.skip (c.rest.takeWhile test).length

def skipBlanks (c : Cursor) : Cursor := c.skipWhile isBlank

/-- What is left of the line, without its end. -/
def line (c : Cursor) : Text := Text.dropReturn (c.rest.takeWhile (· != '\n'))

def skipLine (c : Cursor) : Cursor := c.skip ((c.rest.takeWhile (· != '\n')).length + 1)

/-! ## Motion -/

@[simp] theorem skip_zero (c : Cursor) : c.skip 0 = c := rfl

@[simp] theorem skip_succ (n : Nat) (c : Cursor) : c.skip (n + 1) = c.advance.skip n := rfl

theorem skip_one (c : Cursor) : c.skip 1 = c.advance := rfl

/-- Moving twice is moving once by the sum. -/
theorem skip_skip (m n : Nat) (c : Cursor) : (c.skip m).skip n = c.skip (m + n) := by
  induction m generalizing c with
  | zero => simp
  | succ m ih => rw [skip_succ, ih, Nat.succ_add, skip_succ]

theorem rest_advance (c : Cursor) : c.advance.rest = c.rest.drop 1 := by
  unfold advance
  split <;> simp [*]

/-- What is left after moving. -/
@[simp] theorem rest_skip (n : Nat) (c : Cursor) : (c.skip n).rest = c.rest.drop n := by
  induction n generalizing c with
  | zero => simp
  | succ n ih => rw [skip_succ, ih, rest_advance, List.drop_drop, Nat.add_comm]

end Cursor

end SharpOutline
