import SharpOutline.Fault
import SharpOutline.Keyword
import SharpOutline.Lexeme.Bracketed
import SharpOutline.Lexeme.Clause
import SharpOutline.Source.Cursor

/-!
# Readings

A reading moves a cursor and returns what it passed, or it meets a fault. Both times the cursor
stays where the reading has left it, which is where the fault is reported.

Most readings look at what is left as a plain text first, and find a result and the number of
characters that it takes; the cursor then moves by that number. If the text ends too early the
cursor moves to its end.
-/

namespace SharpOutline

/-- Moves a cursor, and returns a value or meets a fault. -/
abbrev Reading (α : Type) := EStateM Fault Cursor α

namespace Reading

/-- The next character, which is not passed. -/
def peek : Reading Char := do return (← get).peek

def skip (n : Nat) : Reading Unit := modify (·.skip n)

def skipBlanks : Reading Unit := modify Cursor.skipBlanks

def skipSpaces : Reading Unit := modify (·.skipWhile fun c ↦ c == ' ' || c == '\t')

/-- The rest of the line, which is passed with its end. -/
def line : Reading Text := do
  let c ← get
  set c.skipLine
  return c.line

/-- Reads what a function finds in the text that is left; if it finds nothing the text ended
without what was expected. -/
def span {α : Type} (find : Text → Option (α × Nat)) (expected : Text) : Reading α := fun c ↦
  match find c.rest with
  | some (a, n) => .ok a (c.skip n)
  | none => .error (.unexpectedEnd expected) c.toEnd

/-- Reads a given character after any blanks. -/
def expect (expected : Char) : Reading Unit := do
  skipBlanks
  let found ← peek
  if found = expected then skip 1
  else if found = endMark then throw (.unexpectedEnd [expected])
  else throw (.expectedCharacter expected found)

/-- Reads up to the bracket that closes the one just passed. -/
def bracketed (opener closer : Char) : Reading Text := span (bracketedSpan opener closer) [closer]

def bracketedTrimmed (opener closer : Char) : Reading Text := do
  let t ← bracketed opener closer
  return Text.trim t

/-- Reads a text in brackets. The blanks before the opening bracket belong to the text. -/
def enclosed (opener closer : Char) : Reading Text := do
  let c ← get
  skipBlanks
  expect opener
  let t ← bracketed opener closer
  return c.rest.takeWhile isBlank ++ t

/-- Reads a text in brackets, whose opening one may have been passed, and trims it if that is
wanted. -/
def delimited (opener closer : Char) (isOpenerAhead isTrimmed : Bool) : Reading Text := do
  let t ← cond isOpenerAhead (enclosed opener closer) (bracketed opener closer)
  return cond isTrimmed (Text.trim t) t

def statement : Reading Text := span statementSpan [';']

/-- Reads what follows a parameter list, up to the start of the body. -/
def tail : Reading (Text × BodyStart) := span tailSpan ['\x7b']

/-- Reads what stands between the name of a type and its members. -/
def header : Reading Text := span headerSpan ['\x7b']

def blockComment : Reading Text := span blockCommentSpan "*/".toList

/-- Reads the body of a member, whose start has been passed. -/
def body : BodyStart → Reading MemberBody
  | .block => do return .block (← bracketed '\x7b' '\x7d')
  | .expression => do return .expression (← statement)
  | .statement => return .absent

/-! ## Words -/

/-- The rest of a word that begins with `word`. The colons after `global` belong to the word, as do
type arguments if they are wanted; there is no word if type arguments are not closed. -/
def wordFrom (generics : Bool) (word : Text) (t : Text) : Option (Text × Nat) :=
  match t with
  | [] => some (word, 0)
  | c :: cs =>
    if c = ':' ∧ word = "global".toList then
      match cs with
      | ':' :: cs => (wordFrom generics (word ++ [':', ':']) cs).map fun r ↦ (r.1, r.2 + 2)
      | cs => (wordFrom generics (word ++ [':']) cs).map fun r ↦ (r.1, r.2 + 1)
    else if c = '<' ∧ generics ∧ word ≠ [] then
      match SharpOutline.bracketed '<' '>' cs with
      | none => none
      | some inside =>
        (wordFrom generics (word ++ '<' :: Text.trim inside ++ ['>'])
          (cs.drop (inside.length + 1))).map fun r ↦ (r.1, r.2 + (inside.length + 2))
    else if endsWord c then some (word, 0)
    else (wordFrom generics (word ++ [c]) cs).map fun r ↦ (r.1, r.2 + 1)
termination_by t.length

/-- Reads a word after any blanks; it may be empty. -/
def word (generics : Bool) : Reading Text := do
  skipBlanks
  span (wordFrom generics []) ['>']

/-- The question marks and ranks that follow the name of a type, and the blanks between and after
them. -/
def typeMarks (t : Text) : Option (Text × Nat) :=
  match h : t.dropWhile isBlank with
  | '?' :: cs =>
    (typeMarks cs).map fun r ↦ ('?' :: r.1, r.2 + ((t.takeWhile isBlank).length + 1))
  | '[' :: cs =>
    match SharpOutline.bracketed '[' ']' cs with
    | none => none
    | some inside =>
      (typeMarks (cs.drop (inside.length + 1))).map fun r ↦
        ('[' :: Text.trim inside ++ ']' :: r.1,
          r.2 + ((t.takeWhile isBlank).length + (inside.length + 2)))
  | _ => some ([], (t.takeWhile isBlank).length)
termination_by t.length
decreasing_by
  all_goals
    have := (List.dropWhile_suffix isBlank (l := t)).length_le
    simp [h] at this ⊢
    omega

/-- Reads the name of a type, with question marks and ranks. -/
def typeName : Reading Text := do
  let name ← word true
  let marks ← span typeMarks [']']
  return name ++ marks

/-! ## Comments -/

/-- The kind of a line comment after two slashes; a third one is passed. -/
def lineCommentKind : Reading CommentKind := do
  let c ← peek
  if c = '/' then do
    skip 1
    return .documentation
  else return .line

/-- Reads a comment after its first slash, if there is one. -/
def comment? : Reading (Option Comment) := do
  let c ← peek
  if c = '/' then do
    skip 1
    let kind ← lineCommentKind
    let text ← line
    return some ⟨kind, text⟩
  else if c = '*' then do
    skip 1
    let text ← blockComment
    return some ⟨.block, text⟩
  else return none

/-- Reads a comment that follows on the same line, if there is one. -/
def trailingComment? : Reading (Option Comment) := do
  skipSpaces
  let c ← peek
  if c = '/' then do
    skip 1
    let found ← comment?
    match found with
    | some comment => return some comment
    | none => throw (.unexpectedCharacter '/')
  else return none

end Reading

end SharpOutline
