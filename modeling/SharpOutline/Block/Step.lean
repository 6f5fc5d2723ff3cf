import SharpOutline.Block.AttributeList
import SharpOutline.Block.Member
import SharpOutline.Block.Opening
import SharpOutline.Block.Scope

/-!
# Steps

One character of a block, and everything that it starts. The block ends before a closing brace and
at the end of the text.
-/

namespace SharpOutline

namespace Drafting

/-- A blank folds into the space before it, and is dropped where the text has not begun. -/
def blank : Drafting Step := do
  modifyBlock fun b ↦
    if b.text.isEmpty || b.text.getLast? == some ' ' then b else { b with text := b.text ++ [' '] }
  return .more

/-- A question mark belongs to the word before it. -/
def questionMark : Drafting Step := do
  modifyBlock fun b ↦ { b with text := Text.trimEnd b.text ++ ['?'] }
  return .more

/-- Type arguments belong to the word before them. -/
def angleBracket : Drafting Step := do
  let inside ← read (Reading.bracketedTrimmed '<' '>')
  pushBracketed '<' '>' inside
  return .more

/-- Any other character is added to the text, and may end a word. -/
def letter (c : Char) : Drafting Signal := do
  push c
  let next ← read Reading.peek
  if endsWord next then wordEnd else return .done .more

def done (s : Drafting Step) : Drafting Signal := do
  let step ← s
  return .done step

/-- What a character leads to, once it has been passed. -/
def react (m : RegionMarkers) (c : Char) : Drafting Signal := do
  let b ← block
  if c = '/' then done (slash m)
  else if c = '#' then done directive
  else if c = '[' then done squareBracket
  else if c = '<' ∧ !endsInOperator b.text then done angleBracket
  else if c = '?' then done questionMark
  else if isBlank c then done blank
  else if c = '(' then done parenthesis
  else if c = ';' then done semicolon
  else if c = '=' ∧ !endsInOperator b.text then done equalsSign
  else if c = '\x7b' then done brace
  else letter c

/-- The block ends before this character. -/
def endsBlock (c : Char) : Bool := c == endMark || c == '\x7d'

/-- Reads the next character of a block. -/
def advance (m : RegionMarkers) : Drafting Signal := fun d ↦
  if endsBlock d.cursor.peek then .ok (.done .finished) d
  else react m d.cursor.peek { d with cursor := d.cursor.advance }

end Drafting

end SharpOutline
