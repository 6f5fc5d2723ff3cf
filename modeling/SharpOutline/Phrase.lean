import SharpOutline.Lexeme.Scanner
import SharpOutline.Text.Basic
import SharpOutline.Text.Letter

/-!
# Phrases

Cutting the text of a declaration into words, list parts and name parts, with the brackets kept
whole. Words and names see only brackets; the parts of a list also see literals and comments,
because initial values are lists too.
-/

namespace SharpOutline

/-! ## Words -/

/-- The level of brackets after a character of a signature: angle brackets count, braces do not. -/
def nestingAfter (c : Char) (level : Nat) : Nat :=
  if c = '<' ∨ c = '(' ∨ c = '[' then level + 1
  else if c = '>' ∨ c = ')' ∨ c = ']' then level - 1
  else level

/-- Adds a finished word to the words before it. Nothing is added for an empty word, and a word
that starts with a square bracket belongs to the word before it. -/
def addWord (found : List Text) (word : Text) : List Text :=
  if word.isEmpty then found
  else if word.head? = some '[' then
    match found.getLast? with
    | some previous => found.dropLast ++ [previous ++ word]
    | none => [word]
  else found ++ [word]

/-- The words of a text, where `found` and the unfinished `word` come before it. -/
def phraseWordsFrom (found : List Text) (word : Text) (level : Nat) : Text → List Text
  | [] => addWord found word
  | c :: cs =>
    if isBlank c && level == 0 then phraseWordsFrom (addWord found word) [] level cs
    else phraseWordsFrom found (word ++ [c]) (nestingAfter c level) cs

/-- The words of a signature: blanks inside brackets do not end a word. -/
def phraseWords (t : Text) : List Text := phraseWordsFrom [] [] 0 t

/-! ## Parts of a list -/

/-- The state of a cut at top-level commas. -/
structure PartScan where
  scanner : Scanner := {}
  /-- Open brackets of the three ordinary kinds. -/
  level : Nat := 0
  /-- Open lists of type arguments. -/
  generic : Nat := 0
  /-- The character before, if there is one. -/
  previous : Option Char := none
deriving DecidableEq, Repr

/-- The state after a character that is no separator. An angle bracket opens a list of type
arguments only directly after a name. -/
def PartScan.next (p : PartScan) (c : Char) (scanned : Scanner × CharClass) : PartScan :=
  let q := { p with scanner := scanned.1, previous := some c }
  if scanned.2 ≠ .code then q
  else if c = '(' ∨ c = '[' ∨ c = '\x7b' then { q with level := p.level + 1 }
  else if c = ')' ∨ c = ']' ∨ c = '\x7d' then { q with level := p.level - 1 }
  else if c = '<' ∧ p.previous.any isIdentifierCharacter then
    { q with generic := p.generic + 1 }
  else if c = '>' then { q with generic := p.generic - 1 }
  else q

/-- The character separates two parts here. -/
def PartScan.separates (p : PartScan) (c : Char) (k : CharClass) : Bool :=
  k == .code && c == ',' && p.level == 0 && p.generic == 0

/-- The parts of a list, the first of which begins with `part`. -/
def listPartsFrom (p : PartScan) (part : Text) : Text → List Text
  | [] => [Text.trim part]
  | c :: cs =>
    let r := p.scanner.step c (ahead cs)
    if p.separates c r.2 then
      Text.trim part :: listPartsFrom { p with scanner := r.1, previous := some c } [] cs
    else listPartsFrom (p.next c r) (part ++ [c]) cs

/-- The parts of a list between the commas outside brackets, literals and comments, trimmed. -/
def listParts (t : Text) : List Text := listPartsFrom {} [] t

/-! ## Names -/

/-- A name with type parameters, cut into the name and the parameters. -/
def genericName (word : Text) : Text × List Text :=
  match Text.splitOnce '<' word with
  | none => (word, [])
  | some (name, inside) =>
    if word.getLast? = some '>' then (Text.trim name, listParts inside.dropLast)
    else (word, [])

/-- The last top-level dot of a name, as what stands before and after it; `seen` is the part of the
name already passed. -/
def lastDotFrom (seen : Text) (level : Nat) : Text → Option (Text × Text)
  | [] => none
  | c :: cs =>
    (lastDotFrom (seen ++ [c]) (nestingAfter c level) cs).or
      (if c = '.' ∧ level = 0 then some (seen, cs) else none)

/-- The name of an explicitly implemented member, cut at its last top-level dot into the interface
and the member. -/
def qualifiedName (name : Text) : Option Text × Text :=
  match lastDotFrom [] 0 name with
  | some (interface, member) => (some interface, member)
  | none => (none, name)

/-- The declarator of a fixed-size buffer, cut into its name and its number of elements. -/
def fixedSize (name : Text) : Text × Option Text :=
  match Text.splitOnce '[' name with
  | none => (name, none)
  | some (base, inside) =>
    if name.getLast? = some ']' then (Text.trim base, some (Text.trim inside.dropLast))
    else (name, none)

end SharpOutline
