import SharpOutline.Lexeme.Scanner
import SharpOutline.Settings

/-!
# Lines

A layout is a list of lines, each with the depth to which it is indented; only at the end are they
put together into text. A line without text is not indented either.

The raw text of a body is cut into such lines. It is moved as a whole to its new depth: the blanks
that all its lines start with are dropped, as are blank lines at either end. A line that starts
inside a literal cannot be moved without changing the literal, so it stays as it is.
-/

namespace SharpOutline

/-- A line of a layout. -/
structure Line where
  depth : Nat
  text : Text
deriving DecidableEq, Repr

namespace Line

def blank : Line := ⟨0, []⟩

/-- The line with its indentation and its end. -/
def toText (s : LayoutSettings) (l : Line) : Text :=
  (if l.text.isEmpty then [] else (List.replicate l.depth s.indent.unit).flatten ++ l.text) ++
    s.lineEnding.text

def allToText (s : LayoutSettings) (ls : List Line) : Text := ls.flatMap (toText s)

end Line

/-! ## Lines of raw text -/

/-- A line of raw text, and whether it starts and ends inside a literal. -/
structure RawLine where
  text : Text
  startsInLiteral : Bool
  endsInLiteral : Bool
deriving DecidableEq, Repr

/-- The lines of a text whose first line begins with `line`, where the scanner stands after it. -/
def rawLinesFrom (s : Scanner) (startsInLiteral : Bool) (line : Text) : Text → List RawLine
  | [] => [⟨line, startsInLiteral, s.inLiteral⟩]
  | c :: cs =>
    let s' := (s.step c (ahead cs)).1
    if c = '\n' then
      ⟨Text.dropReturn line, startsInLiteral, s.inLiteral⟩ :: rawLinesFrom s' s'.inLiteral [] cs
    else rawLinesFrom s' startsInLiteral (line ++ [c]) cs

def rawLines (t : Text) : List RawLine := rawLinesFrom {} false [] t

namespace RawLine

/-- The line is blank, and no part of a literal. -/
def isBlankLine (l : RawLine) : Bool :=
  !l.startsInLiteral && !l.endsInLiteral && (Text.trim l.text).isEmpty

/-- The number of blanks the line starts with, if it can be moved and has more than blanks. -/
def indentation? (l : RawLine) : Option Nat :=
  if l.startsInLiteral || (Text.trim l.text).isEmpty then none
  else some (l.text.takeWhile isBlank).length

end RawLine

/-! ## Lines of a body -/

/-- A line of a body; one that starts inside a literal has to stay as it is. -/
structure BodyLine where
  text : Text
  isFixed : Bool
deriving DecidableEq, Repr

/-- A line moved to the left. Blanks at its end are dropped unless they are part of a literal. -/
def RawLine.shift (l : RawLine) (width : Nat) : BodyLine :=
  let text := if l.endsInLiteral then l.text else Text.trimEnd l.text
  if l.startsInLiteral then ⟨text, true⟩ else ⟨text.drop width, false⟩

/-- The lines from the first to the last that is not blank. -/
def withoutBlankEnds (ls : List RawLine) : List RawLine :=
  ((ls.dropWhile RawLine.isBlankLine).reverse.dropWhile RawLine.isBlankLine).reverse

/-- The lines of a body, moved to the left as far as they go together. -/
def reindent (t : Text) : List BodyLine :=
  let ls := withoutBlankEnds (rawLines t)
  let common := ((ls.filterMap RawLine.indentation?).min?).getD 0
  ls.map fun l ↦ l.shift common

def bodyLines (depth : Nat) (t : Text) : List Line :=
  (reindent t).map fun l ↦ ⟨if l.isFixed then 0 else depth, l.text⟩

end SharpOutline
