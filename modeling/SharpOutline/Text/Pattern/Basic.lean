import SharpOutline.Text.CharSet

/-!
# Patterns

A small language of patterns for recognising a marker line and the name it carries. A pattern is
built from sets of characters, places in the text, sequences, alternatives, repetitions and groups;
one group may carry a name, and what it consumes is the name of a region.

This module only says what patterns are. What a pattern does is decided by the program that it is
turned into, and by the search that carries the program out.
-/

namespace SharpOutline

/-! ## Places -/

/-- A condition on a place in the text. -/
inductive Anchor where
  /-- Nothing comes before. -/
  | textStart
  /-- Nothing follows. -/
  | textEnd
  /-- A word begins here. -/
  | wordStart
  /-- A word ends here. -/
  | wordEnd
deriving DecidableEq, Repr

/-- The condition holds between two characters, either of which may be missing. -/
def Anchor.holds (before after : Option Char) : Anchor → Bool
  | textStart => before.isNone
  | textEnd => after.isNone
  | wordStart => !before.any CharSet.word.holds && after.any CharSet.word.holds
  | wordEnd => before.any CharSet.word.holds && !after.any CharSet.word.holds

/-! ## Patterns -/

inductive Pattern where
  /-- Fits everywhere and consumes nothing. -/
  | empty
  /-- One character of a set. -/
  | one (set : CharSet)
  /-- A condition on the place; nothing is consumed. -/
  | anchor (anchor : Anchor)
  /-- One pattern and then another. -/
  | seq (first second : Pattern)
  /-- One pattern or else another. -/
  | either (first second : Pattern)
  /-- At least `least` and at most `most` rounds of a pattern, more or fewer preferred. -/
  | repeated (body : Pattern) (least : Nat) (most : Option Nat) (greedy : Bool)
  /-- A group; the text it consumes is kept if it carries the name of a region. -/
  | group (naming : Bool) (body : Pattern)
deriving DecidableEq, Repr

namespace Pattern

/-- The pattern can fit without consuming anything. -/
def isNullable : Pattern → Bool
  | empty => true
  | one _ => false
  | anchor _ => true
  | seq first second => first.isNullable && second.isNullable
  | either first second => first.isNullable || second.isNullable
  | repeated body least _ _ => least == 0 || body.isNullable
  | group _ body => body.isNullable

/-- The pattern never consumes anything: no character stands in it. -/
def isWidthless : Pattern → Bool
  | empty => true
  | one _ => false
  | anchor _ => true
  | seq first second => first.isWidthless && second.isWidthless
  | either first second => first.isWidthless && second.isWidthless
  | repeated body _ _ _ => body.isWidthless
  | group _ body => body.isWidthless

def hasGroup : Pattern → Bool
  | empty => false
  | one _ => false
  | anchor _ => false
  | seq first second => first.hasGroup || second.hasGroup
  | either first second => first.hasGroup || second.hasGroup
  | repeated body _ _ _ => body.hasGroup
  | group _ _ => true

end Pattern

end SharpOutline
