import SharpOutline.Text.Pattern.Basic

/-!
# Putting patterns together

Patterns that are written differently can be the same pattern, and a search depends on it: what all
alternatives begin with is taken before the choice between them, so they have to be compared. The
functions of this module therefore simplify what they put together.

* A sequence in a sequence and a choice in a choice are dissolved.
* A choice between single characters is a set, and so is a choice between larger sets.
* Of something that consumes nothing, one round is as good as many. One round is the repeated
  pattern itself, and none is the empty pattern.
* Alternatives that begin alike begin together. They are compared part by part, where literal
  characters in a row are one part; a part with a group in it is not shared, and an alternative that
  is a single part shares nothing.
-/

namespace SharpOutline

namespace Pattern

/-! ## Sequences -/

/-- The items of a pattern that is a sequence. -/
def items : Pattern → List Pattern
  | empty => []
  | seq first second => first.items ++ second.items
  | p => [p]

def ofItems : List Pattern → Pattern
  | [] => empty
  | [p] => p
  | p :: ps => seq p (ofItems ps)

def inSequence (ps : List Pattern) : Pattern := ofItems (ps.flatMap items)

/-! ## Choices -/

def branches : Pattern → List Pattern
  | either first second => first.branches ++ second.branches
  | p => [p]

def ofBranches : List Pattern → Pattern
  | [] => empty
  | [p] => p
  | p :: ps => either p (ofBranches ps)

def set? : Pattern → Option CharSet
  | one set => some set
  | _ => none

def isLiteral (p : Pattern) : Bool := p.set?.any CharSet.isSingle

/-- The pattern is a set that is no literal character. -/
def isClass (p : Pattern) : Bool := p.set?.any fun set ↦ !set.isSingle

/-- The choice between branches that share nothing. -/
def inPlainChoice (ps : List Pattern) : Pattern :=
  let bs := ps.flatMap branches
  if bs.all isLiteral || bs.all isClass then one (CharSet.unionAll (bs.filterMap set?))
  else ofBranches bs

/-! ## Shared beginnings -/

def parts : List Pattern → List (List Pattern)
  | [] => []
  | p :: ps =>
    match parts ps with
    | (q :: run) :: others =>
      if p.isLiteral && q.isLiteral then (p :: q :: run) :: others
      else [p] :: (q :: run) :: others
    | others => [p] :: others

/-- The parts that two sequences have in common at their beginning. -/
def sharedParts : List (List Pattern) → List (List Pattern) → List (List Pattern)
  | a :: as, b :: bs => if a = b && !a.any hasGroup then a :: sharedParts as bs else []
  | _, _ => []

def commonParts : List (List (List Pattern)) → List (List Pattern)
  | [] => []
  | first :: others =>
    if (first :: others).all (2 ≤ ·.length) then others.foldl sharedParts first else []

/-- Patterns of which the first that fits is taken. -/
def inChoice (ps : List Pattern) : Pattern :=
  match ps.flatMap branches with
  | [p] => p
  | bs =>
    let common := commonParts (bs.map fun b ↦ parts b.items)
    if common.isEmpty then inPlainChoice bs
    else
      let rests := bs.map fun b ↦ ofItems ((parts b.items).drop common.length).flatten
      inSequence (common.flatten ++ [inPlainChoice rests])

/-! ## Repetitions -/

/-- At least `least` and at most `most` rounds of a pattern. -/
def rounds (body : Pattern) (greedy : Bool) (least : Nat) (most : Option Nat) : Pattern :=
  let least := if body.isWidthless then min least 1 else least
  let most := if body.isWidthless then some (min (most.getD 1) 1) else most
  if most = some 0 then empty
  else if least = 1 && most = some 1 then body
  else repeated body least most greedy

end Pattern

end SharpOutline
