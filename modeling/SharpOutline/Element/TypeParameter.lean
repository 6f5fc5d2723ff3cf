import SharpOutline.Text.Basic

/-!
# Type parameters

A type parameter with its constraints. Which lists of constraints are allowed is decided where they
are added.
-/

namespace SharpOutline

/-- A type parameter; the name may carry a variance keyword. -/
structure TypeParameter where
  name : Text
  constraints : List Text := []
deriving DecidableEq, Repr

namespace TypeParameter

/-- The text is the constructor constraint, whatever blanks it contains. -/
def isConstructorConstraint (c : Text) : Bool := Text.squeeze c == "new()".toList

/-- The name without its variance keyword, which is how constraints refer to the parameter. -/
def bareName? (p : TypeParameter) : Option Text := (Text.words p.name).getLast?

end TypeParameter

end SharpOutline
