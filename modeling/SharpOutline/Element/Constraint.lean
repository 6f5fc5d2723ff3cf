import SharpOutline.Fault

/-!
# Constraints

The constructor constraint of a type parameter has to be the last one, so nothing can be added after
it.
-/

namespace SharpOutline

namespace TypeParameter

/-- The parameter with one more constraint, unless its last one is the constructor constraint. -/
def addConstraint (p : TypeParameter) (c : Text) : Except Refusal TypeParameter :=
  if p.constraints.getLast?.any isConstructorConstraint then
    .error (.constructorConstraintNotLast p.name)
  else .ok { p with constraints := p.constraints ++ [c] }

def addConstraints (p : TypeParameter) : List Text → Except Refusal TypeParameter
  | [] => .ok p
  | c :: cs => do
    let q ← p.addConstraint c
    q.addConstraints cs

def withConstraints (name : Text) (constraints : List Text) : Except Refusal TypeParameter :=
  addConstraints { name := name } constraints

end TypeParameter

end SharpOutline
