import SharpOutline.Element.Constraint
import SharpOutline.Phrase

/-!
# Constraint clauses

The clauses after a signature that constrain its type parameters. A clause names a parameter, and
several clauses may name the same one.
-/

namespace SharpOutline

/-- The words of each clause, joined by spaces; words before the first clause belong to none. -/
def clausesFrom (clauses : List Text) : List Text → Option (List Text)
  | [] => some clauses
  | w :: ws =>
    if w = "where".toList then clausesFrom (clauses ++ [[]]) ws
    else
      match clauses.getLast? with
      | none => none
      | some [] => clausesFrom (clauses.dropLast ++ [w]) ws
      | some clause => clausesFrom (clauses.dropLast ++ [clause ++ ' ' :: w]) ws

/-- Adds constraints to a type parameter, none of which may be empty. `name` is what the clause
calls it. -/
def constrain (name : Text) (p : TypeParameter) : List Text → Except Fault TypeParameter
  | [] => .ok p
  | c :: cs =>
    if c.isEmpty then
      .error (.expectedName ("a constraint for type parameter '".toList ++ name ++ ['\'']))
    else
      match p.addConstraint c with
      | .error r => .error (.refused r)
      | .ok q => constrain name q cs

/-- Adds the constraints of a clause to the first type parameter with its name. -/
def constrainNamed (clause name : Text) (constraints : List Text) :
    List TypeParameter → Except Fault (List TypeParameter)
  | [] => .error (.unhandledText clause)
  | p :: ps =>
    if p.bareName? = some name then do
      let q ← constrain name p constraints
      .ok (q :: ps)
    else do
      let qs ← constrainNamed clause name constraints ps
      .ok (p :: qs)

/-- Adds the constraints of a clause to the type parameters. -/
def applyClause (ps : List TypeParameter) (clause : Text) : Except Fault (List TypeParameter) :=
  match Text.splitOnce ':' clause with
  | none => .error (.unhandledText clause)
  | some (name, constraints) =>
    constrainNamed clause (Text.trim name) (listParts constraints) ps

def applyClauses (ps : List TypeParameter) : List Text → Except Fault (List TypeParameter)
  | [] => .ok ps
  | clause :: clauses => do
    let qs ← applyClause ps clause
    applyClauses qs clauses

/-- Adds the constraints in a text to the type parameters; the text may be empty. -/
def applyConstraints (t : Text) (ps : List TypeParameter) : Except Fault (List TypeParameter) :=
  match clausesFrom [] (phraseWords t) with
  | none => .error (.unhandledText t)
  | some clauses => applyClauses ps clauses

end SharpOutline
