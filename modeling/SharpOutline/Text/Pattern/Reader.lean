import SharpOutline.Text.Pattern.Combine
import SharpOutline.Text.Pattern.Sign

/-!
# Reading patterns

The signs of a written pattern are put together on a stack of open groups. A group that only holds
its content together leaves no trace. A text that is no pattern has no reading.
-/

namespace SharpOutline

/-- The name of the group that carries the name of a region. -/
def regionGroupName : Text := "Name".toList

namespace Pattern

/-- A group that is still open: the alternatives that are complete and the items of the one that is
not, both with the latest first. -/
structure OpenGroup where
  isPlain : Bool := true
  name : Option Text := none
  complete : List Pattern := []
  items : List Pattern := []
deriving DecidableEq, Repr

namespace OpenGroup

def add (g : OpenGroup) (item : Pattern) : OpenGroup := { g with items := item :: g.items }

/-- The alternative that is not complete. -/
def branch (g : OpenGroup) : Pattern := inSequence g.items.reverse

def content (g : OpenGroup) : Pattern := inChoice (g.branch :: g.complete).reverse

/-- The group as an item of the one around it. -/
def close (g : OpenGroup) : Pattern :=
  if g.isPlain then g.content else .group (g.name = some regionGroupName) g.content

end OpenGroup

/-- Puts signs together; the innermost open group comes first and the outermost is the whole
pattern. -/
def assemble : OpenGroup → List OpenGroup → List Sign → Option Pattern
  | g, [], [] => some g.content
  | _, _ :: _, [] => none
  | g, outer, sign :: signs =>
    match sign with
    | .one set => assemble (g.add (.one set)) outer signs
    | .anchor a => assemble (g.add (.anchor a)) outer signs
    | .bar => assemble { g with complete := g.branch :: g.complete, items := [] } outer signs
    | .opening isPlain name => assemble { isPlain, name } (g :: outer) signs
    | .closing =>
      match outer with
      | [] => none
      | h :: rest => assemble (h.add g.close) rest signs
    | .repetition least most greedy =>
      match g.items with
      | [] => none
      | item :: earlier =>
        assemble { g with items := rounds item greedy least most :: earlier } outer signs

def groupNames (signs : List Sign) : List Text :=
  signs.filterMap fun
    | .opening _ name => name
    | _ => none

/-- The pattern that a text stands for. No two groups may have one name. -/
def ofText? (t : Text) : Option Pattern :=
  match signs? t with
  | none => none
  | some signs => if (groupNames signs).Nodup then assemble {} [] signs else none

end Pattern

end SharpOutline
