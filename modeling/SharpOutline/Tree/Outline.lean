import SharpOutline.Tree.Edit

/-!
# Outlines

The part of a tree that can be reached from an element, unfolded into a finite outline. An outline
is a plain inductive type, so what is said about it is said by recursion; the numbers of the
elements are kept in it only as labels. Where the tree has no element for a number, or the way down
is longer than the tree has elements, the outline has a gap.

Two ways through an outline are given. `Outline.preorder` is the recursion itself, and `drain` keeps
the outlines still to be visited on a stack.
-/

namespace SharpOutline

/-- An element with everything that hangs from it. -/
inductive Outline where
  /-- There is nothing to show for this number. -/
  | gap (id : ElementId)
  | node (id : ElementId) (name : Text) (element : Element)
      (headerComments attributes children : List Outline) (otherwise : Option Outline)

namespace Tree

/-- The outline of an element, `limit` levels deep. -/
def unfold (t : Tree) : Nat → ElementId → Outline
  | 0, id => .gap id
  | n + 1, id =>
    match t.get? id with
    | none => .gap id
    | some node =>
      .node id node.name node.element (node.headerComments.map (t.unfold n))
        (node.attributes.map (t.unfold n)) (node.children.map (t.unfold n))
        (node.element.otherwise?.map (t.unfold n))

/-- The outline of an element. A way down without repetition is no longer than the tree has
elements. -/
def outline (t : Tree) (id : ElementId) : Outline := t.unfold t.size id

end Tree

namespace Outline

def id : Outline → ElementId
  | gap id => id
  | node id .. => id

def kind? : Outline → Option Kind
  | gap _ => none
  | node _ _ element .. => some element.kind

/-! ## Size -/

mutual

/-- The number of elements and gaps that are reached through children and next branches. -/
def size : Outline → Nat
  | gap _ => 1
  | node _ _ _ _ _ children otherwise => 1 + sizeAll children + sizeNext otherwise

def sizeAll : List Outline → Nat
  | [] => 0
  | o :: os => o.size + sizeAll os

def sizeNext : Option Outline → Nat
  | none => 0
  | some o => o.size

end

/-! ## Descendants -/

mutual

/-- An element, then what lies beneath its children, then what lies beneath its next branch. -/
def preorder : Outline → List ElementId
  | gap id => [id]
  | node id _ _ _ _ children otherwise => id :: (preorderAll children ++ preorderNext otherwise)

def preorderAll : List Outline → List ElementId
  | [] => []
  | o :: os => o.preorder ++ preorderAll os

def preorderNext : Option Outline → List ElementId
  | none => []
  | some o => o.preorder

end

theorem sizeAll_append (os ps : List Outline) : sizeAll (os ++ ps) = sizeAll os + sizeAll ps := by
  induction os with
  | nil => simp [sizeAll]
  | cons o os ih => simp [sizeAll, ih, Nat.add_assoc]

theorem sizeAll_toList (o : Option Outline) : sizeAll o.toList = sizeNext o := by
  cases o <;> simp [sizeAll, sizeNext]

/-- Visits the outlines on a stack, each before its children and those before its next branch. A gap
is refused. -/
def drain : List Outline → Except Refusal (List ElementId)
  | [] => .ok []
  | gap id :: _ => .error (.unknownElement id)
  | node id _ _ _ _ children otherwise :: stack => do
    let later ← drain (children ++ (otherwise.toList ++ stack))
    .ok (id :: later)
termination_by stack => sizeAll stack
decreasing_by
  simp only [sizeAll_append, sizeAll_toList, sizeAll, size]
  omega

/-! ## Visits -/

mutual

/-- The elements that a visit meets. A visit goes on from namespaces, types and regions to their
children, and from a branch of a conditional to its children and then to the next branch. -/
def visits : Outline → List Outline
  | gap id => [gap id]
  | node id name element headers applied children otherwise =>
    node id name element headers applied children otherwise ::
      match element with
      | .nameSpace _ | .typeDeclaration _ | .region _ => visitsAll children
      | .conditionDirective _ _ => visitsAll children ++ visitsNext otherwise
      | _ => []

def visitsAll : List Outline → List Outline
  | [] => []
  | o :: os => o.visits ++ visitsAll os

def visitsNext : Option Outline → List Outline
  | none => []
  | some o => o.visits

end

/-- The elements under their numbers; a gap is refused. -/
def known : List Outline → Except Refusal (List (ElementId × Element))
  | [] => .ok []
  | gap id :: _ => .error (.unknownElement id)
  | node id _ element _ _ _ _ :: os => do
    let later ← known os
    .ok ((id, element) :: later)

end Outline

namespace Tree

/-- An element and everything beneath it, where an element comes before its children and those
before its next branch. -/
def descendants (t : Tree) (id : ElementId) : Except Refusal (List ElementId) :=
  Outline.drain [t.outline id]

/-- The first element with a name among the descendants of the given elements. -/
def findAmong (t : Tree) (name : Text) : List ElementId → Except Refusal (Option ElementId)
  | [] => .ok none
  | id :: ids => do
    let below ← t.descendants id
    match below.find? fun d ↦ t.nameOf d == name with
    | some d => .ok (some d)
    | none => t.findAmong name ids

/-- The first element with a name that can be reached from the roots. -/
def find (t : Tree) (name : Text) : Except Refusal (Option ElementId) := t.findAmong name t.roots

/-- The elements that visits of the given elements meet, with their data. -/
def visit (t : Tree) (ids : List ElementId) : Except Refusal (List (ElementId × Element)) :=
  Outline.known (Outline.visitsAll (ids.map t.outline))

end Tree

/-! ## Shape -/

/-- What the shape of a tree says of one element. -/
structure ShapeEntry where
  depth : Nat
  kind : Kind
  name : Text
deriving DecidableEq, Repr

namespace Tree

/-- The shape beneath an element, `limit` levels deep. The branches of a conditional stand side by
side. -/
def shapeUpTo (t : Tree) : Nat → Nat → ElementId → Except Refusal (List ShapeEntry)
  | 0, _, id => .error (.unknownElement id)
  | n + 1, depth, id => do
    let branches ← t.chain id
    let parts ← branches.mapM fun b ↦ do
      let node ← t.node b
      let below ← node.children.mapM (t.shapeUpTo n (depth + 1))
      pure ((⟨depth, node.kind, node.name⟩ : ShapeEntry) :: below.flatten)
    pure parts.flatten

/-- The depth, kind and name of each element that can be reached from the roots, in order. -/
def shape (t : Tree) : Except Refusal (List ShapeEntry) := do
  let parts ← t.roots.mapM (t.shapeUpTo (t.size + 1) 0)
  pure parts.flatten

end Tree

end SharpOutline
