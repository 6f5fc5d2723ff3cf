import SharpOutline.Tree.Outline

/-!
# Copies

A copy of an element is made by planting its outline again: every element of the outline becomes a
new element of the tree. Because an element must exist before anything can be put into its lists,
its children, comments and attributes are planted after it; because the number of the next branch is
part of its data, that branch is planted before it.
-/

namespace SharpOutline

namespace Outline

mutual

/-- Plants an outline and returns the number of its first element, which stands nowhere. -/
def plant (t : Tree) : Outline → Except Refusal (Tree × ElementId)
  | gap id => .error (.unknownElement id)
  | node _ name element headers applied children otherwise => do
    let (t, next) ← plantNext t otherwise
    let copy := t.size
    let t := t.create name (element.withOtherwise next)
    let t ← plantAll t copy .children children
    let t ← plantAll t copy .headerComments headers
    let t ← plantAll t copy .attributes applied
    .ok (t, copy)

/-- Plants outlines one after the other, each at the end of a list of an element. -/
def plantAll (t : Tree) (owner : ElementId) (slot : Slot) : List Outline → Except Refusal Tree
  | [] => .ok t
  | o :: os => do
    let (t, id) ← plant t o
    plantAll (t.appended owner slot id) owner slot os

def plantNext (t : Tree) : Option Outline → Except Refusal (Tree × Option ElementId)
  | none => .ok (t, none)
  | some o => do
    let (t, id) ← plant t o
    .ok (t, some id)

end

end Outline

/-- A copy of an element and of everything that hangs from it, which stands nowhere. -/
def Tree.copy (t : Tree) (id : ElementId) : Except Refusal (Tree × ElementId) :=
  Outline.plant t (t.outline id)

end SharpOutline
