import SharpOutline.Fault

/-!
# Trees of elements

A tree keeps its elements in a store that only grows: an element is a number, and the store says
what stands under that number. The places of elements are links between numbers. An element may be
a root, or it may stand in one of the three lists of another element, which is then its parent: the
children, the comments above the declaration, and the attributes applied to it.

Nothing in the type forces the links to agree with each other. That they do is a property of the
trees that the edits build, and is stated beside the edits.
-/

namespace SharpOutline

/-- An element in a tree: its name, its data and its links. -/
structure Node where
  name : Text
  parent : Option ElementId := none
  children : List ElementId := []
  headerComments : List ElementId := []
  attributes : List ElementId := []
  element : Element
deriving DecidableEq, Repr

/-- The lists of an element in which other elements may stand. -/
inductive Slot where
  | children
  | headerComments
  | attributes
deriving DecidableEq, Repr

namespace Node

def kind (n : Node) : Kind := n.element.kind

def list (n : Node) : Slot → List ElementId
  | .children => n.children
  | .headerComments => n.headerComments
  | .attributes => n.attributes

def modifyList (n : Node) (f : List ElementId → List ElementId) : Slot → Node
  | .children => { n with children := f n.children }
  | .headerComments => { n with headerComments := f n.headerComments }
  | .attributes => { n with attributes := f n.attributes }

/-- The node with an element removed from all its lists. -/
def drop (n : Node) (id : ElementId) : Node :=
  { n with
    children := n.children.filter (· != id)
    headerComments := n.headerComments.filter (· != id)
    attributes := n.attributes.filter (· != id) }

end Node

/-- A tree: what stands under each number, and the roots in order. -/
structure Tree where
  nodes : Array Node := #[]
  roots : List ElementId := []
deriving DecidableEq, Repr

namespace Tree

/-- The number of elements that were ever created. -/
def size (t : Tree) : Nat := t.nodes.size

/-- What stands under a number. -/
def get? (t : Tree) (id : ElementId) : Option Node := t.nodes[id]?

/-- What stands under a number, which must be known. -/
def node (t : Tree) (id : ElementId) : Except Refusal Node :=
  match t.get? id with
  | some n => .ok n
  | none => .error (.unknownElement id)

/-- The name under a number; an unknown number has the empty name. -/
def nameOf (t : Tree) (id : ElementId) : Text := ((t.get? id).map Node.name).getD []

def parent? (t : Tree) (id : ElementId) : Option ElementId := (t.get? id).bind Node.parent

def otherwise? (t : Tree) (id : ElementId) : Option ElementId :=
  (t.get? id).bind fun n ↦ n.element.otherwise?

/-- The tree with a new element that stands nowhere yet. Its number is the old size. -/
def create (t : Tree) (name : Text) (element : Element) : Tree :=
  { t with nodes := t.nodes.push { name := name, element := element } }

/-- The tree with a change to what stands under a number; an unknown number changes nothing. -/
def modify (t : Tree) (id : ElementId) (f : Node → Node) : Tree :=
  { t with nodes := t.nodes.modify id f }

def setName (t : Tree) (id : ElementId) (name : Text) : Except Refusal Tree := do
  let _ ← t.node id
  .ok (t.modify id fun n ↦ { n with name := name })

def setElement (t : Tree) (id : ElementId) (element : Element) : Except Refusal Tree := do
  let _ ← t.node id
  .ok (t.modify id fun n ↦ { n with element := element })

@[simp] theorem size_create (t : Tree) (name : Text) (e : Element) :
    (t.create name e).size = t.size + 1 := by
  simp [size, create]

@[simp] theorem size_modify (t : Tree) (id : ElementId) (f : Node → Node) :
    (t.modify id f).size = t.size := by
  simp [size, modify]

@[simp] theorem roots_modify (t : Tree) (id : ElementId) (f : Node → Node) :
    (t.modify id f).roots = t.roots := rfl

theorem get?_modify (t : Tree) (id : ElementId) (f : Node → Node) (x : ElementId) :
    (t.modify id f).get? x = if id = x then (t.get? x).map f else t.get? x := by
  simp [get?, modify, Array.getElem?_modify]

theorem get?_create (t : Tree) (name : Text) (e : Element) (x : ElementId) :
    (t.create name e).get? x =
      if x = t.size then some { name := name, element := e } else t.get? x := by
  rw [get?, create, Array.getElem?_push]
  rfl

end Tree

end SharpOutline
