import SharpOutline.Region
import SharpOutline.Source.Reading
import SharpOutline.Tree.Copy

/-!
# Drafts

What is in the making while a block of declarations is read: the cursor, the tree that has been
built so far, and the state of the block. A fault leaves the draft as it is at that moment, so
everything that was read before it can still be seen.

Comments and attributes wait for the declaration that follows them. Regions and conditionals are
scopes inside the block: while one is open, finished elements become its children.
-/

namespace SharpOutline

/-- An open region or conditional. -/
inductive Scope where
  | region (id : ElementId)
  /-- A conditional with its first branch and the one that is being read. -/
  | conditional (head current : ElementId)
deriving DecidableEq, Repr

/-- The element that receives what is read in a scope. -/
def Scope.owner : Scope → ElementId
  | region id => id
  | conditional _ current => current

/-- The state of a block. -/
structure Block where
  /-- The text of the declaration that is being read, its runs of blanks folded into spaces. -/
  text : Text := []
  /-- Comments that wait for a declaration. -/
  comments : List ElementId := []
  /-- Attributes that wait for a declaration. -/
  attributes : List ElementId := []
  /-- The open scopes, innermost first. -/
  scopes : List Scope := []
  /-- The elements of the block itself. -/
  elements : List ElementId := []
deriving DecidableEq, Repr

/-- Everything that is in the making. -/
structure Draft where
  cursor : Cursor
  tree : Tree := {}
  block : Block := {}
deriving DecidableEq, Repr

/-- Works on a draft, and returns a value or meets a fault. -/
abbrev Drafting (α : Type) := EStateM Fault Draft α

/-- What one step of the reading of a block has done. -/
inductive Step where
  /-- More has to be read before an element is complete. -/
  | more
  /-- So many elements were added to the block or to an open scope. -/
  | produced (count : Nat)
  /-- The block has ended. -/
  | finished
deriving DecidableEq, Repr

namespace Drafting

/-! ## Parts of the draft -/

def read {α : Type} (r : Reading α) : Drafting α := fun d ↦
  match r d.cursor with
  | .ok a c => .ok a { d with cursor := c }
  | .error f c => .error f { d with cursor := c }

/-- Edits the tree; a refusal is a fault. -/
def edit (change : Tree → Except Refusal Tree) : Drafting Unit := fun d ↦
  match change d.tree with
  | .ok t => .ok () { d with tree := t }
  | .error r => .error (.refused r) d

/-- Adds an element to the tree that stands nowhere yet. -/
def create (name : Text) (element : Element) : Drafting ElementId := fun d ↦
  .ok d.tree.size { d with tree := d.tree.create name element }

/-- The name of an element. -/
def nameOf (id : ElementId) : Drafting Text := do return (← get).tree.nameOf id

def block : Drafting Block := do return (← get).block

def modifyBlock (f : Block → Block) : Drafting Unit := modify fun d ↦ { d with block := f d.block }

def ofExcept {α : Type} : Except Fault α → Drafting α
  | .ok a => pure a
  | .error f => throw f

/-! ## The text of the declaration -/

def push (c : Char) : Drafting Unit := modifyBlock fun b ↦ { b with text := b.text ++ [c] }

/-- The text without the blanks at its end, and with a bracketed text added. -/
def pushBracketed (opener closer : Char) (inside : Text) : Drafting Unit :=
  modifyBlock fun b ↦
    { b with text := Text.trimEnd b.text ++ opener :: inside ++ [closer] }

/-- Takes the text away and trims it. -/
def takeText : Drafting Text := do
  let b ← block
  modifyBlock fun b ↦ { b with text := [] }
  return Text.trim b.text

/-! ## Placing elements -/

/-- Adds an element to the innermost scope, or else to the block. -/
def attach (id : ElementId) : Drafting Unit := do
  let b ← block
  match b.scopes with
  | [] => modifyBlock fun b ↦ { b with elements := b.elements ++ [id] }
  | scope :: _ => edit fun t ↦ t.addChild scope.owner id

def attachAll : List ElementId → Drafting Unit
  | [] => pure ()
  | id :: ids => do
    attach id
    attachAll ids

/-- Adds elements and says how many there were. -/
def emit (ids : List ElementId) : Drafting Step := do
  attachAll ids
  return .produced ids.length

def editAll (change : ElementId → Tree → Except Refusal Tree) : List ElementId → Drafting Unit
  | [] => pure ()
  | id :: ids => do
    edit (change id)
    editAll change ids

def takeComments : Drafting (List ElementId) := do
  let b ← block
  modifyBlock fun b ↦ { b with comments := [] }
  return b.comments

def takeAttributes : Drafting (List ElementId) := do
  let b ← block
  modifyBlock fun b ↦ { b with attributes := [] }
  return b.attributes

/-- Gives the waiting comments and attributes to a declaration. -/
def applyHeader (id : ElementId) : Drafting Unit := do
  let comments ← takeComments
  editAll (fun c t ↦ t.addHeaderComment id c) comments
  let applied ← takeAttributes
  editAll (fun a t ↦ t.addAttribute id a) applied

/-- Makes the waiting comments elements of their own. -/
def flushComments : Drafting Unit := do
  let comments ← takeComments
  attachAll comments

/-- Makes the waiting comments the last children of a scope. -/
def adoptComments (owner : ElementId) : Drafting Unit := do
  let comments ← takeComments
  editAll (fun c t ↦ t.addChild owner c) comments

def checkNoAttributes : Drafting Unit := do
  let b ← block
  match b.attributes with
  | [] => pure ()
  | id :: _ => do
    let name ← nameOf id
    throw (.unattachedAttribute name)

/-- Adds the comment that follows on the same line as an element of its own to the elements before
it. -/
def withTrailingComment (ids : List ElementId) : Drafting (List ElementId) := do
  let found ← read Reading.trailingComment?
  match found with
  | none => return ids
  | some comment => do
    let id ← create [] (.comment comment)
    return ids ++ [id]

/-- Adds a finished declaration with its header, and the comment that follows it. -/
def emitMember (id : ElementId) : Drafting Step := do
  applyHeader id
  let ids ← withTrailingComment [id]
  emit ids

/-- The elements of a block that has ended; nothing may be left open. -/
def finishBlock : Drafting (List ElementId) := do
  let text ← takeText
  let b ← block
  if !text.isEmpty then throw (.unhandledText text)
  else
    match b.scopes with
    | .region id :: _ => do
      let name ← nameOf id
      throw (.missingEndRegion name)
    | .conditional head _ :: _ => do
      let name ← nameOf head
      throw (.missingEndIf name)
    | [] => do
      checkNoAttributes
      flushComments
      let b ← block
      return b.elements

end Drafting

end SharpOutline
