import SharpOutline.Block.Draft

/-!
# Comments, regions and conditionals

What a slash or a number sign starts. A line comment may mark a region; other comments wait for the
next declaration. Directives open and close scopes, and are only allowed between declarations.
-/

namespace SharpOutline

namespace Drafting

/-! ## Regions -/

def openRegion (name : Text) (isDirective : Bool) : Drafting Step := do
  checkNoAttributes
  flushComments
  let id ← create name (.region isDirective)
  modifyBlock fun b ↦ { b with scopes := .region id :: b.scopes }
  return .more

/-- Closes the innermost scope and adds its element to the one around it. -/
def closeScope (id : ElementId) : Drafting Step := do
  modifyBlock fun b ↦ { b with scopes := b.scopes.tail }
  emit [id]

/-- Closes a region, which has to be the innermost scope. -/
def closeRegion : Drafting Step := do
  checkNoAttributes
  let b ← block
  match b.scopes with
  | .region id :: _ => do
    adoptComments id
    closeScope id
  | _ => throw .unmatchedEndRegion

/-! ## Conditionals -/

/-- Adds a branch of a conditional to the tree; it is named after its condition. -/
def createBranch (condition : Option Text) : Drafting ElementId :=
  create (condition.getD []) (.conditionDirective condition none)

def openConditional (condition : Text) : Drafting Step := do
  checkNoAttributes
  flushComments
  let id ← createBranch (some condition)
  modifyBlock fun b ↦ { b with scopes := .conditional id id :: b.scopes }
  return .more

/-- The first and the current branch of the innermost scope, which has to be a conditional. -/
def innermostConditional (directive : Text) : Drafting (ElementId × ElementId) := do
  let b ← block
  match b.scopes with
  | .conditional head current :: _ => return (head, current)
  | .region id :: _ => do
    let name ← nameOf id
    throw (.missingEndRegion name)
  | [] => throw (.unmatchedConditional directive)

/-- The branch has no condition, so that it is the last one. -/
def isLastResort (t : Tree) (id : ElementId) : Bool :=
  match t.get? id with
  | some { element := .conditionDirective none _, .. } => true
  | _ => false

/-- Goes on with the next branch of a conditional. -/
def nextBranch (condition : Option Text) (directive : Text) : Drafting Step := do
  checkNoAttributes
  let (head, current) ← innermostConditional directive
  let d ← get
  if isLastResort d.tree current then throw (.branchAfterElse directive)
  else do
    adoptComments current
    let branch ← createBranch condition
    edit fun t ↦ t.setOtherwise current (some branch)
    modifyBlock fun b ↦ { b with scopes := .conditional head branch :: b.scopes.tail }
    return .more

def closeConditional : Drafting Step := do
  checkNoAttributes
  let (head, current) ← innermostConditional "endif".toList
  adoptComments current
  closeScope head

/-! ## Directives -/

/-- The condition of a directive, without a comment that follows it. -/
def conditionText (t : Text) : Text := Text.trim (Text.before "//".toList t)

/-- Carries out a directive, given by its name and the text after it. -/
def carryOut (directive argument : Text) : Drafting Step :=
  if directive = "region".toList then openRegion argument true
  else if directive = "endregion".toList then closeRegion
  else if directive = "if".toList then openConditional (conditionText argument)
  else if directive = "elif".toList then nextBranch (some (conditionText argument)) directive
  else if directive = "else".toList then nextBranch none directive
  else if directive = "endif".toList then closeConditional
  else throw (.unsupportedDirective directive)

/-- Reads a directive after its number sign. -/
def directive : Drafting Step := do
  let line ← read Reading.line
  let line := Text.trimStart line
  let name := line.takeWhile isAlphabetic
  let argument := Text.trim (line.dropWhile isAlphabetic)
  let b ← block
  let text := Text.trim b.text
  if !text.isEmpty then throw (.directiveInsideElement name text)
  else carryOut name argument

/-! ## Comments -/

/-- Lets a comment wait for the next declaration. -/
def keepComment (c : Comment) : Drafting Step := do
  let id ← create [] (.comment c)
  modifyBlock fun b ↦ { b with comments := b.comments ++ [id] }
  return .more

/-- Takes a comment as a marker of a region if it is one, and otherwise lets it wait. -/
def placeComment (m : RegionMarkers) (c : Comment) : Drafting Step :=
  if c.kind = .line then
    match m.opened? c.text with
    | some name => openRegion name false
    | none => if (m.closed? c.text).isSome then closeRegion else keepComment c
  else keepComment c

/-- Reads what follows a slash: a comment, or the slash belongs to the text. -/
def slash (m : RegionMarkers) : Drafting Step := do
  let found ← read Reading.comment?
  match found with
  | some c => placeComment m c
  | none => do
    push '/'
    return .more

end Drafting

end SharpOutline
