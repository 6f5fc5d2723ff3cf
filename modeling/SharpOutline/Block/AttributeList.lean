import SharpOutline.Block.Draft

/-!
# Attributes and ranks

What a square bracket starts: in the text of a declaration a rank or the parameters of an indexer,
and otherwise a list of attributes. The first attribute of a list stands for all of it, and the
others are its children.
-/

namespace SharpOutline

/-- An attribute of a list, with its name. -/
structure ListedAttribute where
  name : Text
  data : AttributeUse
deriving DecidableEq, Repr

namespace Reading

/-- Reads the name of an attribute, with the target that may stand before it. -/
def targetedName : Reading (Option Text × Text) := do
  let first ← word true
  skipBlanks
  let c ← peek
  if c = ':' then do
    skip 1
    let name ← word true
    skipBlanks
    return (some first, name)
  else return (none, first)

def plainName : Reading (Option Text × Text) := do
  let name ← word true
  skipBlanks
  return (none, name)

/-- Reads one attribute of a list; only the first one may have a target. -/
def attributeUse (isFirst : Bool) : Reading ListedAttribute := do
  let (target, name) ← cond isFirst targetedName plainName
  if name.isEmpty then throw (.expectedName "an attribute name".toList)
  else do
    let c ← peek
    if c = '(' then do
      let arguments ← enclosed '(' ')'
      return ⟨name, ⟨target, some (Text.trim arguments)⟩⟩
    else return ⟨name, ⟨target, none⟩⟩

/-- Reads what follows an attribute of a list, and says whether another one follows. -/
def attributeSeparator : Reading Bool := do
  skipBlanks
  let c ← peek
  if c = ',' then do
    skip 1
    return true
  else if c = ']' then do
    skip 1
    return false
  else if c = endMark then throw (.unexpectedEnd [']'])
  else throw (.expectedCharacter ']' c)

end Reading

namespace Drafting

/-- Reads further attributes of a list, at most `limit` of them, and makes them children of its
head. -/
def furtherAttributes (head : ElementId) : Nat → Drafting Unit
  | 0 => throw (.unexpectedEnd [']'])
  | n + 1 => do
    let more ← read Reading.attributeSeparator
    if more then do
      let a ← read (Reading.attributeUse false)
      let id ← create a.name (.attributeUse a.data)
      edit fun t ↦ t.addChild head id
      furtherAttributes head n
    else pure ()

/-- Reads a list of attributes after its bracket; every further attribute takes at least a comma. -/
def attributeList : Drafting (ElementId × Option Text) := do
  let a ← read (Reading.attributeUse true)
  let head ← create a.name (.attributeUse a.data)
  let d ← get
  furtherAttributes head (d.cursor.rest.length + 1)
  return (head, a.data.target)

/-- Reads what follows a square bracket. Attributes of the assembly and the module belong to no
declaration. -/
def squareBracket : Drafting Step := do
  let b ← block
  if !(Text.trim b.text).isEmpty then do
    let inside ← read (Reading.bracketedTrimmed '[' ']')
    pushBracketed '[' ']' inside
    return .more
  else do
    let (head, target) ← attributeList
    if target = some "assembly".toList ∨ target = some "module".toList then do
      flushComments
      emit [head]
    else do
      modifyBlock fun b ↦ { b with attributes := b.attributes ++ [head] }
      return .more

end Drafting

end SharpOutline
