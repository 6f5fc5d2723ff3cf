import SharpOutline.Block.Constraint
import SharpOutline.Block.Draft
import SharpOutline.Signature

/-!
# Namespaces, using directives and types

What a keyword starts. A namespace or a type other than an enumeration opens a block of its own; its
declaration goes on when that block has ended.
-/

namespace SharpOutline

/-- What ends the block of a namespace or type. -/
inductive Ending where
  /-- A closing brace, for a namespace. -/
  | namespaceBrace
  /-- The end of the block around it, for a namespace of a whole file. -/
  | outerEnd
  /-- A closing brace, which a semicolon may follow, for a type. -/
  | typeBrace
deriving DecidableEq, Repr

/-- What reading a character of a block leads to. -/
inductive Signal where
  /-- The step is done. -/
  | done (step : Step)
  /-- The block of an element starts here. -/
  | opened (owner : ElementId) (ending : Ending)
deriving DecidableEq, Repr

namespace Drafting

/-! ## Namespaces -/

/-- Reads the name of a namespace and the start of its block. -/
def openNamespace : Drafting Signal := do
  let name ← read (Reading.word false)
  if name.isEmpty then throw (.expectedName "a namespace name".toList)
  else do
    read Reading.skipBlanks
    let c ← read Reading.peek
    if c = ';' then do
      read (Reading.skip 1)
      let id ← create name (.nameSpace true)
      return .opened id .outerEnd
    else if c = '\x7b' then do
      read (Reading.skip 1)
      let id ← create name (.nameSpace false)
      return .opened id .namespaceBrace
    else if c = endMark then throw (.unexpectedEnd ['\x7b'])
    else throw (.expectedCharacter '\x7b' c)

/-! ## Using directives -/

/-- Reads what an alias stands for: a type or a tuple of types. -/
def aliasTarget : Reading Text := do
  Reading.skipBlanks
  let c ← Reading.peek
  if c = '(' then do
    Reading.skip 1
    let inside ← Reading.bracketedTrimmed '(' ')'
    return '(' :: inside ++ [')']
  else Reading.typeName

/-- Reads the alias that may follow a name in a using directive. -/
def aliasClause? (name : Text) : Reading (Option Text) := do
  Reading.skipBlanks
  let c ← Reading.peek
  if c = '=' then do
    Reading.skip 1
    let target ← aliasTarget
    if target.isEmpty then throw (.expectedName ("an alias target for '".toList ++ name ++ ['\'']))
    else return some target
  else return none

/-- Reads the name in a using directive, and whether it is that of a type whose members are
meant. -/
def usingName : Reading (Bool × Text) := do
  let first ← Reading.word true
  if first = "static".toList then do
    let name ← Reading.word true
    return (true, name)
  else return (false, first)

def usingDirective : Drafting Step := do
  let (isStatic, name) ← read usingName
  if name.isEmpty then throw (.expectedName "a namespace or type name".toList)
  else do
    let target ← read (aliasClause? name)
    read (Reading.expect ';')
    let id ← create name (.usingDirective ⟨target, isStatic, true⟩)
    emitMember id

/-! ## Types -/

/-- References to base types, none of which may be empty. -/
def baseReferences : List Text → Except Fault (List TypeReference)
  | [] => .ok []
  | base :: bases =>
    if base.isEmpty then .error .expectedTypeName
    else do
      let references ← baseReferences bases
      .ok (⟨base, .unknown⟩ :: references)

/-- The base types in the part of a header before the constraints. -/
def basesOf (t : Text) : Except Fault (List TypeReference) :=
  match t with
  | [] => .ok []
  | ':' :: list => baseReferences (listParts list)
  | _ => .error (.unhandledText t)

/-- A type with the base types and constraints of its header. -/
def withHeader (header : Text) (t : TypeDeclaration) : Except Fault TypeDeclaration := do
  let words := phraseWords header
  let isBefore := fun w ↦ w != "where".toList
  let bases ← basesOf (Text.join [' '] (words.takeWhile isBefore))
  let parameters ←
    applyConstraints (Text.join [' '] (words.dropWhile isBefore)) t.typeParameters
  .ok { t with bases := bases, typeParameters := parameters }

/-- Passes the semicolon that may follow a type on its line. -/
def skipSemicolon : Reading Unit := do
  Reading.skipSpaces
  let c ← Reading.peek
  if c = ';' then Reading.skip 1 else pure ()

/-- Reads a type after its keyword; `words` are the keywords, the last one included. -/
def openType (words : List Text) : Drafting Signal := do
  let s ← ofExcept (Signature.ofKeywords words)
  match s.kind with
  | .type kind => do
    let fullName ← read (Reading.word true)
    if fullName.isEmpty then
      throw (.expectedName ("a name after '".toList ++ kind.keyword ++ ['\'']))
    else do
      let (name, parameters) := genericName fullName
      let header ← read Reading.header
      let t ← ofExcept (withHeader header
        { kind := kind, access := s.access, modifiers := s.modifiers,
          typeParameters := parameters.map fun n ↦ { name := n } })
      if kind = .enumType then do
        let body ← read (Reading.bracketed '\x7b' '\x7d')
        let id ← create name (.typeDeclaration { t with bodyText := some body })
        read skipSemicolon
        let step ← emitMember id
        return .done step
      else do
        let id ← create name (.typeDeclaration t)
        return .opened id .typeBrace
  | _ => throw (Signature.unhandled words)

/-! ## Keywords -/

/-- Looks at the words read so far when a word has ended; a keyword at their end may start a
declaration. -/
def wordEnd : Drafting Signal := do
  let b ← block
  let words := phraseWords (Text.trim b.text)
  match words.getLast? with
  | none => return .done .more
  | some last =>
    if last = "namespace".toList ∧ words.dropLast = [] then do
      modifyBlock fun b ↦ { b with text := [] }
      openNamespace
    else if last = "using".toList ∧ words.dropLast = [] then do
      modifyBlock fun b ↦ { b with text := [] }
      let step ← usingDirective
      return .done step
    else if isTypeWord last ∧ words.dropLast.all isLeadingWord then do
      modifyBlock fun b ↦ { b with text := [] }
      openType words
    else return .done .more

end Drafting

end SharpOutline
