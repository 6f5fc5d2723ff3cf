import SharpOutline.Block.Constraint
import SharpOutline.Block.Draft
import SharpOutline.Signature

/-!
# Members

What the end of a signature starts. By then the text of the declaration is complete; its words are
sorted, and the rest of the member is read from the source: parameters, initial values and bodies.
One declaration may declare several fields or events, which are then copies of the first with names
and initial values of their own.
-/

namespace SharpOutline

/-- A declared name with its initial value. -/
structure DeclaredName where
  name : Text
  initialValue : Option Text := none
deriving DecidableEq, Repr

/-- The interface that a member implements, as a reference. -/
def interfaceReferences : Option Text → List TypeReference
  | none => []
  | some name => [⟨name, .interfaceType⟩]

/-- Type parameters without constraints. -/
def typeParametersOf (names : List Text) : List TypeParameter := names.map fun n ↦ { name := n }

namespace Signature

def toField (s : Signature) (d : DeclaredName) (comment : Option Comment) : Text × Field :=
  let (name, count) := if s.isFixed then fixedSize d.name else (d.name, none)
  (name,
    { access := s.access, modifiers := s.modifiers, type := s.returnType.getD []
      initialValue := d.initialValue, isVolatile := s.isVolatile, isFixed := s.isFixed
      fixedSize := count, trailingComment := comment })

def toProperty (s : Signature) (body : MemberBody) (value : Option Text) : Text × Property :=
  let (interface, name) := qualifiedName s.name
  (name,
    { access := s.access, modifiers := s.modifiers, type := s.returnType.getD []
      implementations := interfaceReferences interface, body := body, initialValue := value })

def toEvent (s : Signature) (d : DeclaredName) (body : MemberBody) : Text × Event :=
  let (interface, name) := qualifiedName d.name
  (name,
    { access := s.access, modifiers := s.modifiers, type := s.returnType.getD []
      implementations := interfaceReferences interface, body := body
      initialValue := d.initialValue })

/-- The interface, the name and the type parameters of a method. An operator has its symbol for a
name and nothing else. -/
def methodName (s : Signature) : List TypeReference × Text × List TypeParameter :=
  if s.operator.isSome then ([], s.name, [])
  else
    let (interface, qualified) := qualifiedName s.name
    let (name, parameters) := genericName qualified
    (interfaceReferences interface, name, typeParametersOf parameters)

/-- The method that a signature declares, with the parts that follow the signature. -/
def toMethod (s : Signature) (parameters : Text) (implementations : List TypeReference)
    (typeParameters : List TypeParameter) (body : MemberBody) : Method :=
  let kind := s.operator.getD .symbolic
  { access := s.access, modifiers := s.modifiers
    returnType := if kind = .symbolic then s.returnType else none
    parameters := parameters, typeParameters := typeParameters
    implementations := implementations, isOperator := s.operator.isSome, operatorKind := kind
    isAsync := s.isAsync, body := body }

end Signature

/-! ## Several names -/

/-- The further names before an initial value; each is a single word. -/
def furtherNames (text : Text) : List Text → Except Fault (List DeclaredName)
  | [] => .ok []
  | part :: parts =>
    if part.isEmpty || part.any isBlank then .error (.unhandledText text)
    else do
      let names ← furtherNames text parts
      .ok ({ name := part } :: names)

/-- The signature at the front of a list of names, and all the names. -/
def declaredNames (text : Text) : Except Fault (Signature × DeclaredName × List DeclaredName) :=
  match listParts text with
  | [] => .error (.expectedName "a member name".toList)
  | head :: parts => do
    let s ← Signature.ofWords (phraseWords head)
    let names ← furtherNames text parts
    .ok (s, { name := s.name }, names)

/-- A name after an initial value, with or without a value of its own. -/
def laterName (text part : Text) : Except Fault DeclaredName :=
  let (name, value) :=
    match Text.splitOnce '=' part with
    | some (name, value) => (Text.trim name, some (Text.trim value))
    | none => (Text.trim part, none)
  if name.isEmpty || name.any isBlank then
    .error (.unhandledText (text ++ " = ".toList ++ part))
  else .ok ⟨name, value⟩

def laterNames (text : Text) : List Text → Except Fault (List DeclaredName)
  | [] => .ok []
  | part :: parts => do
    let d ← laterName text part
    let names ← laterNames text parts
    .ok (d :: names)

def initializeLast (value : Text) (first : DeclaredName) :
    List DeclaredName → DeclaredName × List DeclaredName
  | [] => ({ first with initialValue := some value }, [])
  | d :: ds =>
    let (last, rest) := initializeLast value d ds
    (first, last :: rest)

/-- All names of a declaration with initial values: the value belongs to the last name before it,
and further names may follow. -/
def initializedNames (text value : Text) (first : DeclaredName) (names : List DeclaredName) :
    Except Fault (DeclaredName × List DeclaredName) :=
  match listParts value with
  | [] | [] :: _ =>
    .error (.expectedName ("an initial value for '".toList ++ text ++ ['\'']))
  | v :: parts => do
    let later ← laterNames text parts
    let (first, names) := initializeLast v first names
    .ok (first, names ++ later)

/-- A copy of a field or event under another name. Only the first field keeps the comment. -/
def Element.renamed (e : Element) (d : DeclaredName) : Text × Element :=
  match e with
  | .field f =>
    let (name, count) := if f.isFixed then SharpOutline.fixedSize d.name else (d.name, f.fixedSize)
    (name, .field
      { f with initialValue := d.initialValue, trailingComment := none, fixedSize := count })
  | .event v => (d.name, .event { v with initialValue := d.initialValue })
  | e => (d.name, e)

namespace Drafting

/-- Adds a copy of an element under another name. -/
def copyAs (first : ElementId) (d : DeclaredName) : Drafting ElementId := fun draft ↦
  match draft.tree.copy first with
  | .error r => .error (.refused r) draft
  | .ok (t, id) =>
    .ok id { draft with
      tree := t.modify id fun n ↦
        { n with name := (n.element.renamed d).1, element := (n.element.renamed d).2 } }

def copiesAs (first : ElementId) : List DeclaredName → Drafting (List ElementId)
  | [] => pure []
  | d :: ds => do
    let id ← copyAs first d
    let ids ← copiesAs first ds
    return id :: ids

/-- Adds a field or event with copies of it for the further names. The comment that follows an event
becomes an element of its own. -/
def emitNames (isField : Bool) (first : ElementId) (names : List DeclaredName) :
    Drafting Step := do
  applyHeader first
  let copies ← copiesAs first names
  if isField then emit (first :: copies)
  else do
    let ids ← withTrailingComment (first :: copies)
    emit ids

/-! ## Parameters -/

/-- Adds a method, whose parameters follow. -/
def method (s : Signature) : Drafting ElementId := do
  let parameters ← read (Reading.bracketed '(' ')')
  let (clauses, start) ← read Reading.tail
  let body ← read (Reading.body start)
  let (implementations, name, typeParameters) := s.methodName
  let typeParameters ← ofExcept (applyConstraints clauses typeParameters)
  create name (.method (s.toMethod parameters implementations typeParameters body))

/-- The call of another constructor in what follows the parameters of a constructor. -/
def constructorCall (tail : Text) : Except Fault (Option Text) :=
  match tail with
  | [] => .ok none
  | ':' :: call => .ok (some (Text.trim call))
  | _ => .error (.unhandledText tail)

/-- Adds a constructor, whose parameters follow. -/
def constructor (s : Signature) : Drafting ElementId := do
  let parameters ← read (Reading.bracketed '(' ')')
  let (tail, start) ← read Reading.tail
  let call ← ofExcept (constructorCall tail)
  let body ← read (Reading.body start)
  create s.name (.constructor ⟨s.access, s.modifiers, parameters, call, body⟩)

/-- Adds a delegate, whose parameters follow; it has no body. -/
def delegate (s : Signature) : Drafting ElementId := do
  let parameters ← read (Reading.bracketed '(' ')')
  let (clauses, start) ← read Reading.tail
  if start ≠ .statement then do
    let d ← get
    throw (.expectedCharacter ';' d.cursor.current)
  else do
    let (name, names) := genericName s.name
    let typeParameters ← ofExcept (applyConstraints clauses (typeParametersOf names))
    create name
      (.delegate ⟨s.access, s.modifiers, s.returnType.getD [], parameters, typeParameters⟩)

def parameterized (s : Signature) : Kind → Drafting ElementId
  | .delegate => delegate s
  | .constructor => constructor s
  | _ => method s

/-- Reads what follows an opening parenthesis: the elements of a tuple type if only keywords stand
before it, and otherwise parameters. -/
def parenthesis : Drafting Step := do
  let b ← block
  if (phraseWords (Text.trim b.text)).all isLeadingWord && !endsInOperator b.text then do
    let inside ← read (Reading.bracketedTrimmed '(' ')')
    modifyBlock fun b ↦
      { b with
        text := (if b.text.isEmpty || b.text.getLast? == some ' ' then b.text else b.text ++ [' '])
          ++ '(' :: inside ++ [')'] }
    return .more
  else do
    let text ← takeText
    let s ← ofExcept (Signature.ofWords (phraseWords text))
    let kind ← ofExcept (s.declares .parameters)
    let id ← parameterized s kind
    emitMember id

/-! ## Fields, events and properties -/

/-- Reads the end of a declaration without a body. -/
def semicolon : Drafting Step := do
  let text ← takeText
  if text.isEmpty then return .more
  else do
    let (s, first, names) ← ofExcept (declaredNames text)
    let kind ← ofExcept (s.declares .statement)
    if kind = .event then do
      let (name, e) := s.toEvent first .absent
      let id ← create name (.event e)
      emitNames false id names
    else do
      let comment ← read Reading.trailingComment?
      let (name, f) := s.toField first comment
      let id ← create name (.field f)
      emitNames true id names

/-- Reads the initial values after an equals sign. -/
def initialValue (text : Text) : Drafting Step := do
  let (s, first, names) ← ofExcept (declaredNames text)
  let kind ← ofExcept (s.declares .assignment)
  let value ← read Reading.statement
  if kind = .field then do
    let comment ← read Reading.trailingComment?
    let (first, names) ← ofExcept (initializedNames text value first names)
    let (name, f) := s.toField first comment
    let id ← create name (.field f)
    emitNames true id names
  else do
    let (first, names) ← ofExcept (initializedNames text value first names)
    let (name, e) := s.toEvent first .absent
    let id ← create name (.event e)
    emitNames false id names

/-- Reads the expression of a property after its arrow. -/
def expressionBody (text : Text) : Drafting Step := do
  let s ← ofExcept (Signature.ofWords (phraseWords text))
  let _ ← ofExcept (s.declares .expressionBody)
  let e ← read Reading.statement
  let (name, p) := s.toProperty (.expression e) none
  let id ← create name (.property p)
  emitMember id

/-- Reads what follows an equals sign: an initial value, or the rest of an arrow and an
expression. -/
def equalsSign : Drafting Step := do
  let text ← takeText
  if text.isEmpty then throw (.unexpectedCharacter '=')
  else do
    let c ← read Reading.peek
    if c = '>' then do
      read (Reading.skip 1)
      expressionBody text
    else initialValue text

/-- Reads the initial value that may follow the accessors of a property. -/
def propertyValue : Drafting (Option Text) := do
  read Reading.skipBlanks
  let c ← read Reading.peek
  if c = '=' then do
    read (Reading.skip 1)
    let value ← read Reading.statement
    return some value
  else return none

/-- Reads the accessors of a property or event after their opening brace. -/
def brace : Drafting Step := do
  let text ← takeText
  if text.isEmpty then throw (.unexpectedCharacter '\x7b')
  else do
    let s ← ofExcept (Signature.ofWords (phraseWords text))
    let kind ← ofExcept (s.declares .block)
    let accessors ← read (Reading.bracketed '\x7b' '\x7d')
    if kind = .event then do
      let (name, e) := s.toEvent { name := s.name } (.block accessors)
      let id ← create name (.event e)
      emitMember id
    else do
      let value ← propertyValue
      let (name, p) := s.toProperty (.block accessors) value
      let id ← create name (.property p)
      emitMember id

end Drafting

end SharpOutline
