import SharpOutline.Element.Basic
import SharpOutline.Layout.Line

/-!
# The text of declarations

How an element that is no block of other elements is written: its signature, and the lines that its
body adds. Words of a signature that are empty leave no trace.
-/

namespace SharpOutline

/-! ## Parts of signatures -/

/-- A flag as the word that states it. -/
def flagText (word : String) (isSet : Bool) : Text := if isSet then word.toList else []

def typeParameterList (ps : List TypeParameter) : Text :=
  if ps.isEmpty then [] else '<' :: Text.join ", ".toList (ps.map TypeParameter.name) ++ ['>']

def constraintClause (p : TypeParameter) : Text :=
  if p.constraints.isEmpty then []
  else " where ".toList ++ p.bareName?.getD p.name ++ " : ".toList ++
    Text.join ", ".toList p.constraints

def constraintClauses (ps : List TypeParameter) : Text := ps.flatMap constraintClause

/-- The name of a member, after the interface that it implements explicitly. -/
def implementingName (implementations : List TypeReference) (name : Text) : Text :=
  match implementations with
  | [] => name
  | first :: _ => first.name ++ '.' :: name

def Comment.written (c : Comment) : Text :=
  match c.kind with
  | .line => "//".toList ++ c.text
  | .documentation => "///".toList ++ c.text
  | .block => "/*".toList ++ c.text ++ "*/".toList

def AttributeUse.written (a : AttributeUse) (name : Text) : Text :=
  match a.arguments with
  | some arguments => name ++ '(' :: Text.trim arguments ++ [')']
  | none => name

/-! ## Bodies -/

/-- A signature with a raw block: on one line if the text of the block is, and otherwise with the
lines of the text between braces. -/
def rawBlockLines (depth : Nat) (signature text afterwards : Text) : List Line :=
  if !text.contains '\n' then
    let inside := Text.trim text
    if inside.isEmpty then [⟨depth, signature ++ " \x7b \x7d".toList ++ afterwards⟩]
    else [⟨depth, signature ++ " \x7b ".toList ++ inside ++ " \x7d".toList ++ afterwards⟩]
  else
    [⟨depth, signature⟩, ⟨depth, ['\x7b']⟩] ++ bodyLines (depth + 1) text ++
      [⟨depth, '\x7d' :: afterwards⟩]

/-- A signature with the body of a member. -/
def memberLines (depth : Nat) (signature : Text) : MemberBody → List Line
  | .absent => [⟨depth, signature ++ [';']⟩]
  | .expression e => [⟨depth, signature ++ " => ".toList ++ Text.trim e ++ [';']⟩]
  | .block t =>
    [⟨depth, signature⟩, ⟨depth, ['\x7b']⟩] ++ bodyLines (depth + 1) t ++ [⟨depth, ['\x7d']⟩]

def initializerText : Option Text → Text
  | none => []
  | some value => " = ".toList ++ Text.trim value

/-! ## Signatures -/

/-- The text of a directive that opens a namespace or names a type. -/
def UsingDirective.written (u : UsingDirective) (name : Text) : Text :=
  match u.aliasOf with
  | some target => "using ".toList ++ name ++ " = ".toList ++ target ++ [';']
  | none =>
    if u.isStatic then "using static ".toList ++ name ++ [';']
    else "using ".toList ++ name ++ [';']

/-- The list of the types that a type is derived from. -/
def baseList (bases : List TypeReference) : Text :=
  if bases.isEmpty then []
  else " : ".toList ++ Text.join ", ".toList (bases.map TypeReference.name)

def TypeDeclaration.signature (t : TypeDeclaration) (name : Text) : Text :=
  Text.joinWords [t.access.text, t.modifiers.text, t.kind.keyword] ++ ' ' :: name ++
    typeParameterList t.typeParameters ++ baseList t.bases ++ constraintClauses t.typeParameters

/-- What a method declares: its type and name, or the operator that it defines. -/
def Method.declarator (m : Method) (name : Text) : Text :=
  let qualified := implementingName m.implementations name
  if m.isOperator then
    match m.operatorKind with
    | .implicitConversion => "implicit operator ".toList ++ qualified
    | .explicitConversion => "explicit operator ".toList ++ qualified
    | .symbolic => Text.joinWords [m.returnType.getD [], "operator".toList, qualified]
  else Text.joinWords [m.returnType.getD [], qualified]

def Method.signature (m : Method) (name : Text) : Text :=
  Text.joinWords [m.access.text, m.modifiers.text, flagText "async" m.isAsync,
    m.declarator name] ++ typeParameterList m.typeParameters ++ '(' :: Text.trim m.parameters ++
    ')' :: constraintClauses m.typeParameters

/-- The declaration of a field, up to its semicolon. -/
def Field.signature (f : Field) (name : Text) : Text :=
  Text.joinWords [f.access.text, f.modifiers.text, flagText "volatile" f.isVolatile,
    flagText "fixed" f.isFixed, f.type, name] ++
    (match f.fixedSize with
      | none => []
      | some count => '[' :: count ++ [']']) ++
    initializerText f.initialValue ++ [';']

/-- The declaration of a field with the comment that follows it. -/
def Field.written (f : Field) (name : Text) : Text :=
  f.signature name ++
    match f.trailingComment with
    | none => []
    | some comment => ' ' :: comment.written

def Property.signature (p : Property) (name : Text) : Text :=
  Text.joinWords [p.access.text, p.modifiers.text, p.type, implementingName p.implementations name]

def Property.lines (p : Property) (depth : Nat) (name : Text) : List Line :=
  match p.body with
  | .block text =>
    rawBlockLines depth (p.signature name) text
      (match p.initialValue with
        | none => []
        | some value => initializerText (some value) ++ [';'])
  | body => memberLines depth (p.signature name) body

def Event.signature (e : Event) (name : Text) : Text :=
  Text.joinWords [e.access.text, e.modifiers.text, "event".toList, e.type,
    implementingName e.implementations name]

def Event.lines (e : Event) (depth : Nat) (name : Text) : List Line :=
  match e.body, e.initialValue with
  | .block text, _ => rawBlockLines depth (e.signature name) text []
  | .absent, some value => [⟨depth, e.signature name ++ initializerText (some value) ++ [';']⟩]
  | body, _ => memberLines depth (e.signature name) body

def Delegate.written (d : Delegate) (name : Text) : Text :=
  Text.joinWords [d.access.text, d.modifiers.text, "delegate".toList, d.returnType, name] ++
    typeParameterList d.typeParameters ++ '(' :: Text.trim d.parameters ++
    ')' :: constraintClauses d.typeParameters ++ [';']

def Constructor.signature (c : Constructor) (name : Text) : Text :=
  Text.joinWords [c.access.text, c.modifiers.text, name] ++ '(' :: Text.trim c.parameters ++
    ')' ::
      match c.initializer with
      | none => []
      | some call => " : ".toList ++ Text.trim call

/-! ## Comments -/

/-- A line of a comment after its first: the star of a block comment is set in by one. -/
def continuationText (l : Text) : Text :=
  let l := Text.trimStart l
  if l.head? = some '*' then ' ' :: l else l

def Comment.lines (c : Comment) (depth : Nat) : List Line :=
  match Text.lines c.written with
  | [] => []
  | first :: rest => ⟨depth, first⟩ :: rest.map fun l ↦ ⟨depth, continuationText l⟩

end SharpOutline
