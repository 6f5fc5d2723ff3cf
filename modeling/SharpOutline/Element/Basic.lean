import SharpOutline.Element.Access
import SharpOutline.Element.Modifiers
import SharpOutline.Element.TypeParameter

/-!
# Elements

What an outline is made of: thirteen kinds of elements, each with the data of its kind. Names and
the places of elements in a tree are kept outside of them, with one exception: a branch of a
conditional refers to the next branch.
-/

namespace SharpOutline

/-- Elements of a tree are referred to by the number under which they were created. -/
abbrev ElementId := Nat

/-- The kind of an element. -/
inductive Kind where
  | nameSpace
  | usingDirective
  | typeDeclaration
  | method
  | field
  | property
  | event
  | delegate
  | constructor
  | comment
  | attributeUse
  | region
  | conditionDirective
deriving DecidableEq, Repr

namespace Kind

/-- The kind as messages write it. -/
def title : Kind → String
  | nameSpace => "Namespace"
  | usingDirective => "Using"
  | typeDeclaration => "Type"
  | method => "Method"
  | field => "Field"
  | property => "Property"
  | event => "Event"
  | delegate => "Delegate"
  | constructor => "Constructor"
  | comment => "Comment"
  | attributeUse => "Attribute"
  | region => "Region"
  | conditionDirective => "ConditionDirective"

/-- Comments may stand above an element of this kind. -/
def isCommentable : Kind → Bool
  | comment | region | conditionDirective => false
  | _ => true

/-- Elements of this kind are members of types. -/
def isMember : Kind → Bool
  | method | field | property | event | delegate | constructor => true
  | _ => false

/-- A visit goes on from an element of this kind to others. -/
def isContainer : Kind → Bool
  | nameSpace | typeDeclaration | region | conditionDirective => true
  | _ => false

/-- Attributes may be applied to an element of this kind. -/
def isAttributable (k : Kind) : Bool := k == typeDeclaration || k.isMember

end Kind

/-! ## Parts of elements -/

/-- The keyword that declares a type. -/
inductive TypeKind where
  | classType
  | structType
  | interfaceType
  | enumType
deriving DecidableEq, Repr

namespace TypeKind

def keyword : TypeKind → Text
  | classType => "class".toList
  | structType => "struct".toList
  | interfaceType => "interface".toList
  | enumType => "enum".toList

def all : List TypeKind := [classType, structType, interfaceType, enumType]

def ofKeyword? (word : Text) : Option TypeKind := all.find? fun k ↦ k.keyword == word

/-- Every kind of type is found by its keyword. -/
theorem ofKeyword?_keyword (k : TypeKind) : ofKeyword? k.keyword = some k := by
  cases k <;> decide

end TypeKind

/-- How a comment is written. -/
inductive CommentKind where
  /-- Two slashes. -/
  | line
  /-- Three slashes. -/
  | documentation
  /-- Between slashes and stars. -/
  | block
deriving DecidableEq, Repr

/-- A comment without its marks. -/
structure Comment where
  kind : CommentKind
  text : Text
deriving DecidableEq, Repr

/-- What is known of a type that a declaration refers to. -/
inductive ReferenceKind where
  | unknown
  | classType
  | interfaceType
deriving DecidableEq, Repr

/-- A type that a declaration refers to. -/
structure TypeReference where
  name : Text
  kind : ReferenceKind
deriving DecidableEq, Repr

/-- The body of a member. -/
inductive MemberBody where
  | absent
  /-- The text between the braces. -/
  | block (text : Text)
  /-- The expression after the arrow. -/
  | expression (text : Text)
deriving DecidableEq, Repr

def MemberBody.isAbsent : MemberBody → Bool
  | absent => true
  | _ => false

/-- What an operator method does. -/
inductive OperatorKind where
  | symbolic
  | implicitConversion
  | explicitConversion
deriving DecidableEq, Repr

/-! ## Data of the kinds -/

/-- A directive that opens a namespace or names a type. -/
structure UsingDirective where
  aliasOf : Option Text
  isStatic : Bool
  isMovable : Bool
deriving DecidableEq, Repr

/-- A class, structure, interface or enumeration; the members of an enumeration are kept as text. -/
structure TypeDeclaration where
  kind : TypeKind
  access : Access := .unstated
  modifiers : Modifiers := .empty
  bases : List TypeReference := []
  typeParameters : List TypeParameter := []
  bodyText : Option Text := none
deriving DecidableEq, Repr

/-- A method or an operator. -/
structure Method where
  access : Access
  modifiers : Modifiers
  returnType : Option Text
  parameters : Text
  typeParameters : List TypeParameter
  implementations : List TypeReference
  isOperator : Bool
  operatorKind : OperatorKind
  isAsync : Bool
  body : MemberBody
deriving DecidableEq, Repr

/-- A field, with the comment that follows it on its line. -/
structure Field where
  access : Access
  modifiers : Modifiers
  type : Text
  initialValue : Option Text
  isVolatile : Bool
  isFixed : Bool
  fixedSize : Option Text
  trailingComment : Option Comment
deriving DecidableEq, Repr

/-- A property or an indexer. -/
structure Property where
  access : Access
  modifiers : Modifiers
  type : Text
  implementations : List TypeReference
  body : MemberBody
  initialValue : Option Text
deriving DecidableEq, Repr

structure Event where
  access : Access
  modifiers : Modifiers
  type : Text
  implementations : List TypeReference
  body : MemberBody
  initialValue : Option Text
deriving DecidableEq, Repr

structure Delegate where
  access : Access
  modifiers : Modifiers
  returnType : Text
  parameters : Text
  typeParameters : List TypeParameter
deriving DecidableEq, Repr

/-- A constructor, with the call of another constructor that it starts with. -/
structure Constructor where
  access : Access
  modifiers : Modifiers
  parameters : Text
  initializer : Option Text
  body : MemberBody
deriving DecidableEq, Repr

/-- The application of an attribute. -/
structure AttributeUse where
  target : Option Text
  arguments : Option Text
deriving DecidableEq, Repr

/-! ## Elements -/

/-- An element with the data of its kind. -/
inductive Element where
  | nameSpace (isFileScoped : Bool)
  | usingDirective (u : UsingDirective)
  | typeDeclaration (t : TypeDeclaration)
  | method (m : Method)
  | field (f : Field)
  | property (p : Property)
  | event (e : Event)
  | delegate (d : Delegate)
  | constructor (c : Constructor)
  | comment (c : Comment)
  | attributeUse (a : AttributeUse)
  | region (isDirective : Bool)
  /-- A branch of a conditional; it has no condition if it is the last resort. -/
  | conditionDirective (condition : Option Text) (otherwise : Option ElementId)
deriving DecidableEq, Repr

namespace Element

def kind : Element → Kind
  | nameSpace _ => .nameSpace
  | usingDirective _ => .usingDirective
  | typeDeclaration _ => .typeDeclaration
  | method _ => .method
  | field _ => .field
  | property _ => .property
  | event _ => .event
  | delegate _ => .delegate
  | constructor _ => .constructor
  | comment _ => .comment
  | attributeUse _ => .attributeUse
  | region _ => .region
  | conditionDirective _ _ => .conditionDirective

/-- The access level, which only types and members state. -/
def access : Element → Access
  | typeDeclaration t => t.access
  | method m => m.access
  | field f => f.access
  | property p => p.access
  | event e => e.access
  | delegate d => d.access
  | constructor c => c.access
  | _ => .unstated

/-- The modifiers, which only types and members have. -/
def modifiers : Element → Modifiers
  | typeDeclaration t => t.modifiers
  | method m => m.modifiers
  | field f => f.modifiers
  | property p => p.modifiers
  | event e => e.modifiers
  | delegate d => d.modifiers
  | constructor c => c.modifiers
  | _ => .empty

/-- The type that a member declares or returns. -/
def declaredType : Element → Option Text
  | method m => m.returnType
  | field f => some f.type
  | property p => some p.type
  | event e => some e.type
  | delegate d => some d.returnType
  | _ => none

/-- The type parameters, which only types, methods and delegates have. -/
def typeParameters : Element → List TypeParameter
  | typeDeclaration t => t.typeParameters
  | method m => m.typeParameters
  | delegate d => d.typeParameters
  | _ => []

/-- The body, for the kinds that may have one. -/
def body? : Element → Option MemberBody
  | method m => some m.body
  | property p => some p.body
  | event e => some e.body
  | constructor c => some c.body
  | _ => none

def otherwise? : Element → Option ElementId
  | conditionDirective _ otherwise => otherwise
  | _ => none

/-- The element with another next branch, if it is a branch of a conditional. -/
def withOtherwise (otherwise : Option ElementId) : Element → Element
  | conditionDirective condition _ => conditionDirective condition otherwise
  | e => e

@[simp] theorem kind_withOtherwise (o : Option ElementId) (e : Element) :
    (e.withOtherwise o).kind = e.kind := by
  cases e <;> rfl

end Element

end SharpOutline
