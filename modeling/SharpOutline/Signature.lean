import SharpOutline.Fault
import SharpOutline.Keyword
import SharpOutline.Phrase

/-!
# Signatures

The words before the parameters, the body or the end of a declaration, sorted into access,
modifiers, flags, name and type. Keywords come first and in any order; the last word is the name and
the one before it the type, except that an operator names itself after the word `operator`.

Which kind of member a signature declares depends also on the character that ended it.
-/

namespace SharpOutline

/-- What the keywords of a signature declare. -/
inductive SignatureKind where
  /-- No keyword says so; the end of the signature decides. -/
  | member
  | type (kind : TypeKind)
  | event
  | delegate
deriving DecidableEq, Repr

/-- What ends a signature. -/
inductive Terminator where
  /-- The opening of a parameter list. -/
  | parameters
  /-- A semicolon. -/
  | statement
  /-- An equals sign. -/
  | assignment
  /-- An arrow. -/
  | expressionBody
  /-- An opening brace. -/
  | block
deriving DecidableEq, Repr

def Terminator.hasParameters (t : Terminator) : Bool := t == .parameters

/-- A signature whose words have been sorted. -/
structure Signature where
  kind : SignatureKind := .member
  access : Access := .unstated
  modifiers : Modifiers := .empty
  isAsync : Bool := false
  isVolatile : Bool := false
  isFixed : Bool := false
  /-- The declared name; there is none if all words are keywords. -/
  name : Text := []
  returnType : Option Text := none
  /-- What kind of operator is declared, if one is. -/
  operator : Option OperatorKind := none
deriving DecidableEq, Repr

namespace Signature

/-! ## Keywords -/

/-- The words cannot be sorted. -/
def unhandled (words : List Text) : Fault := .unhandledText (Text.join [' '] words)

/-- The signature after one more keyword other than one that states access. `words` is the whole
signature, for the report of a fault. -/
def addKeyword (words : List Text) (s : Signature) (w : Text) : Except Fault Signature :=
  match Modifier.ofKeyword? w with
  | some m => .ok { s with modifiers := s.modifiers.insert m }
  | none =>
    if w = "async".toList then .ok { s with isAsync := true }
    else if w = "volatile".toList then .ok { s with isVolatile := true }
    else if w = "fixed".toList then .ok { s with isFixed := true }
    else if w = "event".toList then
      if s.kind = .member then .ok { s with kind := .event } else .error (unhandled words)
    else if w = "delegate".toList then
      if s.kind = .member then .ok { s with kind := .delegate } else .error (unhandled words)
    else
      match TypeKind.ofKeyword? w, s.kind with
      | some k, .member => .ok { s with kind := .type k }
      | some _, .type _ => .error (.conflictingTypeKeywords (Text.join [' '] words))
      | _, _ => .error (unhandled words)

/-- Strips the keywords from the front of `words`, of which `left` is still to be looked at, and
returns the words after them. `stated` holds the keywords of access met so far. -/
def stripFrom (words : List Text) (s : Signature) (stated : List Text) :
    (left : List Text) → Except Fault (Signature × List Text)
  | [] => finish []
  | w :: left =>
    if !isDeclarationWord w then finish (w :: left)
    else if isAccessWord w then
      if stated.contains w then .error (unhandled words)
      else stripFrom words s (stated ++ [w]) left
    else
      match addKeyword words s w with
      | .error f => .error f
      | .ok s' => stripFrom words s' stated left
where
  /-- Resolves access once the keywords have ended. -/
  finish (rest : List Text) : Except Fault (Signature × List Text) :=
    match Access.resolve? stated with
    | none => .error (unhandled words)
    | some a => .ok ({ s with access := a }, rest)

def strip (words : List Text) : Except Fault (Signature × List Text) := stripFrom words {} [] words

/-! ## Name and type -/

/-- A nonempty run of punctuation. -/
def isOperatorSymbol (w : Text) : Bool :=
  !w.isEmpty && w.all fun c ↦ !isAlphanumeric c && c != '_' && !isBlank c

/-- The symbol of an operator that is written together with the word `operator`. -/
def gluedOperator? (w : Text) : Option Text :=
  match "operator".toList.isPrefixOf? w with
  | some symbol => if isOperatorSymbol symbol then some symbol else none
  | none => none

/-- The words with the word `operator` set apart from its symbol. -/
def separateOperators (words : List Text) : List Text :=
  words.flatMap fun w ↦
    match gluedOperator? w with
    | some symbol => ["operator".toList, symbol]
    | none => [w]

/-- The part of a text after its last space. -/
def afterLastSpace (t : Text) : Text := (t.reverse.takeWhile (· != ' ')).reverse

/-- A name together with what is known of its type. -/
structure Declarator where
  name : Text
  returnType : Option Text
  operator : Option OperatorKind
  /-- The words before the type, in reverse order. -/
  before : List Text

/-- The name and the type at the end of a signature, whose words are given in reverse order. -/
def declarator : List Text → Except Fault Declarator
  | [] => .error (.expectedName "a member name".toList)
  | [name] => .ok ⟨name, none, none, []⟩
  | name :: w :: before =>
    if w ≠ "operator".toList then .ok ⟨name, some w, none, before⟩
    else
      match before with
      | [] => .error (.missingMemberType name)
      | v :: before =>
        if v = "implicit".toList then .ok ⟨name, none, some .implicitConversion, before⟩
        else if v = "explicit".toList then .ok ⟨name, none, some .explicitConversion, before⟩
        else .ok ⟨name, some v, some .symbolic, before⟩

/-- The type with the qualifiers before it. The only words allowed there are those that say that a
reference is returned, and only if there is a type. -/
def qualifiedType (words : List Text) (d : Declarator) : Except Fault (Option Text) :=
  match d.before, d.returnType with
  | [], type => .ok type
  | before, some type =>
    if before.all fun w ↦ w == "ref".toList || w == "readonly".toList then
      .ok (some (Text.join [' '] before.reverse ++ ' ' :: type))
    else .error (unhandled words)
  | _, none => .error (unhandled words)

def isTypeMisnamed (type : Text) : Bool :=
  isDeclarationWord (afterLastSpace type) || afterLastSpace type == "operator".toList

/-- The words of a signature, sorted. -/
def ofWords (words : List Text) : Except Fault Signature := do
  let (s, rest) ← strip words
  let d ← declarator (separateOperators rest).reverse
  let type ← qualifiedType words d
  if type.any isTypeMisnamed then .error (unhandled words)
  else .ok { s with name := d.name, returnType := type, operator := d.operator }

/-- A signature of keywords only, such as those before the name of a type. -/
def ofKeywords (words : List Text) : Except Fault Signature := do
  let (s, rest) ← strip words
  if rest.isEmpty then .ok s else .error (unhandled words)

/-! ## What is declared -/

def undeclared (s : Signature) : Fault :=
  .unhandledText (Text.join [' '] ([s.returnType.getD [], s.name].filter fun w ↦ !w.isEmpty))

/-- The kind of element that the signature declares with an end; only constructors and methods can
do without a type. -/
def declares (s : Signature) (t : Terminator) : Except Fault Kind :=
  match s.kind, t with
  | .delegate, .parameters => typed .delegate
  | .event, .statement | .event, .assignment | .event, .block => typed .event
  | .member, .parameters =>
    if s.returnType.isNone && s.operator.isNone then .ok .constructor else .ok .method
  | .member, .statement | .member, .assignment =>
    if s.operator.isSome then .error s.undeclared else typed .field
  | .member, .block | .member, .expressionBody =>
    if s.operator.isSome then .error s.undeclared else typed .property
  | _, _ => .error s.undeclared
where
  /-- The kind, if there is a type. -/
  typed (k : Kind) : Except Fault Kind :=
    if s.returnType.isNone then .error (.missingMemberType s.name) else .ok k

end Signature

/-- The text ends in an operator whose symbol may go on, so that `<` and `=` belong to it. -/
def endsInOperator (t : Text) : Bool :=
  match (Text.words t).reverse with
  | [] => false
  | last :: before =>
    last == "operator".toList || (Signature.gluedOperator? last).isSome ||
      (before.head? == some "operator".toList && t.getLast? != some ' ' &&
        Signature.isOperatorSymbol last)

end SharpOutline
