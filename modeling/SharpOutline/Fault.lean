import SharpOutline.Element.Basic

/-!
# What can go wrong

An edit of a tree or of a type parameter can be refused; the reading of a source text can meet a
fault, one kind of which is a refused edit. Both are values that say what happened, with one
function each for the words. Faults do not carry a position: a reading stops where it meets the
fault.
-/

namespace SharpOutline

/-- Why an edit is refused. -/
inductive Refusal where
  /-- The element would lie beneath itself. -/
  | cycle
  | notCommentable (kind : Kind)
  | notAttributable (kind : Kind)
  | kindMismatch (expected found : Kind)
  /-- A constraint would follow the constructor constraint. -/
  | constructorConstraintNotLast (parameter : Text)
  /-- The tree has no element with this number. -/
  | unknownElement (id : ElementId)
deriving DecidableEq, Repr

def Refusal.message : Refusal → String
  | cycle => "Cannot add an element beneath itself or one of its descendants"
  | notCommentable kind => "Elements of kind " ++ kind.title ++ " cannot carry header comments"
  | notAttributable kind => "Elements of kind " ++ kind.title ++ " cannot carry attributes"
  | kindMismatch expected found =>
    "Expected an element of kind " ++ expected.title ++ ", found " ++ found.title
  | constructorConstraintNotLast parameter =>
    "The new() constraint must be the last constraint specified for type parameter '" ++
      String.ofList parameter ++ "'"
  | unknownElement id => "There is no element " ++ toString id

/-- Why the reading of a source text stops. -/
inductive Fault where
  | unexpectedEnd (expected : Text)
  | expectedCharacter (expected found : Char)
  | unexpectedCharacter (found : Char)
  | expectedName (what : Text)
  | expectedTypeName
  | missingMemberType (name : Text)
  | unhandledText (text : Text)
  | conflictingTypeKeywords (text : Text)
  | unmatchedEndRegion
  | missingEndRegion (name : Text)
  | unmatchedConditional (directive : Text)
  | branchAfterElse (directive : Text)
  | missingEndIf (condition : Text)
  | unsupportedDirective (directive : Text)
  | directiveInsideElement (directive text : Text)
  | unattachedAttribute (name : Text)
  /-- The text is no pattern for region markers. -/
  | invalidPattern (pattern : Text)
  /-- The element read does not fit into the tree. -/
  | refused (refusal : Refusal)
deriving DecidableEq, Repr

def Fault.message : Fault → String
  | unexpectedEnd expected => "Unexpected end of file. Expected " ++ String.ofList expected
  | expectedCharacter expected found =>
    "Expected " ++ String.ofList [expected] ++ ", found '" ++ String.ofList [found] ++ "'"
  | unexpectedCharacter found => "Unexpected character '" ++ String.ofList [found] ++ "'"
  | expectedName what => "Expected " ++ String.ofList what
  | expectedTypeName => "Expected a class or interface name"
  | missingMemberType name => "Expected a type for member '" ++ String.ofList name ++ "'"
  | unhandledText text => "Unhandled element text '" ++ String.ofList text ++ "'"
  | conflictingTypeKeywords text => "Conflicting type keywords in '" ++ String.ofList text ++ "'"
  | unmatchedEndRegion => "Unmatched end region directive"
  | missingEndRegion name => "Missing end region directive for '" ++ String.ofList name ++ "'"
  | unmatchedConditional directive => "Unmatched #" ++ String.ofList directive ++ " directive"
  | branchAfterElse directive => "Unexpected #" ++ String.ofList directive ++ " after #else"
  | missingEndIf condition => "Expected #endif for condition '" ++ String.ofList condition ++ "'"
  | unsupportedDirective directive =>
    "Unsupported preprocessor directive '#" ++ String.ofList directive ++ "'"
  | directiveInsideElement directive text =>
    "Preprocessor directive '#" ++ String.ofList directive ++ "' interrupts element text '" ++
      String.ofList text ++ "'"
  | unattachedAttribute name =>
    "Attribute '" ++ String.ofList name ++ "' is not associated with an element"
  | invalidPattern pattern => "Invalid region pattern '" ++ String.ofList pattern ++ "'"
  | refused refusal => refusal.message

end SharpOutline
