import SharpOutline.Element.Basic
import SharpOutline.Lexeme.Scanner

/-!
# Keywords and symbols

The words and characters that the reading of declarations reacts to.
-/

namespace SharpOutline

/-- The characters that end a word and may end a signature. -/
def symbols : List Char :=
  ['/', '*', '#', '[', ']', '\x7b', '\x7d', '(', ')', ';', ',', '=', '<', '>', ':', '?']

def isSymbol (c : Char) : Bool := symbols.contains c

/-- The character, or the end of the text, ends a word. -/
def endsWord (c : Char) : Bool := isBlank c || isSymbol c || c == endMark

def isAccessWord (w : Text) : Bool := Access.vocabulary.contains w

def isModifierWord (w : Text) : Bool := (Modifier.ofKeyword? w).isSome

def isTypeWord (w : Text) : Bool := (TypeKind.ofKeyword? w).isSome

/-- The word is a flag of members that is no modifier. -/
def isFlagWord (w : Text) : Bool :=
  w == "async".toList || w == "volatile".toList || w == "fixed".toList

/-- The word may only stand before other words of a declaration. -/
def isLeadingWord (w : Text) : Bool := isAccessWord w || isModifierWord w || isFlagWord w

/-- The word is stripped from the front of a declaration. -/
def isDeclarationWord (w : Text) : Bool :=
  isLeadingWord w || isTypeWord w || w == "event".toList || w == "delegate".toList

end SharpOutline
