import SharpOutline.Text.Basic

/-!
# Modifiers

Eleven keywords modify types and members. A set of them is a word of sixteen bits, one for each
modifier; the remaining bits have no keyword, but a set that carries them keeps them.
-/

namespace SharpOutline

/-- A keyword that modifies a declaration. -/
inductive Modifier where
  | hidesBase
  | constant
  | shared
  | external
  | abstracted
  | sealed
  | overriding
  | overridable
  | readOnly
  | unsafeCode
  | divided
deriving DecidableEq, Repr

namespace Modifier

/-- The bit of the modifier. -/
def bit : Modifier → Fin 16
  | shared => 0
  | abstracted => 1
  | sealed => 2
  | overridable => 3
  | overriding => 4
  | hidesBase => 5
  | constant => 6
  | readOnly => 7
  | external => 8
  | divided => 9
  | unsafeCode => 10

def keyword : Modifier → Text
  | hidesBase => "new".toList
  | constant => "const".toList
  | shared => "static".toList
  | external => "extern".toList
  | abstracted => "abstract".toList
  | sealed => "sealed".toList
  | overriding => "override".toList
  | overridable => "virtual".toList
  | readOnly => "readonly".toList
  | unsafeCode => "unsafe".toList
  | divided => "partial".toList

/-- The modifiers in the order in which they are written. -/
def all : List Modifier :=
  [hidesBase, constant, shared, external, abstracted, sealed, overriding, overridable, readOnly,
    unsafeCode, divided]

def ofKeyword? (word : Text) : Option Modifier := all.find? fun m ↦ m.keyword == word

/-- Every modifier is found by its keyword. -/
theorem ofKeyword?_keyword (m : Modifier) : ofKeyword? m.keyword = some m := by
  cases m <;> decide

end Modifier

/-- A set of modifiers. -/
structure Modifiers where
  bits : BitVec 16
deriving DecidableEq, Repr

namespace Modifiers

def empty : Modifiers := ⟨0⟩

def single (m : Modifier) : Modifiers := ⟨BitVec.twoPow 16 m.bit⟩

def union (a b : Modifiers) : Modifiers := ⟨a.bits ||| b.bits⟩

def diff (a b : Modifiers) : Modifiers := ⟨a.bits &&& ~~~b.bits⟩

def contains (a b : Modifiers) : Bool := a.bits &&& b.bits == b.bits

def isEmpty (a : Modifiers) : Bool := a.bits == 0

def insert (a : Modifiers) (m : Modifier) : Modifiers := a.union (single m)

/-- The set of the modifiers among some words, and the words that are none. -/
def ofWords : List Text → Modifiers × List Text
  | [] => (empty, [])
  | w :: ws =>
    match Modifier.ofKeyword? w with
    | some m => ((ofWords ws).1.insert m, (ofWords ws).2)
    | none => ((ofWords ws).1, w :: (ofWords ws).2)

/-- The keywords of the set, in the order in which they are written. -/
def words (a : Modifiers) : List Text :=
  (Modifier.all.filter fun m ↦ a.contains (single m)).map Modifier.keyword

def text (a : Modifiers) : Text := Text.join [' '] a.words

end Modifiers

end SharpOutline
