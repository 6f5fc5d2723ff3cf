/-!
# Visited instructions

The set of instructions of a program that were carried out at a place of the text. It is kept as the
binary digits of a number, because a search asks for membership at every step; all that is known of
it otherwise is which numbers it contains.
-/

namespace SharpOutline

/-- A finite set of numbers, each of them a binary digit of `digits`. -/
structure Visited where
  digits : Nat := 0
deriving DecidableEq, Repr

namespace Visited

def contains (v : Visited) (n : Nat) : Bool := v.digits.testBit n

def insert (v : Visited) (n : Nat) : Visited := ⟨v.digits ||| 1 <<< n⟩

@[simp]
theorem contains_empty (n : Nat) : ({} : Visited).contains n = false := by simp [contains]

@[simp]
theorem contains_insert (v : Visited) (m n : Nat) :
    (v.insert m).contains n = (v.contains n || m == n) := by
  rw [insert, contains, contains, Nat.testBit_or, Nat.one_shiftLeft, Nat.testBit_two_pow]
  rfl

end Visited

end SharpOutline
