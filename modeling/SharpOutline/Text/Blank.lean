/-!
# Blank characters

The characters that separate words and are trimmed from the ends of a text: the members of the
Unicode property `White_Space`. The property has twenty-five members, so it is written out as a
list of ranges rather than derived from a general category; `U+200B` and `U+FEFF`, which look
blank, are not among them.
-/

namespace SharpOutline

/-- Texts are lists of characters: every scan in this library is a recursion on what is left. -/
abbrev Text := List Char

def inRanges (ranges : List (Nat × Nat)) (code : Nat) : Bool :=
  ranges.any fun r ↦ r.1 ≤ code && code ≤ r.2

theorem inRanges_iff (ranges : List (Nat × Nat)) (code : Nat) :
    inRanges ranges code = true ↔ ∃ r ∈ ranges, r.1 ≤ code ∧ code ≤ r.2 := by
  simp [inRanges]

/-- The code points of `White_Space`. -/
def blankRanges : List (Nat × Nat) :=
  [(0x09, 0x0D), (0x20, 0x20), (0x85, 0x85), (0xA0, 0xA0), (0x1680, 0x1680), (0x2000, 0x200A),
    (0x2028, 0x2029), (0x202F, 0x202F), (0x205F, 0x205F), (0x3000, 0x3000)]

/-- The character separates words. -/
def isBlank (c : Char) : Bool := inRanges blankRanges c.toNat

theorem isBlank_iff (c : Char) :
    isBlank c = true ↔ ∃ r ∈ blankRanges, r.1 ≤ c.toNat ∧ c.toNat ≤ r.2 :=
  inRanges_iff blankRanges c.toNat

end SharpOutline
