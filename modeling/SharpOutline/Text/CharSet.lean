import SharpOutline.Text.Letter

/-!
# Sets of characters

A set of characters is told by its turns. Going through all characters in order, the first of them
outside, one turns into the set at the first number, out of it again at the second, and so on. What
comes after the last turn is as that turn left it, up to the last character.

Every set has exactly one list of turns, so sets with the same characters are equal, however they
were put together; patterns rely on this when they compare what alternatives begin with. Joining two
sets is one walk along the turns of both, and the same walk serves all ways of joining.
-/

namespace SharpOutline

/-- The number of characters: of all code points, only the surrogates are none. -/
def characterCount : Nat := 0x10F800

/-- The place of a code point in the order of all characters. -/
def characterRank (code : Nat) : Nat := if code < 0xD800 then code else code - 0x800

/-- A set of characters, by the places where one turns into or out of it. -/
structure CharSet where
  turns : List Nat
  increasing : turns.Pairwise (· < ·)
deriving DecidableEq, Repr

namespace CharSet

/-! ## Members -/

/-- After these turns, one is inside at a place. -/
def isInside : List Nat → Nat → Bool
  | [], _ => false
  | t :: ts, n => if n < t then false else !isInside ts n

def holds (c : Char) (s : CharSet) : Bool := isInside s.turns (characterRank c.toNat)

def isSingle (s : CharSet) : Bool :=
  match s.turns with
  | [t] => t + 1 == characterCount
  | [t, u] => u == t + 1
  | _ => false

/-! ## Ranges -/

def nothing : CharSet := ⟨[], List.Pairwise.nil⟩

variable {changes : Bool} {m n t : Nat} {later as bs : List Nat} {f : Bool → Bool → Bool}

theorem increasing_pair {low high : Nat} (h : low ≤ high) : [low, high + 1].Pairwise (· < ·) := by
  simp
  omega

/-- The characters from one place up to another one. -/
def between (low high : Nat) : CharSet :=
  if h : low ≤ high then
    if high + 1 < characterCount then ⟨[low, high + 1], increasing_pair h⟩
    else ⟨[low], List.pairwise_singleton _ low⟩
  else nothing

def range (low high : Char) : CharSet :=
  between (characterRank low.toNat) (characterRank high.toNat)

def single (c : Char) : CharSet := range c c

/-! ## Joining sets -/

/-- Puts a turn before later ones, if membership does change there. -/
def turnIf (changes : Bool) (n : Nat) (later : List Nat) : List Nat :=
  if changes then n :: later else later

/-- The turns of a set that is joined from two sets, from a place on where membership in these is
known; `f` says what membership in the two means for the joined set. -/
def walk (f : Bool → Bool → Bool) : Bool → Bool → List Nat → List Nat → List Nat
  | _, _, [], [] => []
  | x, y, a :: as, [] => turnIf (f x y != f (!x) y) a (walk f (!x) y as [])
  | x, y, [], b :: bs => turnIf (f x y != f x (!y)) b (walk f x (!y) [] bs)
  | x, y, a :: as, b :: bs =>
    if a < b then turnIf (f x y != f (!x) y) a (walk f (!x) y as (b :: bs))
    else if b < a then turnIf (f x y != f x (!y)) b (walk f x (!y) (a :: as) bs)
    else turnIf (f x y != f (!x) (!y)) a (walk f (!x) (!y) as bs)
termination_by _ _ as bs => as.length + bs.length

theorem mem_turnIf (h : m ∈ turnIf changes n later) : m = n ∨ m ∈ later := by
  cases changes <;> simp_all [turnIf]

/-- Membership in the joined set changes only where it changes in one of the two. -/
theorem mem_walk {x y : Bool} (h : n ∈ walk f x y as bs) : n ∈ as ∨ n ∈ bs := by
  fun_induction walk f x y as bs with
  | case1 => simp at h
  | case2 x y a as ih => rcases mem_turnIf h with rfl | h <;> grind
  | case3 x y b bs ih => rcases mem_turnIf h with rfl | h <;> grind
  | case4 x y a as b bs hab ih => rcases mem_turnIf h with rfl | h <;> grind
  | case5 x y a as b bs hab hba ih => rcases mem_turnIf h with rfl | h <;> grind
  | case6 x y a as b bs hab hba ih => rcases mem_turnIf h with rfl | h <;> grind

theorem increasing_turnIf (hn : ∀ m ∈ later, n < m) (hlater : later.Pairwise (· < ·)) :
    (turnIf changes n later).Pairwise (· < ·) := by
  cases changes
  · exact hlater
  · exact List.pairwise_cons.2 ⟨hn, hlater⟩

theorem increasing_walk (f : Bool → Bool → Bool) (x y : Bool) (ha : as.Pairwise (· < ·))
    (hb : bs.Pairwise (· < ·)) :
    (walk f x y as bs).Pairwise (· < ·) := by
  fun_induction walk f x y as bs with
  | case1 => exact List.Pairwise.nil
  | case2 x y a as ih =>
    rw [List.pairwise_cons] at ha
    exact increasing_turnIf (fun m hm ↦ by grind [mem_walk hm]) (ih ha.2 hb)
  | case3 x y b bs ih =>
    rw [List.pairwise_cons] at hb
    exact increasing_turnIf (fun m hm ↦ by grind [mem_walk hm]) (ih ha hb.2)
  | case4 x y a as b bs hab ih =>
    have ha' := List.pairwise_cons.1 ha
    have hb' := List.pairwise_cons.1 hb
    exact increasing_turnIf (fun m hm ↦ by grind [mem_walk hm]) (ih ha'.2 hb)
  | case5 x y a as b bs hab hba ih =>
    have ha' := List.pairwise_cons.1 ha
    have hb' := List.pairwise_cons.1 hb
    exact increasing_turnIf (fun m hm ↦ by grind [mem_walk hm]) (ih ha hb'.2)
  | case6 x y a as b bs hab hba ih =>
    have ha' := List.pairwise_cons.1 ha
    have hb' := List.pairwise_cons.1 hb
    exact increasing_turnIf (fun m hm ↦ by grind [mem_walk hm]) (ih ha'.2 hb'.2)

def join (f : Bool → Bool → Bool) (s t : CharSet) : CharSet :=
  ⟨walk f false false s.turns t.turns, increasing_walk f false false s.increasing t.increasing⟩

def union (s t : CharSet) : CharSet := join (· || ·) s t

def inter (s t : CharSet) : CharSet := join (· && ·) s t

def diff (s t : CharSet) : CharSet := join (fun x y ↦ x && !y) s t

def symmDiff (s t : CharSet) : CharSet := join (· != ·) s t

def everything : CharSet := ⟨[0], by simp⟩

def complement (s : CharSet) : CharSet := diff everything s

/-! ## Classes -/

def unionAll (sets : List CharSet) : CharSet := sets.foldl union nothing

/-- The characters with a code point in one of the closed ranges. -/
def ofCodes (ranges : List (Nat × Nat)) : CharSet :=
  unionAll (ranges.map fun r ↦ between (characterRank r.1) (characterRank r.2))

def blank : CharSet := ofCodes blankRanges

/-- The decimal digits of all scripts, without those that are too new for patterns. -/
def digit : CharSet := diff (ofCodes ((0x30, 0x39) :: digitRanges)) (ofCodes latestRanges)

/-- The characters of words, without those that are too new for patterns. -/
def word : CharSet :=
  diff (unionAll
    [ofCodes ((0x30, 0x39) :: (0x41, 0x5A) :: (0x5F, 0x5F) :: (0x61, 0x7A) :: digitRanges),
      unionAll (alphabeticBlocks.map ofCodes), ofCodes joiningRanges])
    (ofCodes latestRanges)

def inLine : CharSet := complement (single '\n')

/-! ## Members of joined sets -/

theorem isInside_turnIf_of_lt (h : m < n) (hlater : isInside later m = false) :
    isInside (turnIf changes n later) m = false := by
  cases changes <;> simp [turnIf, isInside, h, hlater]

theorem isInside_turnIf_of_le (h : n ≤ m) :
    isInside (turnIf changes n later) m = (changes ^^ isInside later m) := by
  cases changes <;> simp [turnIf, isInside, Nat.not_lt.2 h]

/-- Before all turns one is outside. -/
theorem isInside_eq_false {ts : List Nat} (h : ∀ t ∈ ts, n < t) :
    isInside ts n = false := by
  cases ts with
  | nil => rfl
  | cons t ts => simp [isInside, h t]

theorem isInside_cons_of_le (ts : List Nat) (h : t ≤ n) :
    isInside (t :: ts) n = !isInside ts n := by
  simp [isInside, Nat.not_lt.2 h]

theorem isInside_cons_of_lt (ts : List Nat) (h : n < t) :
    isInside (t :: ts) n = false := by
  simp [isInside, h]

/-- A change on the way from one truth value to another does not matter for the first and last. -/
theorem bne_xor_xor (p q r : Bool) : ((p != q) ^^ (q ^^ r)) = (p ^^ r) := by
  cases p <;> cases q <;> cases r <;> rfl

theorem isInside_walk (f : Bool → Bool → Bool) (x y : Bool) (n : Nat) (ha : as.Pairwise (· < ·))
    (hb : bs.Pairwise (· < ·)) :
    isInside (walk f x y as bs) n = (f x y ^^ f (x ^^ isInside as n) (y ^^ isInside bs n)) := by
  fun_induction walk f x y as bs with
  | case1 => simp [isInside]
  | case2 x y a as ih =>
    have hlater := List.pairwise_cons.1 ha
    rcases Nat.lt_or_ge n a with h | h
    · rw [isInside_turnIf_of_lt h (isInside_eq_false fun t ht ↦ by grind [mem_walk ht]),
        isInside_cons_of_lt as h]
      simp [isInside]
    · rw [isInside_turnIf_of_le h, ih hlater.2 hb, isInside_cons_of_le as h, bne_xor_xor]
      simp
  | case3 x y b bs ih =>
    have hlater := List.pairwise_cons.1 hb
    rcases Nat.lt_or_ge n b with h | h
    · rw [isInside_turnIf_of_lt h (isInside_eq_false fun t ht ↦ by grind [mem_walk ht]),
        isInside_cons_of_lt bs h]
      simp [isInside]
    · rw [isInside_turnIf_of_le h, ih ha hlater.2, isInside_cons_of_le bs h, bne_xor_xor]
      simp
  | case4 x y a as b bs hab ih =>
    have hlater := List.pairwise_cons.1 ha
    have hlater' := List.pairwise_cons.1 hb
    rcases Nat.lt_or_ge n a with h | h
    · rw [isInside_turnIf_of_lt h (isInside_eq_false fun t ht ↦ by grind [mem_walk ht]),
        isInside_cons_of_lt as h, isInside_cons_of_lt bs (Nat.lt_trans h hab)]
      simp
    · rw [isInside_turnIf_of_le h, ih hlater.2 hb, isInside_cons_of_le as h, bne_xor_xor]
      simp
  | case5 x y a as b bs hab hba ih =>
    have hlater := List.pairwise_cons.1 ha
    have hlater' := List.pairwise_cons.1 hb
    rcases Nat.lt_or_ge n b with h | h
    · rw [isInside_turnIf_of_lt h (isInside_eq_false fun t ht ↦ by grind [mem_walk ht]),
        isInside_cons_of_lt as (Nat.lt_trans h hba), isInside_cons_of_lt bs h]
      simp
    · rw [isInside_turnIf_of_le h, ih ha hlater'.2, isInside_cons_of_le bs h, bne_xor_xor]
      simp
  | case6 x y a as b bs hab hba ih =>
    obtain rfl : a = b := by omega
    have hlater := List.pairwise_cons.1 ha
    have hlater' := List.pairwise_cons.1 hb
    rcases Nat.lt_or_ge n a with h | h
    · rw [isInside_turnIf_of_lt h (isInside_eq_false fun t ht ↦ by grind [mem_walk ht]),
        isInside_cons_of_lt as h, isInside_cons_of_lt bs h]
      simp
    · rw [isInside_turnIf_of_le h, ih hlater.2 hlater'.2, isInside_cons_of_le as h,
        isInside_cons_of_le bs h, bne_xor_xor]
      simp

/-- A joined set holds what membership in the two sets says. -/
theorem holds_join (hf : f false false = false) (s t : CharSet) (c : Char) :
    (join f s t).holds c = f (s.holds c) (t.holds c) := by
  simp [holds, join, isInside_walk f false false _ s.increasing t.increasing, hf]

@[simp]
theorem holds_union (s t : CharSet) (c : Char) :
    (s.union t).holds c = (s.holds c || t.holds c) := holds_join rfl s t c

@[simp]
theorem holds_inter (s t : CharSet) (c : Char) :
    (s.inter t).holds c = (s.holds c && t.holds c) := holds_join rfl s t c

@[simp]
theorem holds_diff (s t : CharSet) (c : Char) :
    (s.diff t).holds c = (s.holds c && !t.holds c) := holds_join rfl s t c

@[simp]
theorem holds_symmDiff (s t : CharSet) (c : Char) :
    (s.symmDiff t).holds c = (s.holds c != t.holds c) := holds_join rfl s t c

@[simp]
theorem holds_complement (s : CharSet) (c : Char) : s.complement.holds c = !s.holds c := by
  have heverything : everything.holds c = true := by simp [holds, everything, isInside]
  rw [complement, holds_diff, heverything, Bool.true_and]

end CharSet

end SharpOutline
