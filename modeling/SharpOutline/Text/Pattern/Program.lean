import SharpOutline.Text.Pattern.Basic

/-!
# Programs of patterns

A pattern is turned into a program, a list of instructions that refer to each other by their place
in the list. The code of a pattern starts at a given place and leaves to a given exit; a fork names
the preferred way first. Every part of a pattern becomes code of a known size, so all places can be
told in advance (`Pattern.length_code`).

A repetition without an upper bound is a loop, closed by a fork after its body. If there need not be
any round at all, the same fork may also stand before the body; but a body that can fit without
consuming anything gets a fork of its own at the front, so that its first round is told apart from
the further ones.
-/

namespace SharpOutline

inductive Instruction where
  /-- Consumes a character of a set. -/
  | one (set : CharSet) (next : Nat)
  /-- Goes on if a condition holds here. -/
  | check (anchor : Anchor) (next : Nat)
  /-- Goes on in two ways, the first of them preferred. -/
  | fork (first second : Nat)
  | jump (next : Nat)
  /-- The name begins here. -/
  | openName (next : Nat)
  /-- The name ends here. -/
  | closeName (next : Nat)
  /-- The pattern fits. -/
  | accept
deriving DecidableEq, Repr

/-- A fork between going on with a repetition and leaving it. -/
def Instruction.again (greedy : Bool) (more fewer : Nat) : Instruction :=
  if greedy then fork more fewer else fork fewer more

/-- Code that starts at a place and leaves to an exit. -/
abbrev Code := Nat → Nat → List Instruction

namespace Code

/-- `n` copies of code of size `width`, and then other code, which is given by its place. -/
def copiesThen (body : Code) (width : Nat) (last : Nat → List Instruction) :
    Nat → Nat → List Instruction
  | 0, place => last place
  | n + 1, place => body place (place + width) ++ copiesThen body width last n (place + width)

/-- At most `n` copies of code of size `width`; before each of them the repetition may be left. -/
def upTo (body : Code) (width : Nat) (greedy : Bool) (exit : Nat) : Nat → Nat → List Instruction
  | 0, _ => [.jump exit]
  | n + 1, place =>
    .again greedy (place + 1) exit ::
      (body (place + 1) (place + 1 + width) ++ upTo body width greedy exit n (place + 1 + width))

/-- A loop that is left only after its body. -/
def loop (body : Code) (width : Nat) (greedy : Bool) (exit place : Nat) : List Instruction :=
  body place (place + width) ++ [.again greedy place exit]

/-- A loop that may also be left at once. -/
def optionalLoop (body : Code) (width : Nat) (greedy isNullable : Bool) (exit place : Nat) :
    List Instruction :=
  if isNullable then .again greedy (place + 1) exit :: loop body width greedy exit (place + 1)
  else .again greedy (place + 1) exit :: body (place + 1) place

end Code

namespace Pattern

/-- The size of a repetition of a body of size `width`. -/
def repeatedSize (width : Nat) (isNullable : Bool) : Nat → Option Nat → Nat
  | least, some most => least * width + ((most - least) * (width + 1) + 1)
  | 0, none => if isNullable then width + 2 else width + 1
  | least + 1, none => least * width + (width + 1)

def size : Pattern → Nat
  | empty => 1
  | one _ => 1
  | anchor _ => 1
  | seq first second => first.size + second.size
  | either first second => 1 + (first.size + second.size)
  | repeated body least most _ => repeatedSize body.size body.isNullable least most
  | group naming body => if naming then body.size + 2 else body.size

def repeatedCode (body : Code) (width : Nat) (isNullable greedy : Bool) (place exit : Nat) :
    Nat → Option Nat → List Instruction
  | least, some most =>
    Code.copiesThen body width (Code.upTo body width greedy exit (most - least)) least place
  | 0, none => Code.optionalLoop body width greedy isNullable exit place
  | least + 1, none => Code.copiesThen body width (Code.loop body width greedy exit) least place

def code : Pattern → Code
  | empty, _, exit => [.jump exit]
  | one set, _, exit => [.one set exit]
  | anchor a, _, exit => [.check a exit]
  | seq first second, place, exit =>
    first.code place (place + first.size) ++ second.code (place + first.size) exit
  | either first second, place, exit =>
    .fork (place + 1) (place + 1 + first.size) ::
      (first.code (place + 1) exit ++ second.code (place + 1 + first.size) exit)
  | repeated body least most greedy, place, exit =>
    repeatedCode body.code body.size body.isNullable greedy place exit least most
  | group naming body, place, exit =>
    if naming then
      .openName (place + 1) ::
        (body.code (place + 1) (place + 1 + body.size) ++ [.closeName exit])
    else body.code place exit

/-- The program of a pattern, which starts with its first instruction. -/
def program (p : Pattern) : Array Instruction := (p.code 0 p.size ++ [Instruction.accept]).toArray

end Pattern

/-! ## Sizes -/

namespace Code

theorem length_copiesThen {body : Code} {width size : Nat} {last : Nat → List Instruction}
    (hbody : ∀ place exit, (body place exit).length = width)
    (hlast : ∀ place, (last place).length = size) (n place : Nat) :
    (copiesThen body width last n place).length = n * width + size := by
  induction n generalizing place with
  | zero => simp [copiesThen, hlast]
  | succ n ih =>
    rw [copiesThen, List.length_append, hbody, ih, Nat.succ_mul]
    omega

theorem length_upTo {body : Code} {width : Nat}
    (hbody : ∀ place exit, (body place exit).length = width) (greedy : Bool) (exit n place : Nat) :
    (upTo body width greedy exit n place).length = n * (width + 1) + 1 := by
  induction n generalizing place with
  | zero => simp [upTo]
  | succ n ih =>
    rw [upTo, List.length_cons, List.length_append, hbody, ih, Nat.succ_mul]
    omega

theorem length_loop {body : Code} {width : Nat}
    (hbody : ∀ place exit, (body place exit).length = width) (greedy : Bool) (exit place : Nat) :
    (loop body width greedy exit place).length = width + 1 := by
  simp [loop, hbody]

end Code

namespace Pattern

theorem length_repeatedCode {body : Code} {width : Nat}
    (hbody : ∀ place exit, (body place exit).length = width) (isNullable greedy : Bool)
    (place exit least : Nat) (most : Option Nat) :
    (repeatedCode body width isNullable greedy place exit least most).length =
      repeatedSize width isNullable least most := by
  cases most with
  | some most =>
    rw [repeatedCode, repeatedSize]
    exact Code.length_copiesThen hbody (fun place ↦ Code.length_upTo hbody greedy exit _ place) ..
  | none =>
    cases least with
    | zero =>
      rw [repeatedCode, repeatedSize, Code.optionalLoop]
      split <;> simp [Code.length_loop hbody, hbody]
    | succ least =>
      rw [repeatedCode, repeatedSize]
      exact Code.length_copiesThen hbody (fun place ↦ Code.length_loop hbody greedy exit place) ..

/-- The code of a pattern has the size of the pattern. -/
theorem length_code (p : Pattern) (place exit : Nat) : (p.code place exit).length = p.size := by
  induction p generalizing place exit with
  | empty => rfl
  | one set => rfl
  | anchor a => rfl
  | seq first second ih₁ ih₂ => simp [code, size, ih₁, ih₂]
  | either first second ih₁ ih₂ =>
    rw [code, size, List.length_cons, List.length_append, ih₁, ih₂]
    omega
  | repeated body least most greedy ih =>
    rw [code, size]
    exact length_repeatedCode ih ..
  | group naming body ih =>
    rw [code, size]
    split <;> simp [ih]

end Pattern

end SharpOutline
