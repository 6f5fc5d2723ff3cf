import SharpOutline.Text.Pattern.Program
import SharpOutline.Text.Pattern.Visited

/-!
# Searching for a pattern

A pattern is searched for anywhere in a text; of several ways to match, the one that starts first
wins, and of those that start together the one that the pattern prefers: left before right in an
alternative, longer before shorter in a greedy repetition, shorter before longer in a lazy one.

All ways are followed together, in order of preference, and the text is read once. At each place an
instruction is carried out at most once, by the way that reaches it first: a way that came to it
later could only go on as that one does, and a way that comes back to it has gone round in a circle
without consuming anything. A place is therefore done with after as many instructions as the program
has, and a search takes time in proportion to the length of the text.
-/

namespace SharpOutline

/-- What a way through a program knows of the name: where it has begun, and where it began and ended
when it was last complete. -/
structure Marks where
  began : Option Nat := none
  span : Option (Nat × Nat) := none
deriving DecidableEq, Repr

/-- The name in a text; it is empty if no group was taken that carries it. -/
def Marks.nameIn (m : Marks) (t : Text) : Text :=
  match m.span with
  | none => []
  | some (start, stop) => (t.drop start).take (stop - start)

/-- A way through a program that waits at an instruction. -/
structure Thread where
  state : Nat
  marks : Marks
deriving DecidableEq, Repr

/-- The ways that have reached a place, the preferred ones last, and the instructions that were
carried out there. -/
structure Front where
  visited : Visited := {}
  arrived : List Thread := []
deriving DecidableEq, Repr

namespace Front

def arrive (f : Front) (t : Thread) : Front := { f with arrived := t :: f.arrived }

/-- The ways in order of preference. -/
def threads (f : Front) : List Thread := f.arrived.reverse

end Front

/-- A place in the text: how many characters lie before it, and its two neighbours. -/
structure Spot where
  offset : Nat
  before : Option Char
  after : Option Char
deriving DecidableEq, Repr

namespace Pattern

/-- Follows a way from an instruction on, up to the instructions that have to wait for the next
character, at most `limit` instructions far. -/
def follow (program : Array Instruction) (spot : Spot) : Nat → Front → Nat → Marks → Front
  | 0, f, _, _ => f
  | n + 1, f, state, marks =>
    if f.visited.contains state then f
    else
      let f := { f with visited := f.visited.insert state }
      match program[state]? with
      | none => f
      | some (.one _ _) => f.arrive ⟨state, marks⟩
      | some .accept => f.arrive ⟨state, marks⟩
      | some (.jump next) => follow program spot n f next marks
      | some (.check a next) =>
        if a.holds spot.before spot.after then follow program spot n f next marks else f
      | some (.fork first second) =>
        follow program spot n (follow program spot n f first marks) second marks
      | some (.openName next) =>
        follow program spot n f next { marks with began := some spot.offset }
      | some (.closeName next) =>
        follow program spot n f next { marks with span := marks.began.map (·, spot.offset) }

/-- Adds a way to a front; no way goes through more instructions than there are. -/
def enter (program : Array Instruction) (spot : Spot) (f : Front) (state : Nat) (marks : Marks) :
    Front :=
  follow program spot (program.size + 1) f state marks

/-- Moves the ways over a character to the spot after it. A way on which the pattern fits ends all
that come after it. -/
def moveOver (program : Array Instruction) (spot : Spot) (c : Char) :
    Front → List Thread → Front × Option Marks
  | f, [] => (f, none)
  | f, t :: ts =>
    match program[t.state]? with
    | some .accept => (f, some t.marks)
    | some (.one set next) =>
      if set.holds c then moveOver program spot c (enter program spot f next t.marks) ts
      else moveOver program spot c f ts
    | _ => moveOver program spot c f ts

/-- The first way on which the pattern fits. -/
def accepted? (program : Array Instruction) (ts : List Thread) : Option Marks :=
  (ts.find? fun t ↦ program[t.state]? == some .accept).map Thread.marks

/-- A way that starts at a spot comes after all others, and there is none once the pattern fits. -/
def startAt (program : Array Instruction) (spot : Spot) (found : Option Marks) (f : Front) :
    Front :=
  if found.isSome then f else enter program spot f 0 {}

/-- Searches from a spot on, where a front has been reached; `found` is the best match so far. -/
def searchFrom (program : Array Instruction) (found : Option Marks) (f : Front) (offset : Nat)
    (before : Option Char) : Text → Option Marks
  | [] =>
    (accepted? program (startAt program ⟨offset, before, none⟩ found f).threads).or found
  | c :: rest =>
    let g := startAt program ⟨offset, before, some c⟩ found f
    let r := moveOver program ⟨offset + 1, some c, rest.head?⟩ c {} g.threads
    searchFrom program (r.2.or found) r.1 (offset + 1) (some c) rest

/-- The first match in a text, if there is one. -/
def search (p : Pattern) (t : Text) : Option Marks := searchFrom p.program none {} 0 none t

def nameIn? (p : Pattern) (t : Text) : Option Text := (p.search t).map (·.nameIn t)

end Pattern

end SharpOutline
