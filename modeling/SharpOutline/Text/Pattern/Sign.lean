import SharpOutline.Text.Pattern.Basic
import SharpOutline.Text.Pattern.Bracketed

/-!
# Signs of written patterns

A written pattern is cut into signs: each is a set of characters, an anchor, one end of a group, the
bar between alternatives or a repetition.
-/

namespace SharpOutline

namespace Pattern

/-- One sign of a written pattern. -/
inductive Sign where
  | one (set : CharSet)
  | anchor (anchor : Anchor)
  /-- A group begins; it may only hold its content together, or else it may have a name. -/
  | opening (isPlain : Bool) (name : Option Text)
  | closing
  | bar
  | repetition (least : Nat) (most : Option Nat) (greedy : Bool)
deriving DecidableEq, Repr

/-! ## Repetitions -/

/-- The number written in decimal digits, which blanks may surround. -/
def number? (t : Text) : Option Nat :=
  let digits := Text.trim t
  if digits.isEmpty || !digits.all Char.isDigit then none
  else
    let n := digits.foldl (fun n d ↦ n * 10 + (d.toNat - '0'.toNat)) 0
    if n < 0x100000000 then some n else none

/-- The bounds of a counted repetition, written as one number, a number and a comma, or two
numbers. -/
def bounds? (t : Text) : Option (Nat × Option Nat) :=
  match Text.splitOnce ',' t with
  | none => (number? t).map fun n ↦ (n, some n)
  | some (least, []) => (number? least).map fun n ↦ (n, none)
  | some (least, most) =>
    match number? least, number? most with
    | some m, some n => if m ≤ n then some (m, some n) else none
    | _, _ => none

/-- The repetition sign, whose question mark makes it prefer fewer rounds. -/
def repetition (least : Nat) (most : Option Nat) : Text → Sign × Text
  | '?' :: rest => (.repetition least most false, rest)
  | rest => (.repetition least most true, rest)

/-! ## Groups -/

/-- The name of a group, up to the closing angle bracket. -/
def groupName? (t : Text) : Option (Text × Text) :=
  match Text.splitOnce '>' t with
  | some (c :: cs, rest) =>
    if (isAlphabetic c || c == '_') &&
        cs.all fun d ↦ isAlphanumeric d || d == '_' || d == '.' || d == '[' || d == ']' then
      some (c :: cs, rest)
    else none
  | _ => none

/-- The opening of a group after its parenthesis. -/
def opening? : Text → Option (Sign × Text)
  | '?' :: ':' :: rest => some (.opening true none, rest)
  | '?' :: 'P' :: '<' :: rest => (groupName? rest).map fun r ↦ (.opening false (some r.1), r.2)
  | '?' :: '<' :: rest => (groupName? rest).map fun r ↦ (.opening false (some r.1), r.2)
  | '?' :: _ => none
  | rest => some (.opening false none, rest)

/-! ## Signs -/

def escapedSign? (c : Char) : Option Sign :=
  if c = '<' then some (.anchor .wordStart)
  else if c = '>' then some (.anchor .wordEnd)
  else (CharSet.escaped? c).map fun m ↦ .one m.set

/-- The first sign of a written pattern and what follows it. -/
def sign? : Text → Option (Sign × Text)
  | [] => none
  | c :: rest =>
    if c = '^' then some (.anchor .textStart, rest)
    else if c = '$' then some (.anchor .textEnd, rest)
    else if c = '.' then some (.one .inLine, rest)
    else if c = '|' then some (.bar, rest)
    else if c = ')' then some (.closing, rest)
    else if c = '(' then opening? rest
    else if c = '[' then (CharSet.bracketed? rest).map fun r ↦ (.one r.1, r.2)
    else if c = '*' then some (repetition 0 none rest)
    else if c = '+' then some (repetition 1 none rest)
    else if c = '?' then some (repetition 0 (some 1) rest)
    else if c = '\x7b' then
      match Text.splitOnce '\x7d' rest with
      | none => none
      | some (inside, after) => (bounds? inside).map fun b ↦ repetition b.1 b.2 after
    else if c = '\\' then
      match rest with
      | [] => none
      | e :: after => (escapedSign? e).map fun sign ↦ (sign, after)
    else some (.one (.single c), rest)

/-- The signs of a written pattern, at most `limit` of them. -/
def signsUpTo : Nat → Text → Option (List Sign)
  | _, [] => some []
  | 0, _ :: _ => none
  | n + 1, c :: cs =>
    match sign? (c :: cs) with
    | none => none
    | some (sign, rest) => (signsUpTo n rest).map (sign :: ·)

/-- The signs of a written pattern: there are no more of them than characters. -/
def signs? (t : Text) : Option (List Sign) := signsUpTo t.length t

end Pattern

end SharpOutline
