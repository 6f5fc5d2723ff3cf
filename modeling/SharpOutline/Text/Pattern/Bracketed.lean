import SharpOutline.Text.Basic
import SharpOutline.Text.CharSet

/-!
# Sets in brackets

The written form of sets of characters: the escapes, which also stand alone in a pattern, and the
sets in square brackets. Between brackets stand characters, ranges, classes and further sets, all of
them taken together; two such collections can be joined by a doubled sign, `&&` for what is in both,
`--` for what is in the first only and `~~` for what is in one of them only. These signs have no
precedence and are taken from the left.

Hyphens that come first stand for themselves, and so does a closing bracket in the first place. A
hyphen later on makes a range, unless the set ends or another hyphen comes right after it.
-/

namespace SharpOutline

namespace CharSet

/-- What stands for characters in a written pattern: a character or a class. -/
inductive Member where
  | character (c : Char)
  | characters (set : CharSet)
deriving DecidableEq, Repr

def Member.set : Member → CharSet
  | character c => single c
  | characters set => set

/-! ## Escapes -/

/-- The character that an escape stands for, if it stands for a single one. -/
def escapedCharacter? (c : Char) : Option Char :=
  if c = 'n' then some '\n'
  else if c = 't' then some '\t'
  else if c = 'r' then some '\r'
  else if c = 'f' then some '\x0c'
  else if c = 'v' then some '\x0b'
  else if c = 'a' then some '\x07'
  else if c.toNat < 0x80 && !c.isAlphanum && !(c == '<' || c == '>') then some c
  else none

/-- What an escaped character stands for. -/
def escaped? (c : Char) : Option Member :=
  if c = 's' then some (.characters blank)
  else if c = 'S' then some (.characters blank.complement)
  else if c = 'w' then some (.characters word)
  else if c = 'W' then some (.characters word.complement)
  else if c = 'd' then some (.characters digit)
  else if c = 'D' then some (.characters digit.complement)
  else (escapedCharacter? c).map .character

/-! ## Classes with a name -/

/-- The classes that have a name; they hold ASCII characters only. -/
def namedRanges : List (Text × List (Char × Char)) :=
  [("alnum".toList, [('0', '9'), ('A', 'Z'), ('a', 'z')]),
    ("alpha".toList, [('A', 'Z'), ('a', 'z')]),
    ("ascii".toList, [('\x00', '\x7f')]),
    ("blank".toList, [('\t', '\t'), (' ', ' ')]),
    ("cntrl".toList, [('\x00', '\x1f'), ('\x7f', '\x7f')]),
    ("digit".toList, [('0', '9')]),
    ("graph".toList, [('!', '~')]),
    ("lower".toList, [('a', 'z')]),
    ("print".toList, [(' ', '~')]),
    ("punct".toList, [('!', '/'), (':', '@'), ('[', '\x60'), ('\x7b', '~')]),
    ("space".toList, [('\t', '\r'), (' ', ' ')]),
    ("upper".toList, [('A', 'Z')]),
    ("word".toList, [('0', '9'), ('A', 'Z'), ('_', '_'), ('a', 'z')]),
    ("xdigit".toList, [('0', '9'), ('A', 'F'), ('a', 'f')])]

/-- The class of a name that is followed by a colon and a closing bracket. -/
def classNamed? (t : Text) : Option (CharSet × Text) :=
  match Text.splitOnce ':' t with
  | some (name, ']' :: rest) =>
    (namedRanges.lookup name).map fun ranges ↦ (unionAll (ranges.map fun r ↦ range r.1 r.2), rest)
  | _ => none

/-- A class with a name, after its opening bracket; a caret before the name takes the complement. -/
def namedClass? : Text → Option (CharSet × Text)
  | ':' :: '^' :: rest => (classNamed? rest).map fun r ↦ (r.1.complement, r.2)
  | ':' :: rest => classNamed? rest
  | _ => none

/-! ## Items -/

def member? : Text → Option (Member × Text)
  | [] => none
  | '\\' :: [] => none
  | '\\' :: e :: rest => (escaped? e).map fun m ↦ (m, rest)
  | c :: rest => some (.character c, rest)

/-- The range between two members, each of which has to be a character. -/
def range? : Member → Member → Option CharSet
  | .character low, .character high => if low ≤ high then some (range low high) else none
  | _, _ => none

def item? (t : Text) : Option (CharSet × Text) :=
  match member? t with
  | some (low, '-' :: c :: rest) =>
    if c = ']' || c = '-' then some (low.set, '-' :: c :: rest)
    else
      match member? (c :: rest) with
      | some (high, after) => (range? low high).map fun set ↦ (set, after)
      | none => none
  | some (m, rest) => some (m.set, rest)
  | none => none

/-! ## Sets -/

/-- A set whose closing bracket has not been reached: what it holds so far and, after a joining
sign, what stands before the sign and how it is joined. -/
structure Unclosed where
  negated : Bool
  left : Option (CharSet × (CharSet → CharSet → CharSet)) := none
  items : CharSet := nothing

namespace Unclosed

def add (s : Unclosed) (set : CharSet) : Unclosed :=
  { s with items := s.items.union set }

/-- What the set holds so far, as the joining signs have it. -/
def joined (s : Unclosed) : CharSet :=
  match s.left with
  | none => s.items
  | some (left, joint) => joint left s.items

/-- The set after a joining sign. -/
def joinBy (s : Unclosed) (joint : CharSet → CharSet → CharSet) : Unclosed :=
  { s with left := some (s.joined, joint), items := nothing }

def close (s : Unclosed) : CharSet := if s.negated then s.joined.complement else s.joined

/-- The beginning of a set after a possible caret. -/
def start (negated : Bool) (t : Text) : Unclosed × Text :=
  match t with
  | ']' :: rest => (⟨negated, none, single ']'⟩, rest)
  | '-' :: rest => (⟨negated, none, single '-'⟩, rest.dropWhile (· == '-'))
  | _ => (⟨negated, none, nothing⟩, t)

/-- The beginning of a set after its opening bracket. -/
def opening : Text → Unclosed × Text
  | '^' :: rest => start true rest
  | t => start false t

end Unclosed

/-- Reads on in a set, which may lie in others, the innermost first, up to the closing bracket of
the outermost; at most `limit` steps are taken. -/
def restUpTo : Nat → Unclosed → List Unclosed → Text → Option (CharSet × Text)
  | 0, _, _, _ => none
  | _ + 1, _, _, [] => none
  | _ + 1, s, [], ']' :: rest => some (s.close, rest)
  | n + 1, s, outer :: more, ']' :: rest => restUpTo n (outer.add s.close) more rest
  | n + 1, s, outer, '[' :: rest =>
    match namedClass? rest with
    | some (set, after) => restUpTo n (s.add set) outer after
    | none => restUpTo n (Unclosed.opening rest).1 (s :: outer) (Unclosed.opening rest).2
  | n + 1, s, outer, '&' :: '&' :: rest => restUpTo n (s.joinBy inter) outer rest
  | n + 1, s, outer, '-' :: '-' :: rest => restUpTo n (s.joinBy diff) outer rest
  | n + 1, s, outer, '~' :: '~' :: rest => restUpTo n (s.joinBy symmDiff) outer rest
  | n + 1, s, outer, c :: rest =>
    match item? (c :: rest) with
    | some (set, after) => restUpTo n (s.add set) outer after
    | none => none

/-- A set in brackets, after its opening bracket. Every step consumes a character. -/
def bracketed? (t : Text) : Option (CharSet × Text) :=
  restUpTo t.length (Unclosed.opening t).1 [] (Unclosed.opening t).2

end CharSet

end SharpOutline
