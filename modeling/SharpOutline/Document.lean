import SharpOutline.Block.Machine
import SharpOutline.Layout.Render

/-!
# Documents

Reading a whole source text into a tree, and writing it again. A text is read as one block; a
closing brace that ends this block has nothing to close. The elements of the block become the roots
of the tree.
-/

namespace SharpOutline

/-- A fault with the place where it was met. -/
structure ParseError where
  fault : Fault
  position : Position := {}
deriving DecidableEq, Repr

/-- The fault in words, with its place counted from one. -/
def ParseError.message (e : ParseError) : String :=
  e.fault.message ++ " (line " ++ toString (e.position.line + 1) ++ ", column " ++
    toString (e.position.column + 1) ++ ")"

namespace Document

def read (m : RegionMarkers) : Drafting Unit := do
  let roots ← Drafting.readBlock m
  let c ← Drafting.read Reading.peek
  if c = '\x7d' then throw (.unexpectedCharacter '\x7d')
  else Drafting.editAll (fun id t ↦ t.addRoot id) roots

def start (source : Text) : Draft := { cursor := Cursor.start source }

/-- The tree of a source text. -/
def parse (m : RegionMarkers) (source : Text) : Except ParseError Tree :=
  match read m (start source) with
  | .ok _ d => .ok d.tree
  | .error f d => .error ⟨f, d.cursor.position⟩

/-- The patterns of the settings, read; a fault has no place in the source text. -/
def markers (s : MarkerSettings) : Except ParseError RegionMarkers :=
  match RegionMarkers.ofSettings Pattern.engine s with
  | .ok m => .ok m
  | .error f => .error ⟨f, {}⟩

/-- The tree of a source text, where regions are marked as the settings say. -/
def parseWith (s : MarkerSettings) (source : Text) : Except ParseError Tree := do
  let m ← markers s
  parse m source

def parseMany (s : MarkerSettings) (sources : List Text) : List (Except ParseError Tree) :=
  match markers s with
  | .error e => sources.map fun _ ↦ .error e
  | .ok m => sources.map (parse m)

/-! ## Reading what was written -/

/-- How a tree compares with the tree read from its layout. -/
structure Comparison where
  sameShape : Bool
  sameTree : Bool
  /-- The layout of the second tree, if it differs from that of the first. -/
  secondLayout : Option Text
deriving DecidableEq, Repr

/-- Compares two trees, the first of which was laid out as `written`. -/
def compare (s : LayoutSettings) (first second : Tree) (written : Text) :
    Except Refusal Comparison := do
  let before ← first.shape
  let after ← second.shape
  let again ← second.layout s
  .ok ⟨before = after, first = second, if again = written then none else some again⟩

end Document

end SharpOutline
