import SharpOutline.Fault
import SharpOutline.Settings
import SharpOutline.Text.Pattern.Search

/-!
# Region markers

A line comment that fits one of two patterns opens or closes a region. The name of the region is
what the named group of the pattern consumed, trimmed; a pattern without such a group gives the
empty name.

What a pattern means is up to an engine, which refuses some texts and gives for every other one the
search for it. The program runs with the engine of `Pattern`.
-/

namespace SharpOutline

/-- The search for a pattern in a text, and the name that it finds there. -/
abbrev NameSearch := Text → Option Text

/-- Reads a text as a pattern to search for. -/
abbrev Engine := Text → Option NameSearch

/-- The engine that the program runs with. -/
def Pattern.engine : Engine := fun t ↦ (ofText? t).map nameIn?

/-- The searches for the patterns that open and close a region. -/
structure RegionMarkers where
  opening : NameSearch
  closing : NameSearch

namespace RegionMarkers

def pattern (engine : Engine) (t : Text) : Except Fault NameSearch :=
  match engine t with
  | some search => .ok search
  | none => .error (.invalidPattern t)

/-- Reads the patterns of the settings. -/
def ofSettings (engine : Engine) (s : MarkerSettings) : Except Fault RegionMarkers := do
  let opening ← pattern engine s.opening
  let closing ← pattern engine s.closing
  .ok ⟨opening, closing⟩

/-- The name in a comment that fits a pattern. -/
def nameIn? (search : NameSearch) (comment : Text) : Option Text :=
  (search comment).map Text.trim

/-- The name of the region that a comment opens. -/
def opened? (m : RegionMarkers) (comment : Text) : Option Text := nameIn? m.opening comment

/-- The name in a comment that closes a region. -/
def closed? (m : RegionMarkers) (comment : Text) : Option Text := nameIn? m.closing comment

end RegionMarkers

end SharpOutline
