import SharpOutline.Text.Basic

/-!
# Access levels

Four keywords state who may use a declaration. They may be combined in two ways, so a level is
resolved from the set of keywords that were written, in whatever order.
-/

namespace SharpOutline

/-- Who may use a declaration. -/
inductive Access where
  /-- No keyword says so. -/
  | unstated
  | toAll
  | toOwner
  | toHeirs
  | toAssembly
  /-- Heirs, and everything in the assembly. -/
  | toHeirsOrAssembly
  /-- Heirs in the assembly. -/
  | toHeirsInAssembly
deriving DecidableEq, Repr

namespace Access

/-- The keywords of the level, in the order in which they are written. -/
def words : Access → List Text
  | unstated => []
  | toAll => ["public".toList]
  | toOwner => ["private".toList]
  | toHeirs => ["protected".toList]
  | toAssembly => ["internal".toList]
  | toHeirsOrAssembly => ["protected".toList, "internal".toList]
  | toHeirsInAssembly => ["private".toList, "protected".toList]

def text (a : Access) : Text := Text.join [' '] a.words

def vocabulary : List Text :=
  ["public".toList, "private".toList, "protected".toList, "internal".toList]

/-- The level that a set of keywords states; some sets contradict themselves. Other words do not
matter. -/
def resolve? (written : List Text) : Option Access :=
  match written.contains "public".toList, written.contains "private".toList,
      written.contains "protected".toList, written.contains "internal".toList with
  | false, false, false, false => some unstated
  | true, false, false, false => some toAll
  | false, true, false, false => some toOwner
  | false, false, true, false => some toHeirs
  | false, false, false, true => some toAssembly
  | false, false, true, true => some toHeirsOrAssembly
  | false, true, true, false => some toHeirsInAssembly
  | _, _, _, _ => none

/-- Every level is resolved from its own keywords. -/
theorem resolve?_words (a : Access) : resolve? a.words = some a := by
  cases a <;> decide

end Access

end SharpOutline
