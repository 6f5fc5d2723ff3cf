import SharpOutline.Text.Blank

/-!
# Texts

Trimming, splitting and joining of texts. Nothing here knows about brackets or literals; the
operations that do are built on these in later modules.
-/

namespace SharpOutline

namespace Text

/-! ## Trimming -/

def trimStart (t : Text) : Text := t.dropWhile isBlank

def trimEnd (t : Text) : Text := (t.reverse.dropWhile isBlank).reverse

def trim (t : Text) : Text := trimStart (trimEnd t)

/-- The text with all its blanks removed. -/
def squeeze (t : Text) : Text := t.filter fun c ↦ !isBlank c

/-! ## Splitting -/

/-- The maximal runs of characters that are not blank; `run` is the unfinished one. -/
def wordsFrom (run : Text) : Text → List Text
  | [] => if run.isEmpty then [] else [run]
  | c :: cs =>
    if isBlank c then
      if run.isEmpty then wordsFrom [] cs else run :: wordsFrom [] cs
    else wordsFrom (run ++ [c]) cs

/-- The maximal runs of characters that are not blank, in order. -/
def words (t : Text) : List Text := wordsFrom [] t

/-- The parts before and after the first `mark`, if there is one. -/
def splitOnce (mark : Char) (t : Text) : Option (Text × Text) :=
  match t.dropWhile (· != mark) with
  | [] => none
  | _ :: after => some (t.takeWhile (· != mark), after)

def before (mark : Text) : Text → Text
  | [] => []
  | c :: cs => if mark.isPrefixOf (c :: cs) then [] else c :: before mark cs

/-- The text with every occurrence of `old`, taken from left to right, replaced by `new`; the
count says how many characters of an occurrence are still to be passed over. -/
def replaceFrom (old new : Text) : Nat → Text → Text
  | _, [] => []
  | n + 1, _ :: cs => replaceFrom old new n cs
  | 0, c :: cs =>
    if old.isPrefixOf (c :: cs) then new ++ replaceFrom old new (old.length - 1) cs
    else c :: replaceFrom old new 0 cs

/-- The text with every occurrence of the nonempty text `old` replaced by `new`. -/
def replace (old new t : Text) : Text := replaceFrom old new 0 t

def includes (mark : Text) : Text → Bool
  | [] => mark.isEmpty
  | c :: cs => mark.isPrefixOf (c :: cs) || includes mark cs

/-- The text without one carriage return at its end. -/
def dropReturn (t : Text) : Text := if t.getLast? = some '\r' then t.dropLast else t

/-- The lines of a text that begins with `line`. A line ends with a newline, which may follow a
carriage return; the last one needs no end, and no empty line follows the last end. -/
def linesFrom (line : Text) : Text → List Text
  | [] => if line.isEmpty then [] else [line]
  | c :: cs => if c = '\n' then dropReturn line :: linesFrom [] cs else linesFrom (line ++ [c]) cs

def lines (t : Text) : List Text := linesFrom [] t

/-! ## Joining -/

/-- The texts in order with `separator` between them. -/
def join (separator : Text) (parts : List Text) : Text := separator.intercalate parts

/-- The texts that are not blank, trimmed and joined by single spaces. -/
def joinWords (parts : List Text) : Text :=
  join [' '] ((parts.map trim).filter fun w ↦ !w.isEmpty)

end Text

end SharpOutline
