import SharpOutline.Text.Pattern.Reader

/-!
# Settings

What the user may choose: the patterns of comments that mark regions, and how a tree is laid out.
Choices that cannot work are refused when they are made. Whether a pattern can be read is not
decided here, only whether it has the group that carries the name.
-/

namespace SharpOutline

/-- Why a choice is refused. -/
inductive SettingsError where
  | missingNameGroup (pattern : Text)
  | missingPlaceholder (format : Text)
  | invalidIndentWidth (width : Nat)
deriving DecidableEq, Repr

/-- Where the name of a region goes in a format. -/
def placeholder : Text := "\x7b0\x7d".toList

def SettingsError.message : SettingsError → String
  | missingNameGroup pattern =>
    "region pattern must define a `" ++ String.ofList regionGroupName ++ "` group: " ++
      String.ofList pattern
  | missingPlaceholder format =>
    "region format must contain `" ++ String.ofList placeholder ++ "`: " ++ String.ofList format
  | invalidIndentWidth width => "indent width must be >= 1: " ++ toString width

/-! ## Region markers -/

/-- The patterns of the comments that open and close a region. -/
structure MarkerSettings where
  opening : Text := "^\\s*\\$\\(\\s*Begin\\s*\\)\\s*(?P<Name>.*?)\\s*$".toList
  closing : Text := "^\\s*\\$\\(\\s*End\\s*\\)\\s*(?P<Name>.*?)\\s*$".toList
deriving DecidableEq, Repr

/-- The pattern has a group for the name of a region, in one of the two ways of writing it. -/
def hasNameGroup (pattern : Text) : Bool :=
  Text.includes ("(?P<".toList ++ regionGroupName ++ ">".toList) pattern ||
    Text.includes ("(?<".toList ++ regionGroupName ++ ">".toList) pattern

/-- Chooses the patterns; the first one without a group for the name is refused. -/
def MarkerSettings.choose (opening closing : Text) : Except SettingsError MarkerSettings :=
  if !hasNameGroup opening then .error (.missingNameGroup opening)
  else if !hasNameGroup closing then .error (.missingNameGroup closing)
  else .ok ⟨opening, closing⟩

/-! ## Layout -/

/-- What a level of indentation consists of. -/
inductive Indent where
  | spaces (width : Nat)
  | tabs
deriving DecidableEq, Repr

def Indent.unit : Indent → Text
  | spaces width => List.replicate width ' '
  | tabs => ['\t']

/-- What ends a line. -/
inductive LineEnding where
  | newline
  | returnNewline
deriving DecidableEq, Repr

def LineEnding.text : LineEnding → Text
  | newline => ['\n']
  | returnNewline => ['\r', '\n']

/-- How regions are written. -/
inductive RegionStyle where
  /-- As they were read. -/
  | preserve
  | directive
  | commentMarker
deriving DecidableEq, Repr

/-- How a tree is laid out. -/
structure LayoutSettings where
  indent : Indent := .spaces 4
  regionStyle : RegionStyle := .preserve
  openingFormat : Text := "$(Begin) ".toList ++ placeholder
  closingFormat : Text := "$(End) ".toList ++ placeholder
  lineEnding : LineEnding := .newline
deriving DecidableEq, Repr

namespace LayoutSettings

/-- Chooses the indentation; a level cannot be empty. -/
def withIndent (s : LayoutSettings) (indent : Indent) : Except SettingsError LayoutSettings :=
  if indent = .spaces 0 then .error (.invalidIndentWidth 0) else .ok { s with indent := indent }

/-- Chooses the formats of region markers; the first one without a placeholder is refused. -/
def withFormats (s : LayoutSettings) (opening closing : Text) :
    Except SettingsError LayoutSettings :=
  if !Text.includes placeholder opening then .error (.missingPlaceholder opening)
  else if !Text.includes placeholder closing then .error (.missingPlaceholder closing)
  else .ok { s with openingFormat := opening, closingFormat := closing }

end LayoutSettings

end SharpOutline
