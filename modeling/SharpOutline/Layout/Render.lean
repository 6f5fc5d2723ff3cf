import SharpOutline.Layout.Declaration
import SharpOutline.Tree.Outline

/-!
# Layout of a tree

The lines of a whole outline, by recursion on it. Elements that stand side by side are set apart by
a blank line, except after a comment, between two directives that open namespaces and between two
fields.

The layout depends on an outline alone and never on the numbers of its elements. Where it would
come to a gap of the outline it is refused.
-/

namespace SharpOutline

/-- A blank line is set between two elements of these kinds. -/
def needsBlankLine : Kind → Kind → Bool
  | .usingDirective, .usingDirective => false
  | .field, .field => false
  | .comment, _ => false
  | _, _ => true

/-- The blank line, if one is needed, before an element that follows one of the given kind. -/
def separation (previous : Option Kind) (o : Outline) : List Line :=
  match previous, o.kind? with
  | some p, some k => if needsBlankLine p k then [.blank] else []
  | _, _ => []

/-- The attributes that are chained to another one. -/
def chainedText : List Outline → Text
  | [] => []
  | .node _ name (.attributeUse a) _ _ _ _ :: os => ", ".toList ++ a.written name ++ chainedText os
  | _ :: os => chainedText os

/-- A list of attributes in its brackets. -/
def attributeText (a : AttributeUse) (name : Text) (chained : List Outline) : Text :=
  '[' ::
    (match a.target with
      | none => []
      | some target => target ++ ": ".toList) ++
    a.written name ++ chainedText chained ++ [']']

/-- The lines that open and close a region. -/
def regionTexts (s : LayoutSettings) (isDirective : Bool) (name : Text) : Text × Text :=
  let asDirective :=
    match s.regionStyle with
    | .preserve => isDirective
    | .directive => true
    | .commentMarker => false
  if asDirective then ("#region ".toList ++ name, "#endregion".toList)
  else ("// ".toList ++ Text.replace placeholder name s.openingFormat,
    "// ".toList ++ Text.replace placeholder name s.closingFormat)

namespace Outline

mutual

/-- The lines of an outline at a depth. -/
def lines (s : LayoutSettings) (depth : Nat) : Outline → List Line
  | gap _ => []
  | node _ name element headers applied children otherwise =>
    match element with
    | .nameSpace isFileScoped =>
      headerLines s depth headers ++ headerLines s depth applied ++
        if isFileScoped then
          ⟨depth, "namespace ".toList ++ name ++ [';']⟩ ::
            ((if children.isEmpty then [] else [.blank]) ++ siblingLines s depth none children)
        else
          ⟨depth, "namespace ".toList ++ name⟩ :: ⟨depth, ['\x7b']⟩ ::
            (siblingLines s (depth + 1) none children ++ [⟨depth, ['\x7d']⟩])
    | .usingDirective u =>
      headerLines s depth headers ++ headerLines s depth applied ++ [⟨depth, u.written name⟩]
    | .typeDeclaration t =>
      headerLines s depth headers ++ headerLines s depth applied ++
        if t.kind = .enumType then
          rawBlockLines depth (t.signature name) (t.bodyText.getD []) []
        else
          ⟨depth, t.signature name⟩ :: ⟨depth, ['\x7b']⟩ ::
            (siblingLines s (depth + 1) none children ++ [⟨depth, ['\x7d']⟩])
    | .method m =>
      headerLines s depth headers ++ headerLines s depth applied ++
        memberLines depth (m.signature name) m.body
    | .field f =>
      headerLines s depth headers ++ headerLines s depth applied ++ [⟨depth, f.written name⟩]
    | .property p =>
      headerLines s depth headers ++ headerLines s depth applied ++ p.lines depth name
    | .event e =>
      headerLines s depth headers ++ headerLines s depth applied ++ e.lines depth name
    | .delegate d =>
      headerLines s depth headers ++ headerLines s depth applied ++ [⟨depth, d.written name⟩]
    | .constructor c =>
      headerLines s depth headers ++ headerLines s depth applied ++
        memberLines depth (c.signature name) c.body
    | .comment c => c.lines depth
    | .attributeUse a => [⟨depth, attributeText a name children⟩]
    | .region isDirective =>
      ⟨depth, Text.trimEnd (regionTexts s isDirective name).1⟩ ::
        ((if children.isEmpty then [] else .blank :: siblingLines s depth none children ++ [.blank])
          ++ [⟨depth, Text.trimEnd (regionTexts s isDirective name).2⟩])
    | .conditionDirective condition _ =>
      ⟨depth, "#if ".toList ++ Text.trim (condition.getD [])⟩ ::
        (siblingLines s depth none children ++ branchLines s depth otherwise ++
          [⟨depth, "#endif".toList⟩])

/-- The lines of comments or attributes before a declaration. -/
def headerLines (s : LayoutSettings) (depth : Nat) : List Outline → List Line
  | [] => []
  | o :: os => o.lines s depth ++ headerLines s depth os

/-- The lines of elements that stand side by side, after one of the given kind. -/
def siblingLines (s : LayoutSettings) (depth : Nat) (previous : Option Kind) :
    List Outline → List Line
  | [] => []
  | o :: os => separation previous o ++ o.lines s depth ++ siblingLines s depth o.kind? os

/-- The lines of the further branches of a conditional. -/
def branchLines (s : LayoutSettings) (depth : Nat) : Option Outline → List Line
  | none => []
  | some (gap _) => []
  | some (node _ _ element _ _ children otherwise) =>
    match element with
    | .conditionDirective condition _ =>
      ⟨depth, match condition with
        | some c => "#elif ".toList ++ Text.trim c
        | none => "#else".toList⟩ ::
        (siblingLines s depth none children ++ branchLines s depth otherwise)
    | _ => []

end

/-! ## Gaps -/

mutual

/-- The first gap that the layout of an outline comes to. -/
def firstGap? : Outline → Option ElementId
  | gap id => some id
  | node _ _ element headers applied children otherwise =>
    match element with
    | .comment _ | .attributeUse _ => none
    | .region _ => firstGapIn? children
    | .conditionDirective _ _ => (firstGapIn? children).or (firstGapNext? otherwise)
    | .nameSpace _ => ((firstGapIn? headers).or (firstGapIn? applied)).or (firstGapIn? children)
    | .typeDeclaration t =>
      ((firstGapIn? headers).or (firstGapIn? applied)).or
        (if t.kind = .enumType then none else firstGapIn? children)
    | _ => (firstGapIn? headers).or (firstGapIn? applied)

def firstGapIn? : List Outline → Option ElementId
  | [] => none
  | o :: os => o.firstGap?.or (firstGapIn? os)

def firstGapNext? : Option Outline → Option ElementId
  | none => none
  | some (gap id) => some id
  | some (node _ _ element _ _ children otherwise) =>
    match element with
    | .conditionDirective _ _ => (firstGapIn? children).or (firstGapNext? otherwise)
    | _ => none

end

end Outline

namespace Tree

/-- The text of elements that stand side by side. -/
def layoutOf (t : Tree) (s : LayoutSettings) (ids : List ElementId) : Except Refusal Text :=
  let outlines := ids.map t.outline
  match Outline.firstGapIn? outlines with
  | some id => .error (.unknownElement id)
  | none => .ok (Line.allToText s (Outline.siblingLines s 0 none outlines))

def layout (t : Tree) (s : LayoutSettings) : Except Refusal Text := t.layoutOf s t.roots

end Tree

end SharpOutline
