import SharpOutline.Proofs.Layout.Members
import SharpOutline.Proofs.Tree.Shape

/-!
# Skeletons and their comments

A skeleton consists of using directives, namespaces, types, members, regions and conditionals,
nested in any way, with attributes and comments above them and comments beside them. In the narrow
sense its members are fields, and there are no attributes.

A comment that is laid out on a line of its own is read as the comment of the declaration that
follows it. Comments above a declaration are therefore read back, but one that stands beside a
declaration and right before it moves above it, where it no longer counts as an element of its own.
Such comments are stray, and `Outline.settle` moves them. Settling takes away as many elements as
there are stray comments (`Outline.length_shapeAll_settle`), and changes nothing if there are none
(`Outline.settleAll_eq_append`).
-/

namespace SharpOutline

/-! ## Plain declarations -/

/-- The directive names a namespace or a type, or it gives a second name to one. -/
def UsingDirective.isPlain (u : UsingDirective) (name : Text) : Bool :=
  isDotted name && !isKeyword name && u.isMovable &&
    u.aliasOf.all fun target ↦ !u.isStatic && isDotted target

/-- The type has a header that is read back, and unless `full` nothing but its members behind it. -/
def TypeDeclaration.isPlain (full : Bool) (t : TypeDeclaration) (name : Text) : Bool :=
  isIdentifier name && t.hasRegularHeader && (full || t.kind != .enumType && t.bodyText.isNone)

/-! ## Skeletons -/

namespace Outline

/-- The outline is that of a comment of the given sort. -/
def isCommentOf (plain : Comment → Bool) : Outline → Bool
  | node _ [] (.comment c) [] [] [] none => plain c
  | _ => false

/-- Behind the element the reader goes on over all blanks. -/
def isOpen : Outline → Bool
  | gap _ => false
  | node _ _ element _ _ _ _ => element.isOpen

/-- The lines of the element begin with a comment. -/
def isLoud : Outline → Bool
  | gap _ => false
  | node _ _ element headers _ _ _ => element.kind == .comment || !headers.isEmpty

mutual

/-- The outline is that of an element in a skeleton with comments of the given sort. Unless `full`
it has no attributes, and its members are fields. -/
def isSkeleton (full : Bool) (plain : Comment → Bool) : Outline → Bool
  | gap _ => false
  | node _ name element headers applied children otherwise =>
    headers.all (isCommentOf plain) && (element.kind.isCommentable || headers.isEmpty) &&
      (applied.isEmpty || full && element.kind.isAttributable && applied.all isAttribute) &&
      match element with
      | .comment c => plain c && name.isEmpty && children.isEmpty && otherwise.isNone
      | .usingDirective u => u.isPlain name && children.isEmpty && otherwise.isNone
      | .nameSpace isFileScoped =>
        !isFileScoped && isDotted name && areSkeletons full plain children && otherwise.isNone
      | .typeDeclaration t =>
        t.isPlain full name && areSkeletons full plain children && otherwise.isNone &&
          (t.kind != .enumType || children.isEmpty && isRawText (t.bodyText.getD []))
      | .region isDirective =>
        isDirective && isLineText name && areSkeletons full plain children && otherwise.isNone
      | .conditionDirective condition _ =>
        condition == some name && isCondition name && areSkeletons full plain children &&
          isSkeletonNext full plain otherwise
      | e => (full || e.kind == .field) && e.isPlain plain name && children.isEmpty &&
        otherwise.isNone

/-- No comment stands right behind an element that would take it for its own. -/
def areSkeletons (full : Bool) (plain : Comment → Bool) : List Outline → Bool
  | [] => true
  | o :: os =>
    o.isSkeleton full plain && !(o.isOpen && os.head?.any isLoud) && areSkeletons full plain os

/-- The further branches of a conditional are those of a skeleton: each has its condition as its
name, and only the last one may be without a condition. -/
def isSkeletonNext (full : Bool) (plain : Comment → Bool) : Option Outline → Bool
  | none => true
  | some (gap _) => false
  | some (node _ name element headers applied children otherwise) =>
    headers.isEmpty && applied.isEmpty &&
      match element with
      | .conditionDirective condition _ =>
        name == condition.getD [] && condition.all isCondition &&
          (condition.isSome || otherwise.isNone) && areSkeletons full plain children &&
          isSkeletonNext full plain otherwise
      | _ => false

end

end Outline

/-- Everything that can be reached from the roots makes up a skeleton of fields, and there are no
comments. -/
def Tree.isSkeleton (t : Tree) : Bool :=
  Outline.areSkeletons false (fun _ ↦ false) (t.roots.map t.outline)

/-- Everything that can be reached from the roots makes up a skeleton, with comments that are read
as they were written. -/
def Tree.isCommentedSkeleton (t : Tree) (m : RegionMarkers) : Bool :=
  Outline.areSkeletons true m.isPlain (t.roots.map t.outline)

/-- What can be reached from the roots, without the numbers of the elements. -/
def Tree.forest (t : Tree) : List Outline := t.roots.map fun r ↦ (t.outline r).unnumbered

/-! ## Comments settle -/

namespace Outline

/-- The outline with more comments above it, before those that it has. -/
def withComments (waiting : List Outline) : Outline → Outline
  | gap k => gap k
  | node k name element headers applied children otherwise =>
    node k name element (waiting ++ headers) applied children otherwise

/-- What is placed when an element is read while comments wait, and the comments that wait then. A
comment waits as well, a declaration takes the comments, and before anything else they are placed.
-/
def placed (waiting : List Outline) (o : Outline) : List Outline × List Outline :=
  if o.kind? = some .comment then ([], waiting ++ [o])
  else if o.kind?.any Kind.isCommentable then ([o.withComments waiting], [])
  else (waiting ++ [o], [])

mutual

/-- The outline after all comments beneath it have settled. -/
def settle : Outline → Outline
  | gap k => gap k
  | node k name element headers applied children otherwise =>
    node k name element headers applied (settleAll [] children) (settleNext otherwise)

/-- The outlines, before which comments wait, after all comments have settled. -/
def settleAll (waiting : List Outline) : List Outline → List Outline
  | [] => waiting
  | o :: os => (placed waiting o.settle).1 ++ settleAll (placed waiting o.settle).2 os

def settleNext : Option Outline → Option Outline
  | none => none
  | some o => some o.settle

end

mutual

/-- The number of comments beneath an outline that stand beside a declaration and right before it,
or before other such comments. -/
def strays : Outline → Nat
  | gap _ => 0
  | node _ _ _ _ _ children otherwise => straysAll 0 children + straysNext otherwise

/-- The number of such comments beside and beneath outlines, where some comments wait before them.
-/
def straysAll (waiting : Nat) : List Outline → Nat
  | [] => 0
  | o :: os =>
    o.strays +
      if o.kind? = some .comment then straysAll (waiting + 1) os
      else (if o.kind?.any Kind.isCommentable then waiting else 0) + straysAll 0 os

def straysNext : Option Outline → Nat
  | none => 0
  | some o => o.strays

end

@[simp] theorem kind?_settle (o : Outline) : o.settle.kind? = o.kind? := by
  cases o <;> rfl

theorem withComments_nil (o : Outline) : o.withComments [] = o := by
  cases o <;> rfl

mutual

theorem settle_eq_self : ∀ o : Outline, o.strays = 0 → o.settle = o
  | gap _, _ => rfl
  | node _ _ _ _ _ children otherwise, h => by
    rw [strays, Nat.add_eq_zero_iff] at h
    rw [settle, settleAll_eq_append children [] h.1, settleNext_eq_self otherwise h.2,
      List.nil_append]

theorem settleAll_eq_append : ∀ (os waiting : List Outline), straysAll waiting.length os = 0 →
    settleAll waiting os = waiting ++ os
  | [], waiting, _ => by rw [settleAll, List.append_nil]
  | o :: os, waiting, h => by
    rw [straysAll, Nat.add_eq_zero_iff] at h
    obtain ⟨hself, h⟩ := h
    rw [settleAll, settle_eq_self o hself, placed]
    split at h
    · rename_i hcomment
      rw [if_pos hcomment, settleAll_eq_append os (waiting ++ [o]) (by simpa using h)]
      simp
    · rename_i hcomment
      rw [Nat.add_eq_zero_iff] at h
      rw [if_neg hcomment]
      split at h
      · rename_i hcommentable
        obtain rfl : waiting = [] := List.eq_nil_of_length_eq_zero h.1
        rw [if_pos hcommentable, settleAll_eq_append os [] h.2, withComments_nil]
        rfl
      · rename_i hcommentable
        rw [if_neg hcommentable, settleAll_eq_append os [] h.2]
        simp

theorem settleNext_eq_self : ∀ o : Option Outline, straysNext o = 0 → settleNext o = o
  | none, _ => rfl
  | some o, h => by rw [settleNext, settle_eq_self o h]

end

section Parts

variable {full : Bool} {plain : Comment → Bool} {k : ElementId} {name : Text} {element : Element}
  {headers applied children : List Outline} {otherwise : Option Outline} {o : Outline}

theorem eq_of_isCommentOf (h : o.isCommentOf plain = true) :
    ∃ k c, o = node k [] (.comment c) [] [] [] none ∧ plain c = true := by
  rw [isCommentOf.eq_def] at h
  split at h
  · exact ⟨_, _, rfl, h⟩
  · exact absurd h (by simp)

theorem isCommentOf_of_isSkeleton (h : o.isSkeleton full plain = true)
    (hkind : o.kind? = some .comment) : o.isCommentOf plain = true := by
  cases o with
  | gap k => simp [isSkeleton] at h
  | node k name element headers applied children otherwise =>
    cases element with
    | comment c =>
      have hnot : Kind.comment.isAttributable = false := rfl
      simp only [isSkeleton, Element.kind, Kind.isCommentable, hnot, Bool.and_false, Bool.false_and,
        Bool.or_false, Bool.false_or, Bool.and_eq_true, List.isEmpty_iff,
        Option.isNone_iff_eq_none] at h
      obtain ⟨⟨⟨-, rfl⟩, rfl⟩, ⟨⟨hc, rfl⟩, rfl⟩, rfl⟩ := h
      exact hc
    | _ => simp [kind?, Element.kind] at hkind

theorem areSkeletons_of_isSkeleton
    (h : (node k name element headers applied children otherwise).isSkeleton full plain = true) :
    headers.all (isCommentOf plain) = true ∧ applied.all isAttribute = true ∧
      areSkeletons full plain children = true ∧ isSkeletonNext full plain otherwise = true := by
  simp only [isSkeleton, Bool.and_eq_true, Bool.or_eq_true, List.isEmpty_iff] at h
  obtain ⟨⟨⟨hheaders, -⟩, happlied⟩, h⟩ := h
  refine ⟨hheaders, happlied.elim (fun hnil ↦ by rw [hnil]; rfl) And.right, ?_⟩
  cases element <;> simp_all [areSkeletons, isSkeletonNext]

theorem areSkeletons_of_isSkeletonNext
    (h : isSkeletonNext full plain
      (some (node k name element headers applied children otherwise)) = true) :
    headers = [] ∧ applied = [] ∧ areSkeletons full plain children = true ∧
      isSkeletonNext full plain otherwise = true := by
  simp only [isSkeletonNext, Bool.and_eq_true, List.isEmpty_iff] at h
  obtain ⟨⟨hheaders, happlied⟩, h⟩ := h
  refine ⟨hheaders, happlied, ?_⟩
  cases element <;> simp_all

theorem isSkeleton_of_areSkeletons {os : List Outline}
    (h : areSkeletons full plain (o :: os) = true) :
    o.isSkeleton full plain = true ∧ areSkeletons full plain os = true := by
  simp only [areSkeletons, Bool.and_eq_true] at h
  exact ⟨h.1.1, h.2⟩

end Parts

variable {full : Bool} {plain : Comment → Bool}

theorem shape_withComments (waiting : List Outline) (o : Outline) (depth : Nat) :
    (o.withComments waiting).shape depth = o.shape depth := by
  cases o <;> rfl

mutual

/-- Each stray comment is one entry less in the shape of the outline. -/
theorem length_shape_settle : ∀ (o : Outline) (depth : Nat), o.isSkeleton full plain = true →
    (o.settle.shape depth).length + o.strays = (o.shape depth).length
  | gap _, _, h => by simp [isSkeleton] at h
  | node _ _ _ _ _ children otherwise, depth, h => by
    obtain ⟨-, -, hchildren, hnext⟩ := areSkeletons_of_isSkeleton h
    have hall := length_shapeAll_settle children [] (depth + 1) rfl hchildren
    have hfurther := length_shapeNext_settle otherwise depth hnext
    simp only [settle, strays, shape, List.length_nil, List.length_cons, List.length_append]
      at hall ⊢
    omega

/-- Comments that wait add to the outlines, and those that are stray do not. -/
theorem length_shapeAll_settle : ∀ (os waiting : List Outline) (depth : Nat),
    (shapeAll depth waiting).length = waiting.length → areSkeletons full plain os = true →
      (shapeAll depth (settleAll waiting os)).length + straysAll waiting.length os =
        waiting.length + (shapeAll depth os).length
  | [], waiting, _, hwaiting, _ => by simp [settleAll, straysAll, shapeAll, hwaiting]
  | o :: os, waiting, depth, hwaiting, h => by
    obtain ⟨ho, hos⟩ := isSkeleton_of_areSkeletons h
    have hself := length_shape_settle o depth ho
    have hlater := length_shapeAll_settle os [] depth rfl hos
    simp only [List.length_nil, Nat.zero_add] at hlater
    rw [settleAll, straysAll, placed, kind?_settle, shapeAll]
    split
    · rename_i hcomment
      -- a comment counts for one whether it waits or has been placed
      obtain ⟨k, c, rfl, -⟩ := eq_of_isCommentOf (isCommentOf_of_isSkeleton ho hcomment)
      have hmore := length_shapeAll_settle os
        (waiting ++ [(node k [] (.comment c) [] [] [] none).settle]) depth
        (by rw [shapeAll_append, List.length_append, hwaiting, List.length_append]; rfl) hos
      have hone : (shape depth (node k [] (.comment c) [] [] [] none)).length = 1 ∧
          (node k [] (.comment c) [] [] [] none).strays = 0 := ⟨rfl, rfl⟩
      simp only [List.length_append, List.length_singleton, List.nil_append] at hmore ⊢
      omega
    · split
      · simp only [shapeAll_append, shapeAll, shape_withComments, List.length_append,
          List.length_nil]
        omega
      · simp only [shapeAll_append, shapeAll, List.length_append, List.length_nil, hwaiting]
        omega

theorem length_shapeNext_settle : ∀ (o : Option Outline) (depth : Nat),
    isSkeletonNext full plain o = true →
      (shapeNext depth (settleNext o)).length + straysNext o = (shapeNext depth o).length
  | none, _, _ => rfl
  | some (gap _), _, h => by simp [isSkeletonNext] at h
  | some (node _ _ _ _ _ children otherwise), depth, h => by
    obtain ⟨-, -, hchildren, hnext⟩ := areSkeletons_of_isSkeletonNext h
    have hall := length_shapeAll_settle children [] (depth + 1) rfl hchildren
    have hfurther := length_shapeNext_settle otherwise depth hnext
    simp only [settleNext, straysNext, shapeNext, settle, strays, shape, List.length_nil,
      List.length_cons, List.length_append] at hall ⊢
    omega

end

mutual

theorem strays_eq_zero : ∀ o : Outline, o.isSkeleton full (fun _ ↦ false) = true → o.strays = 0
  | gap _, _ => rfl
  | node _ _ _ _ _ children otherwise, h => by
    obtain ⟨-, -, hchildren, hnext⟩ := areSkeletons_of_isSkeleton h
    rw [strays, straysAll_eq_zero children hchildren, straysNext_eq_zero otherwise hnext]

theorem straysAll_eq_zero : ∀ os : List Outline, areSkeletons full (fun _ ↦ false) os = true →
    straysAll 0 os = 0
  | [], _ => rfl
  | o :: os, h => by
    obtain ⟨ho, h⟩ := isSkeleton_of_areSkeletons h
    have hcomment : o.kind? ≠ some .comment := fun hkind ↦ by
      obtain ⟨_, _, -, hplain⟩ := eq_of_isCommentOf (isCommentOf_of_isSkeleton ho hkind)
      exact absurd hplain (by simp)
    rw [straysAll, strays_eq_zero o ho, if_neg hcomment, straysAll_eq_zero os h, ite_self]

theorem straysNext_eq_zero : ∀ o : Option Outline,
    isSkeletonNext full (fun _ ↦ false) o = true → straysNext o = 0
  | none, _ => rfl
  | some (gap _), _ => rfl
  | some (node _ _ _ _ _ children otherwise), h => by
    obtain ⟨-, -, hchildren, hnext⟩ := areSkeletons_of_isSkeletonNext h
    rw [straysNext, strays, straysAll_eq_zero children hchildren,
      straysNext_eq_zero otherwise hnext]

end

/-! ## Gaps -/

theorem areWhole_of_isCommentOf {headers : List Outline}
    (h : headers.all (isCommentOf plain) = true) : areWhole headers = true := by
  rw [areWhole_iff]
  intro o ho
  obtain ⟨k, c, rfl, -⟩ := eq_of_isCommentOf (List.all_eq_true.mp h o ho)
  rfl

theorem areWhole_of_isAttribute {applied : List Outline} (h : applied.all isAttribute = true) :
    areWhole applied = true :=
  areWhole_iff.mpr fun o ho ↦ (eq_of_isAttribute (List.all_eq_true.mp h o ho)).1

mutual

theorem isWhole_of_isSkeleton : ∀ o : Outline, o.isSkeleton full plain = true → o.isWhole = true
  | gap _, h => by simp [isSkeleton] at h
  | node _ _ _ headers applied children otherwise, h => by
    obtain ⟨hheaders, happlied, hchildren, hnext⟩ := areSkeletons_of_isSkeleton h
    rw [isWhole, areWhole_of_isCommentOf hheaders, areWhole_of_isAttribute happlied,
      areWhole_of_areSkeletons children hchildren, isWholeNext_of_isSkeletonNext otherwise hnext]
    rfl

theorem areWhole_of_areSkeletons :
    ∀ os : List Outline, areSkeletons full plain os = true → areWhole os = true
  | [], _ => rfl
  | o :: os, h => by
    obtain ⟨ho, h⟩ := isSkeleton_of_areSkeletons h
    rw [areWhole, isWhole_of_isSkeleton o ho, areWhole_of_areSkeletons os h]
    rfl

theorem isWholeNext_of_isSkeletonNext :
    ∀ o : Option Outline, isSkeletonNext full plain o = true → isWholeNext o = true
  | none, _ => rfl
  | some (gap _), h => by simp [isSkeletonNext] at h
  | some (node _ _ _ _ _ children otherwise), h => by
    obtain ⟨rfl, rfl, hchildren, hnext⟩ := areSkeletons_of_isSkeletonNext h
    rw [isWholeNext, isWhole, areWhole_of_areSkeletons children hchildren,
      isWholeNext_of_isSkeletonNext otherwise hnext]
    rfl

end

mutual

theorem firstGap?_of_isWhole : ∀ o : Outline, o.isWhole = true → o.firstGap? = none
  | gap _, h => by simp [isWhole] at h
  | node _ _ element headers applied children otherwise, h => by
    simp only [isWhole, Bool.and_eq_true] at h
    obtain ⟨⟨⟨hheaders, happlied⟩, hchildren⟩, hnext⟩ := h
    have hheaders := firstGapIn?_of_areWhole headers hheaders
    have happlied := firstGapIn?_of_areWhole applied happlied
    have hchildren := firstGapIn?_of_areWhole children hchildren
    have hnext := firstGapNext?_of_isWholeNext otherwise hnext
    cases element <;> simp [firstGap?, hheaders, happlied, hchildren, hnext]

theorem firstGapIn?_of_areWhole : ∀ os : List Outline, areWhole os = true → firstGapIn? os = none
  | [], _ => rfl
  | o :: os, h => by
    rw [areWhole, Bool.and_eq_true] at h
    rw [firstGapIn?, firstGap?_of_isWhole o h.1, firstGapIn?_of_areWhole os h.2]
    rfl

theorem firstGapNext?_of_isWholeNext :
    ∀ o : Option Outline, isWholeNext o = true → firstGapNext? o = none
  | none, _ => rfl
  | some (gap _), h => by simp [isWholeNext, isWhole] at h
  | some (node _ _ element _ _ children otherwise), h => by
    simp only [isWholeNext, isWhole, Bool.and_eq_true] at h
    have hchildren := firstGapIn?_of_areWhole children h.1.2
    have hnext := firstGapNext?_of_isWholeNext otherwise h.2
    cases element <;> simp [firstGapNext?, hchildren, hnext]

end

end Outline

end SharpOutline
