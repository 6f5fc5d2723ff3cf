import SharpOutline.Proofs.Block.AttributeLists
import SharpOutline.Proofs.Block.TypeHeaders
import SharpOutline.Proofs.Tree.Shape

/-!
# Checking headers and attributes

Whether the header of a type or a list of attributes is regular is stated by grammars of names.
Here it is computed: names are cut at their dots, and type arguments by the function that the reader
uses. Everything that passes is regular.
-/

namespace SharpOutline

/-! ## Names -/

/-- What holds of words, and with them of rows that begin with a word and a dot, holds of every
text that is cut into such words at its dots. -/
theorem of_splitOn_dot {p : Text → Prop} {q : Text → Bool} (hword : ∀ {w}, q w = true → p w)
    (hdot : ∀ {w v}, q w = true → p v → p (w ++ '.' :: v)) {w : Text}
    (h : (w.splitOn '.').all q = true) : p w := by
  have hrow : ∀ ws : List Text, ws ≠ [] → ws.all q = true → p (['.'].intercalate ws) := by
    intro ws hne hws
    induction ws with
    | nil => exact absurd rfl hne
    | cons w ws ih =>
      rw [List.all_cons, Bool.and_eq_true] at hws
      cases ws with
      | nil => simpa [List.intercalate] using hword hws.1
      | cons v ws => simpa [List.intercalate] using hdot hws.1 (ih (by simp) hws.2)
  have hw := hrow _ (List.splitOn_ne_nil _ _) h
  rwa [List.intercalate_splitOn] at hw

/-- The text is the name of a type, whose type arguments are nested less than so deep. -/
def isTypeNameUpTo : Nat → Text → Bool
  | 0, _ => false
  | n + 1, w =>
    let (path, arguments) := genericName w
    (path.splitOn '.').all isTypeIdentifier && arguments.all (isTypeNameUpTo n) &&
      w == if arguments.isEmpty then path
        else path ++ '<' :: (Text.join partSeparator arguments ++ ['>'])

def isTypeName (w : Text) : Bool := isTypeNameUpTo w.length w

theorem isTypeName_of_upTo : ∀ (n : Nat) (w : Text), isTypeNameUpTo n w = true → IsTypeName w
  | 0, _, h => by simp [isTypeNameUpTo] at h
  | n + 1, w, h => by
    simp only [isTypeNameUpTo, Bool.and_eq_true, beq_iff_eq] at h
    obtain ⟨⟨hpath, harguments⟩, hw⟩ := h
    have hpath := of_splitOn_dot IsTypePath.identifier IsTypePath.dotted hpath
    rw [hw]
    split
    · exact .path hpath
    · rename_i hne
      exact .generic hpath (by simpa using hne) fun a ha ↦
        isTypeName_of_upTo n a (List.all_eq_true.mp harguments a ha)

/-! ## Headers of types -/

def TypeParameter.isRegular (p : TypeParameter) : Bool :=
  ([[], "in ".toList, "out ".toList].any fun variance ↦
    variance.isPrefixOf p.name && isTypeIdentifier (p.name.drop variance.length)) &&
  (if p.constraints.getLast? = some "new()".toList then p.constraints.dropLast
    else p.constraints).all fun c ↦ isTypeName c || c == "class".toList || c == "struct".toList

theorem TypeParameter.isRegular_sound {p : TypeParameter} (h : p.isRegular = true) :
    p.IsRegular := by
  simp only [isRegular, Bool.and_eq_true, List.any_eq_true, List.all_eq_true, Bool.or_eq_true,
    beq_iff_eq] at h
  obtain ⟨⟨variance, hmem, hvariance, hname⟩, hconstraints⟩ := h
  obtain ⟨bare, hbare⟩ := List.isPrefixOf_iff_prefix.mp hvariance
  rw [← hbare, List.drop_left] at hname
  refine ⟨⟨variance, bare, hmem, hname, hbare.symm⟩, ?_⟩
  have hsound (c : Text) (hc : (isTypeName c = true ∨ c = "class".toList) ∨ c = "struct".toList) :
      IsConstraint c := or_assoc.mp (hc.imp_left (Or.imp_left (isTypeName_of_upTo _ c)))
  split at hconstraints
  · rename_i hlast
    exact ⟨_, fun c hc ↦ hsound c (hconstraints c hc),
      .inr (List.dropLast_append_getLast? _ hlast).symm⟩
  · exact ⟨_, fun c hc ↦ hsound c (hconstraints c hc), .inl rfl⟩

def TypeDeclaration.hasRegularHeader (t : TypeDeclaration) : Bool :=
  Modifiers.full.contains t.modifiers &&
    (t.bases.all fun b ↦ isTypeName b.name && b.kind == .unknown) &&
    t.typeParameters.all TypeParameter.isRegular &&
    decide (t.typeParameters.map TypeParameter.bareName?).Nodup

theorem TypeDeclaration.hasRegularHeader_sound {t : TypeDeclaration}
    (h : t.hasRegularHeader = true) : t.HasRegularHeader := by
  simp only [hasRegularHeader, Bool.and_eq_true, List.all_eq_true, beq_iff_eq,
    decide_eq_true_eq] at h
  obtain ⟨⟨⟨hmodifiers, hbases⟩, hparameters⟩, hdistinct⟩ := h
  exact ⟨hmodifiers, fun b hb ↦ (hbases b hb).imp_left (isTypeName_of_upTo _ _),
    fun p hp ↦ TypeParameter.isRegular_sound (hparameters p hp), hdistinct⟩

/-! ## Attributes -/

def ListedAttribute.isRegular (a : ListedAttribute) : Bool :=
  (a.data.target.all fun w ↦ isIdentifier w && w != "global".toList) &&
    (a.name.splitOn '.').all isIdentifier && a.data.arguments.all fun t ↦ decide (IsArguments t)

theorem ListedAttribute.isRegular_sound {a : ListedAttribute} (h : a.isRegular = true) :
    a.IsRegular := by
  simp only [isRegular, Bool.and_eq_true, Option.all_eq_true, bne_iff_ne, decide_eq_true_eq] at h
  exact ⟨h.1.1, of_splitOn_dot .identifier .dotted h.1.2, h.2⟩

/-- The outline is that of a list of attributes for a declaration. -/
def Outline.isAttribute : Outline → Bool
  | node _ name (.attributeUse a) [] [] children none =>
    ListedAttribute.isRegular ⟨name, a⟩ && areWhole children &&
      !(a.target == some "assembly".toList || a.target == some "module".toList) &&
      (children.filterMap listed?).all fun b ↦ b.isRegular && b.data.target.isNone
  | _ => false

theorem Outline.eq_of_isAttribute {o : Outline} (h : o.isAttribute = true) :
    o.isWhole = true ∧ ∃ (k : ElementId) (head : ListedAttribute) (children : List Outline),
      o = node k head.name (.attributeUse head.data) [] [] children none ∧ head.IsRegular ∧
      ¬(head.data.target = some "assembly".toList ∨ head.data.target = some "module".toList) ∧
      ∀ a ∈ children.filterMap listed?, a.IsRegular ∧ a.data.target = none := by
  rw [isAttribute.eq_def] at h
  split at h
  · rename_i k name a children
    simp only [Bool.and_eq_true, List.all_eq_true, Option.isNone_iff_eq_none, Bool.not_eq_true',
      Bool.or_eq_false_iff, beq_eq_false_iff_ne] at h
    obtain ⟨⟨⟨hhead, hwhole⟩, htarget⟩, hchain⟩ := h
    exact ⟨by simp [isWhole, areWhole, isWholeNext, hwhole], k, ⟨name, a⟩, children, rfl,
      ListedAttribute.isRegular_sound hhead, not_or.mpr htarget, fun b hb ↦
        (hchain b hb).imp_left ListedAttribute.isRegular_sound⟩
  · exact absurd h Bool.false_ne_true

end SharpOutline
