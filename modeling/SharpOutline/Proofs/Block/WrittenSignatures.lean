import SharpOutline.Proofs.Block.TypeNames

/-!
# Signatures as they are written

A signature is written as a row of words: access, modifiers and flags, then the keyword that says
what is declared, the type and the name (`Signature.written`). The type may be a text with blanks
and commas in its brackets (`IsTypeText`), so the row has more spaces than words.

Cutting the row gives the words back, because a type is kept together, and sorting the words gives
the signature back (`Signature.ofWords_phraseWords_written`). A type whose first identifier is no
keyword is never taken for one, although keywords may stand further back in it: what follows its
last space has a bracket in it.
-/

namespace SharpOutline

/-! ## Types -/

/-- A type as it is written: identifiers with dots between them, type arguments in angle brackets,
and marks for arrays and for values that may be missing. The marks need not come last. -/
inductive IsTypeText : Text → Prop
  | identifier {w : Text} (h : isIdentifier w = true) : IsTypeText w
  | generic {w : Text} {arguments : List Text} (h : isIdentifier w = true)
      (harguments : ∀ a ∈ arguments, IsTypeText a) :
      IsTypeText (w ++ '<' :: (Text.join partSeparator arguments ++ ['>']))
  | dotted {w v : Text} (hw : IsTypeText w) (hv : IsTypeText v) : IsTypeText (w ++ '.' :: v)
  | array {w : Text} (hw : IsTypeText w) : IsTypeText (w ++ ['[', ']'])
  | nullable {w : Text} (hw : IsTypeText w) : IsTypeText (w ++ ['?'])

def leadingIdentifier (t : Text) : Text := t.takeWhile isIdentifierCharacter

theorem leadingIdentifier_of_forall {w : Text} (h : ∀ c ∈ w, isIdentifierCharacter c = true) :
    leadingIdentifier w = w :=
  List.takeWhile_eq_self_iff.mpr h

theorem leadingIdentifier_append_cons {c : Char} (hc : isIdentifierCharacter c = false)
    (w v : Text) : leadingIdentifier (w ++ c :: v) = leadingIdentifier w := by
  rw [leadingIdentifier, List.takeWhile_append, List.takeWhile_cons_of_neg (by simp [hc])]
  split
  · rename_i hlength
    rw [List.append_nil, leadingIdentifier,
      (List.takeWhile_prefix isIdentifierCharacter).eq_of_length hlength]
  · rfl

/-- Behind every space of the text an angle bracket is closed. -/
def SpacesEnclosed (t : Text) : Prop := ∀ u v, t = u ++ ' ' :: v → '>' ∈ v

section Spaces

variable {t s : Text}

theorem spacesEnclosed_of_not_mem (h : ' ' ∉ t) : SpacesEnclosed t := by
  rintro u v rfl
  exact absurd (by simp) h

theorem SpacesEnclosed.append (ht : SpacesEnclosed t) (hs : SpacesEnclosed s) :
    SpacesEnclosed (t ++ s) := by
  intro u v heq
  rcases List.append_eq_append_iff.mp heq with ⟨x, rfl, hx⟩ | ⟨x, rfl, hx⟩
  · exact hs x v hx
  · cases x with
    | nil => exact hs [] v (by simpa using hx.symm)
    | cons c x =>
      cases hx
      exact List.mem_append_left s (ht u x rfl)

theorem spacesEnclosed_concat (t : Text) : SpacesEnclosed (t ++ ['>']) := by
  intro u v heq
  have hlast := congrArg List.getLast? heq
  rw [List.getLast?_concat, List.getLast?_append_of_ne_nil _ (List.cons_ne_nil ' ' v)] at hlast
  cases v with
  | nil => simp at hlast
  | cons c v =>
    rw [List.getLast?_cons_cons] at hlast
    exact List.mem_of_getLast? hlast.symm

end Spaces

namespace IsTypeText

variable {t : Text}

theorem isIdentifier_leadingIdentifier (h : IsTypeText t) :
    isIdentifier (leadingIdentifier t) = true := by
  have hself {w : Text} (hw : isIdentifier w = true) :
      isIdentifier (leadingIdentifier w) = true := by
    rwa [leadingIdentifier_of_forall fun c hc ↦ isIdentifierCharacter_of_mem hw hc]
  induction h with
  | identifier h => exact hself h
  | generic h harguments ih =>
    rw [leadingIdentifier_append_cons (by decide +kernel)]
    exact hself h
  | dotted hw hv ihw ihv => rwa [leadingIdentifier_append_cons (by decide +kernel)]
  | array hw ih => rwa [leadingIdentifier_append_cons (by decide +kernel)]
  | nullable hw ih => rwa [leadingIdentifier_append_cons (by decide +kernel)]

/-- A type starts with a character of an identifier. -/
theorem exists_eq_cons (h : IsTypeText t) : ∃ c u, t = c :: u ∧ endsWord c = false := by
  have hword := isWord_of_isIdentifier h.isIdentifier_leadingIdentifier
  obtain ⟨u, hu⟩ : leadingIdentifier t <+: t := List.takeWhile_prefix isIdentifierCharacter
  obtain ⟨c, w, hw⟩ := List.exists_cons_of_ne_nil hword.1
  rw [hw] at hu hword
  exact ⟨c, w ++ u, hu.symm, hword.2 c List.mem_cons_self⟩

theorem isBlank_getLast? (h : IsTypeText t) : ∀ c ∈ t.getLast?, isBlank c = false := by
  induction h with
  | identifier h => exact fun c hc ↦
      (isWord_of_isIdentifier h).isBlank_eq_false (List.mem_of_getLast? hc)
  | generic h harguments ih =>
    rw [← List.cons_append, ← List.append_assoc, List.getLast?_concat]
    simpa using (by decide : isBlank '>' = false)
  | dotted hw hv ihw ihv =>
    obtain ⟨c, u, rfl, -⟩ := hv.exists_eq_cons
    rwa [List.getLast?_append_of_ne_nil _ (List.cons_ne_nil _ _), List.getLast?_cons_cons]
  | array hw ih =>
    rw [List.getLast?_append_of_ne_nil _ (List.cons_ne_nil _ _)]
    simpa using (by decide : isBlank ']' = false)
  | nullable hw ih =>
    rw [List.getLast?_concat]
    simpa using (by decide : isBlank '?' = false)

theorem trimmed (h : IsTypeText t) : t ≠ [] ∧ Text.trim t = t := by
  obtain ⟨c, u, rfl, hc⟩ := h.exists_eq_cons
  exact ⟨List.cons_ne_nil c u,
    Text.trim_eq_self (by simpa using isBlank_of_endsWord hc) h.isBlank_getLast?⟩

theorem solid (h : IsTypeText t) : Solid 0 t := by
  induction h with
  | identifier h => exact solid_of_endsWord (isWord_of_isIdentifier h).2
  | generic h harguments ih =>
    have hjoin := solid_join fun a ha ↦ (ih a ha).mono (Nat.zero_le 1)
    exact (solid_of_endsWord (isWord_of_isIdentifier h).2).append
      (solid_bracketed (by decide) (by decide) (fun _ ↦ rfl) (fun _ ↦ rfl) hjoin)
  | @dotted w v hw hv ihw ihv =>
    have hdot : Solid 0 ['.'] := solid_of_endsWord (List.forall_mem_singleton.mpr (by decide))
    exact ihw.append (hdot.append ihv)
  | array hw ih =>
    exact ih.append
      (solid_bracketed (by decide) (by decide) (fun _ ↦ rfl) (fun _ ↦ rfl) solid_nil)
  | nullable hw ih =>
    have hmark : Solid 0 ['?'] :=
      solid_of_nestingAfter (List.forall_mem_singleton.mpr ⟨by decide, fun _ ↦ rfl⟩)
    exact ih.append hmark

/-- A type is one word of a signature. -/
theorem isKept (h : IsTypeText t) : IsKept t where
  ne_nil := h.trimmed.1
  head?_ne hhead := by
    obtain ⟨c, u, rfl, hc⟩ := h.exists_eq_cons
    obtain rfl : c = '[' := by simpa using hhead
    exact absurd hc (by decide)
  pass found v u := h.solid found v 0 u (Nat.le_refl 0)

theorem spacesEnclosed (h : IsTypeText t) : SpacesEnclosed t := by
  induction h with
  | identifier h => exact spacesEnclosed_of_not_mem (not_mem_of_isIdentifier h (by decide))
  | @generic w arguments h harguments ih =>
    rw [← List.cons_append, ← List.append_assoc]
    exact spacesEnclosed_concat _
  | dotted hw hv ihw ihv =>
    rw [List.append_cons]
    exact (ihw.append (spacesEnclosed_of_not_mem (by decide))).append ihv
  | array hw ih => exact ih.append (spacesEnclosed_of_not_mem (by decide))
  | nullable hw ih => exact ih.append (spacesEnclosed_of_not_mem (by decide))

end IsTypeText

/-! ## Types and keywords -/

theorem isIdentifierCharacter_of_isDeclarationWord {w : Text} (h : isDeclarationWord w = true) :
    ∀ c ∈ w, isIdentifierCharacter c = true := by
  intro c hc
  have hname := (isNameCharacter_of_isDeclarationWord h).2 c hc
  rw [isIdentifierCharacter, isAlphanumeric_of_isNameCharacter hname, Bool.true_or]

namespace Signature

theorem afterLastSpace_eq_or (t : Text) :
    afterLastSpace t = t ∨ ∃ u, t = u ++ ' ' :: afterLastSpace t := by
  have hsplit := List.takeWhile_append_dropWhile (p := (· != ' ')) (l := t.reverse)
  have hhead := List.head?_dropWhile_not (· != ' ') t.reverse
  cases hdrop : t.reverse.dropWhile (· != ' ') with
  | nil =>
    rw [hdrop, List.append_nil] at hsplit
    exact .inl (by rw [afterLastSpace, hsplit, List.reverse_reverse])
  | cons c u =>
    obtain rfl : c = ' ' := by simpa [hdrop] using hhead
    refine .inr ⟨u.reverse, ?_⟩
    rw [hdrop] at hsplit
    calc t = (t.reverse.takeWhile (· != ' ') ++ ' ' :: u).reverse := by
          rw [hsplit, List.reverse_reverse]
      _ = u.reverse ++ ' ' :: afterLastSpace t := by
          rw [List.reverse_append, List.reverse_cons, List.append_assoc, List.singleton_append,
            afterLastSpace]

section TypeText

variable {t : Text} (h : IsTypeText t) (hkeyword : isDeclarationWord (leadingIdentifier t) = false)
  (hoperator : leadingIdentifier t ≠ "operator".toList)

include h

/-- A run of identifier characters behind the last space is the whole type. -/
theorem leadingIdentifier_eq_afterLastSpace
    (hall : ∀ c ∈ afterLastSpace t, isIdentifierCharacter c = true) :
    leadingIdentifier t = afterLastSpace t := by
  rcases afterLastSpace_eq_or t with heq | ⟨u, heq⟩
  · rw [heq] at hall ⊢
    exact leadingIdentifier_of_forall hall
  · exact absurd (hall '>' (h.spacesEnclosed u _ heq)) (by decide +kernel)

include hoperator

theorem ne_operator_of_leadingIdentifier : t ≠ "operator".toList := by
  rintro rfl
  exact hoperator (leadingIdentifier_of_forall (List.all_eq_true.mp (by decide +kernel)))

theorem gluedOperator?_of_isTypeText : gluedOperator? t = none := by
  rw [gluedOperator?]
  cases hsymbol : "operator".toList.isPrefixOf? t with
  | none => rfl
  | some symbol =>
    have ht : "operator".toList ++ symbol = t := List.append_eq_of_isPrefixOf?_eq_some hsymbol
    have hword : ∀ c ∈ "operator".toList, isIdentifierCharacter c = true :=
      List.all_eq_true.mp (by decide +kernel)
    have hleading : leadingIdentifier t = "operator".toList ++ leadingIdentifier symbol := by
      rw [← ht, leadingIdentifier, List.takeWhile_append_of_pos hword, leadingIdentifier]
    obtain ⟨run, hrun, -, halphanumeric⟩ :=
      exists_run_of_isIdentifier h.isIdentifier_leadingIdentifier
    rw [hleading] at hrun hoperator
    -- What follows in the identifier is no punctuation, so the symbol is none.
    cases hfollows : leadingIdentifier symbol with
    | nil =>
      rw [hfollows, List.append_nil] at hoperator
      exact absurd rfl hoperator
    | cons c cs =>
      obtain ⟨u, hu⟩ : leadingIdentifier symbol <+: symbol :=
        List.takeWhile_prefix isIdentifierCharacter
      have hc : (isAlphanumeric c || c == '_') = true := by
        refine halphanumeric c ?_
        rcases hrun with rfl | hrun
        · rw [hfollows]
          simp
        · exact absurd (congrArg List.head? hrun) (by simp)
      have hpunctuation : isOperatorSymbol symbol = false := by
        rw [← hu, hfollows]
        simp only [Bool.or_eq_true, beq_iff_eq] at hc
        rcases hc with hc | hc <;> simp [isOperatorSymbol, hc]
      simp [hpunctuation]

include hkeyword

theorem isTypeMisnamed_of_isTypeText : isTypeMisnamed t = false := by
  have hnot {p : Text → Prop} (hp : ¬ p (leadingIdentifier t))
      (hall : ∀ w, p w → ∀ c ∈ w, isIdentifierCharacter c = true) : ¬ p (afterLastSpace t) := by
    intro hw
    rw [← leadingIdentifier_eq_afterLastSpace h (hall _ hw)] at hw
    exact hp hw
  have hdeclaration : ¬ isDeclarationWord (afterLastSpace t) = true :=
    hnot (by simp [hkeyword]) fun w hw ↦ isIdentifierCharacter_of_isDeclarationWord hw
  have hname : ¬ afterLastSpace t = "operator".toList :=
    hnot (p := (· = "operator".toList)) hoperator fun w hw ↦
      hw ▸ List.all_eq_true.mp (by decide +kernel)
  rw [isTypeMisnamed, Bool.or_eq_false_iff, beq_eq_false_iff_ne]
  exact ⟨Bool.eq_false_iff.mpr hdeclaration, hname⟩

end TypeText

/-! ## Rows -/

/-- A signature as it is written. What is not stated leaves no gap. -/
def written (s : Signature) : Text :=
  Text.joinWords [s.access.text, s.modifiers.text, flagText "async" s.isAsync,
    flagText "volatile" s.isVolatile, flagText "fixed" s.isFixed, s.kind.keyword,
    s.returnType.getD [], s.name]

/-- The type and the name of the signature cannot be mistaken for keywords. -/
structure IsRegular (s : Signature) : Prop where
  modifiers : Modifiers.full.contains s.modifiers = true
  type : ∀ t ∈ s.returnType, IsTypeText t ∧ isDeclarationWord (leadingIdentifier t) = false ∧
    leadingIdentifier t ≠ "operator".toList
  name : isIdentifier s.name = true ∧ isDeclarationWord s.name = false
  operator : s.operator = none

namespace IsRegular

variable {s : Signature}

theorem isDeclarationWord_head? (h : s.IsRegular) :
    ∀ w ∈ (s.returnType.toList ++ [s.name]).head?, isDeclarationWord w = false := by
  cases htype : s.returnType with
  | none => simpa using h.name.2
  | some t =>
    obtain ⟨ht, hkeyword, -⟩ := h.type t htype
    have hword : isDeclarationWord t = false := by
      by_contra hword
      have hall := isIdentifierCharacter_of_isDeclarationWord (Bool.of_not_eq_false hword)
      rw [leadingIdentifier_of_forall hall] at hkeyword
      exact hword hkeyword
    simpa using hword

/-- A signature is written as its keywords, the type and the name. -/
theorem written_eq (h : s.IsRegular) :
    s.written = spaced (s.keywords ++ s.returnType.toList) ++ s.name := by
  have hclosing : ∀ w ∈ [flagText "async" s.isAsync, flagText "volatile" s.isVolatile,
      flagText "fixed" s.isFixed, s.kind.keyword], Text.trim w = w := by
    intro w hw
    by_cases hnil : w = []
    · rw [hnil]
      rfl
    · have hmem : w ∈ s.closingWords := List.mem_filter.mpr ⟨hw, by simpa using hnil⟩
      have hdeclaration := isDeclarationWord_of_mem_keywords w (List.mem_append_right _ hmem)
      exact trim_of_isWord (isWord_of_isDeclarationWord hdeclaration)
  have hend : (∀ w ∈ [s.returnType.getD [], s.name], Text.trim w = w) ∧
      [s.returnType.getD [], s.name].filter (fun w ↦ !w.isEmpty) =
        s.returnType.toList ++ [s.name] := by
    have hname := isWord_of_isIdentifier h.name.1
    cases htype : s.returnType with
    | none => simpa [hname.1] using ⟨rfl, trim_of_isWord hname⟩
    | some t =>
      obtain ⟨hne, htrim⟩ := (h.type t htype).1.trimmed
      simpa [hname.1, hne] using ⟨htrim, trim_of_isWord hname⟩
  have hjoin := joinWords_leadingWords s.access s.modifiers
    (List.forall_mem_append.mpr ⟨hclosing, hend.1⟩)
  rw [List.filter_append, hend.2, ← List.append_assoc, ← List.append_assoc,
    join_append_singleton] at hjoin
  exact hjoin

theorem phraseWords_written (h : s.IsRegular) :
    phraseWords s.written = s.keywords ++ (s.returnType.toList ++ [s.name]) := by
  have hkept : ∀ w ∈ s.keywords ++ s.returnType.toList, IsKept w := by
    refine List.forall_mem_append.mpr ⟨fun w hw ↦ ?_, fun w hw ↦ ?_⟩
    · have hword := isWord_of_isDeclarationWord (isDeclarationWord_of_mem_keywords w hw)
      exact hword.isToken.isKept
    · exact (h.type w (by simpa using hw)).1.isKept
  have hname := (isWord_of_isIdentifier h.name.1).isToken.isKept
  rw [h.written_eq, phraseWords_spaced_append_kept hkept hname, List.append_assoc]

theorem completed_eq (h : s.IsRegular) (words : List Text) :
    completed words s.bare (s.returnType.toList ++ [s.name]) = .ok s := by
  have hname := gluedOperator?_of_isIdentifier h.name.1
  obtain ⟨-, htype, -, hoperator⟩ := h
  cases s
  cases hoperator
  rename_i type
  cases type with
  | none => exact completed_singleton hname
  | some t =>
    obtain ⟨ht, hkeyword, hoperator⟩ := htype t rfl
    exact completed_pair (ne_operator_of_leadingIdentifier ht hoperator)
      (isTypeMisnamed_of_isTypeText ht hkeyword hoperator)
      (gluedOperator?_of_isTypeText ht hoperator) hname

end IsRegular

/-- **Written signatures are read back.** Every access level, every set of modifiers and every
choice of flags, with any keyword that says what is declared, any type and any name: cutting the
written row into words and sorting the words gives the signature that it was written from. -/
theorem ofWords_phraseWords_written {s : Signature} (h : s.IsRegular) :
    ofWords (phraseWords s.written) = .ok s := by
  rw [h.phraseWords_written]
  refine ofWords_eq_ok_iff.mpr ⟨(s.bare, s.returnType.toList ++ [s.name]), ?_, h.completed_eq _⟩
  exact (strip_eq_ok_iff isDeclarationWord_of_mem_keywords h.isDeclarationWord_head?).mpr
    ⟨isStatedBy_keywords h.modifiers, rfl⟩

/-- An event with a space and a keyword in the brackets of its type. -/
def mappedEvent : Signature where
  kind := .event
  access := .toHeirsOrAssembly
  modifiers := .single .shared
  isVolatile := true
  name := "Changed".toList
  returnType := some "A.Map<B, class<C>>[]?".toList

theorem ofWords_phraseWords_written_event : mappedEvent.IsRegular ∧
    mappedEvent.written =
      "protected internal static volatile event A.Map<B, class<C>>[]? Changed".toList ∧
    ofWords (phraseWords mappedEvent.written) = .ok mappedEvent := by
  have hargument : IsTypeText "class<C>".toList :=
    @IsTypeText.generic "class".toList ["C".toList] (by decide +kernel)
      (List.forall_mem_singleton.mpr (.identifier (by decide +kernel)))
  have hmap : IsTypeText "Map<B, class<C>>".toList :=
    @IsTypeText.generic "Map".toList ["B".toList, "class<C>".toList] (by decide +kernel)
      (List.forall_mem_cons.mpr ⟨.identifier (by decide +kernel),
        List.forall_mem_singleton.mpr hargument⟩)
  have htype : IsTypeText "A.Map<B, class<C>>[]?".toList :=
    .nullable (.array (.dotted (w := ['A']) (.identifier (by decide +kernel)) hmap))
  have hregular : mappedEvent.IsRegular := by
    refine ⟨by decide, fun t ht ↦ ?_, ⟨by decide +kernel, by decide⟩, rfl⟩
    cases ht
    exact ⟨htype, by decide +kernel, by decide +kernel⟩
  exact ⟨hregular, by decide, ofWords_phraseWords_written hregular⟩

end Signature

end SharpOutline
