import Mathlib.Tactic.Tauto
import SharpOutline.Layout.Declaration
import SharpOutline.Proofs.Keywords
import SharpOutline.Proofs.Words

/-!
# Signatures of plain declarations

A plain declaration states access, then modifiers, and then either declares a type by its keyword or
gives a type and a name. Its words are sorted into the parts that they were written from, for every
access level and every set of modifiers.
-/

namespace SharpOutline

/-! ## Names -/

def isNameCharacter (c : Char) : Bool := c.isAlphanum || c == '_'

/-- Identifiers with dots between them; `fresh` says that one has to begin here. -/
def isDottedFrom (fresh : Bool) : Text → Bool
  | [] => !fresh
  | c :: cs =>
    if c = '.' then !fresh && isDottedFrom true cs
    else isNameCharacter c && !(fresh && c.isDigit) && isDottedFrom false cs

/-- The word has a meaning of its own where a declaration starts or a type stands. -/
def isKeyword (w : Text) : Bool :=
  isDeclarationWord w || w == "namespace".toList || w == "using".toList || w == "operator".toList

/-- One or more identifiers with dots between them. -/
def isDotted (w : Text) : Bool := isDottedFrom true w

variable {c : Char}

theorem toNat_lt_of_isNameCharacter (h : isNameCharacter c = true) : c.toNat < 128 := by
  have h : ((decide (c.val ≥ 65 ∧ c.val ≤ 90) || (decide (c.val ≥ 97) && decide (c.val ≤ 122))) ||
      (decide (c.val ≥ 48) && decide (c.val ≤ 57)) || c == '_') = true := h
  simp only [Bool.or_eq_true, Bool.and_eq_true, decide_eq_true_eq, beq_iff_eq] at h
  have h : c = '_' ∨ c.val ≤ 90 ∨ c.val ≤ 122 ∨ c.val ≤ 57 := by tauto
  rcases h with rfl | h | h | h
  · decide
  all_goals
    have := UInt32.le_iff_toNat_le.mp h
    exact Nat.lt_of_le_of_lt this (by decide)

/-- A property of all name characters, checked on the characters of which they are a part. -/
theorem forall_isNameCharacter {p : Char → Bool}
    (h : ((List.range 128).map Char.ofNat).all (fun c ↦ !isNameCharacter c || p c) = true)
    (hc : isNameCharacter c = true) : p c = true := by
  have hmem : c ∈ (List.range 128).map Char.ofNat :=
    List.mem_map.mpr
      ⟨c.toNat, List.mem_range.mpr (toNat_lt_of_isNameCharacter hc), Char.ofNat_toNat c⟩
  simpa [hc] using List.all_eq_true.mp h c hmem

theorem endsWord_of_isNameCharacter (h : isNameCharacter c = true) :
    endsWord c = false := by
  have := forall_isNameCharacter (p := fun c ↦ !endsWord c) (by decide +kernel) h
  simpa using this

theorem isMild_of_isNameCharacter (h : isNameCharacter c = true) : isMild c = true :=
  forall_isNameCharacter (by decide +kernel) h

theorem isAlphanumeric_of_isNameCharacter (h : isNameCharacter c = true) :
    (isAlphanumeric c || c == '_') = true :=
  forall_isNameCharacter (p := fun c ↦ isAlphanumeric c || c == '_') (by decide +kernel) h

variable {w : Text} {a : Access} {m : Modifiers}

theorem mem_of_isDottedFrom {fresh : Bool} (h : isDottedFrom fresh w = true) (hc : c ∈ w) :
    c = '.' ∨ isNameCharacter c = true := by
  induction w generalizing fresh with
  | nil => simp at hc
  | cons d w ih =>
    rw [isDottedFrom] at h
    split at h
    · rename_i hd
      rw [Bool.and_eq_true] at h
      rcases List.mem_cons.mp hc with rfl | hc
      · exact .inl hd
      · exact ih h.2 hc
    · rw [Bool.and_eq_true, Bool.and_eq_true] at h
      rcases List.mem_cons.mp hc with rfl | hc
      · exact .inr h.1.1
      · exact ih h.2 hc

theorem isWord_of_isDotted (h : isDotted w = true) : IsWord w := by
  refine ⟨fun hw ↦ by simp [hw, isDotted, isDottedFrom] at h, fun c hc ↦ ?_⟩
  rcases mem_of_isDottedFrom h hc with rfl | hc
  · decide
  · exact endsWord_of_isNameCharacter hc

theorem isDeclarationWord_of_isKeyword (h : isKeyword w = false) :
    isDeclarationWord w = false := by
  simp only [isKeyword, Bool.or_eq_false_iff] at h
  exact h.1.1.1

theorem ne_operator_of_isKeyword (h : isKeyword w = false) : w ≠ "operator".toList := by
  simp only [isKeyword, Bool.or_eq_false_iff, beq_eq_false_iff_ne] at h
  exact h.2

/-! ## Keywords -/

def leadingWords (a : Access) (m : Modifiers) : List Text := a.words ++ m.words

theorem forall_mem_leadingWords {p : Text → Prop} (haccess : ∀ w ∈ Access.vocabulary, p w)
    (hmodifier : ∀ k : Modifier, p k.keyword) : ∀ w ∈ leadingWords a m, p w := by
  intro w hw
  rcases List.mem_append.mp hw with hw | hw
  · have hsub : ∀ v ∈ a.words, v ∈ Access.vocabulary := by cases a <;> decide
    exact haccess w (hsub w hw)
  · obtain ⟨k, -, rfl⟩ := List.mem_map.mp hw
    exact hmodifier k

theorem isLeadingWord_of_mem_leadingWords : ∀ w ∈ leadingWords a m, isLeadingWord w = true :=
  forall_mem_leadingWords (fun w hw ↦ by simp [isLeadingWord, isAccessWord, hw]) fun k ↦ by
    simp [isLeadingWord, isModifierWord, Modifier.ofKeyword?_keyword]

theorem isDeclarationWord_of_isLeadingWord (h : isLeadingWord w = true) :
    isDeclarationWord w = true := by
  simp [isDeclarationWord, h]

theorem isNameCharacter_of_isDeclarationWord (h : isDeclarationWord w = true) :
    w ≠ [] ∧ ∀ c ∈ w, isNameCharacter c = true := by
  have hall := forall_isDeclarationWord
    (p := fun w ↦ (!w.isEmpty && w.all isNameCharacter) = true) h (by decide +kernel)
    (fun k ↦ by cases k <;> decide +kernel) (by decide +kernel)
    (fun k ↦ by cases k <;> decide +kernel) (by decide +kernel)
  simpa using hall

theorem isWord_of_isDeclarationWord (h : isDeclarationWord w = true) : IsWord w :=
  ⟨(isNameCharacter_of_isDeclarationWord h).1, fun c hc ↦
    endsWord_of_isNameCharacter ((isNameCharacter_of_isDeclarationWord h).2 c hc)⟩

theorem isWord_of_isLeadingWord (h : isLeadingWord w = true) : IsWord w :=
  isWord_of_isDeclarationWord (isDeclarationWord_of_isLeadingWord h)

theorem isMild_of_isLeadingWord (h : isLeadingWord w = true) : ∀ c ∈ w, isMild c = true :=
  fun c hc ↦ isMild_of_isNameCharacter
    ((isNameCharacter_of_isDeclarationWord (isDeclarationWord_of_isLeadingWord h)).2 c hc)

theorem isWord_of_mem_leadingWords : ∀ w ∈ leadingWords a m, IsWord w :=
  fun w hw ↦ isWord_of_isLeadingWord (isLeadingWord_of_mem_leadingWords w hw)

namespace Signature

def closingWords (s : Signature) : List Text :=
  [flagText "async" s.isAsync, flagText "volatile" s.isVolatile, flagText "fixed" s.isFixed,
    s.kind.keyword].filter fun w ↦ !w.isEmpty

def keywords (s : Signature) : List Text := leadingWords s.access s.modifiers ++ s.closingWords

/-- What the keywords of a signature say about it. -/
def bare (s : Signature) : Signature :=
  { s with name := [], returnType := none, operator := none }

variable {s : Signature}

variable {words : List Text} {s : Signature} {type name : Text}

theorem mem_closingWords_iff : w ∈ s.closingWords ↔
    (w = "async".toList ∧ s.isAsync = true) ∨ (w = "volatile".toList ∧ s.isVolatile = true) ∨
      (w = "fixed".toList ∧ s.isFixed = true) ∨ (w = s.kind.keyword ∧ s.kind ≠ .member) := by
  have hflag (word : String) (hword : word.toList ≠ []) (isSet : Bool) :
      w = flagText word isSet ∧ w ≠ [] ↔ w = word.toList ∧ isSet = true := by
    cases isSet with
    | false => simp [flagText]
    | true =>
      simp only [flagText, if_true, and_true, and_iff_left_iff_imp]
      rintro rfl
      exact hword
  have hkind : w = s.kind.keyword ∧ w ≠ [] ↔ w = s.kind.keyword ∧ s.kind ≠ .member :=
    and_congr_right fun hw ↦ by rw [hw, Ne, SignatureKind.keyword_eq_nil_iff]
  simp only [closingWords, List.mem_filter, List.mem_cons, List.not_mem_nil, or_false,
    Bool.not_eq_true', List.isEmpty_eq_false_iff, or_and_right, hflag "async" (by decide),
    hflag "volatile" (by decide), hflag "fixed" (by decide), hkind]

theorem filterMap_closingWords (s : Signature) :
    s.closingWords.filterMap SignatureKind.ofKeyword? = s.kind.declared := by
  rw [closingWords]
  cases s.isAsync <;> cases s.isVolatile <;> cases s.isFixed <;> cases s.kind with
  | member => rfl
  | type k => cases k <;> rfl
  | event => rfl
  | delegate => rfl

theorem forall_mem_closingWords {p : Text → Prop}
    (hflag : ∀ v ∈ ["async".toList, "volatile".toList, "fixed".toList], p v)
    (htype : ∀ k : TypeKind, p k.keyword)
    (hkind : ∀ v ∈ ["event".toList, "delegate".toList], p v) : ∀ w ∈ s.closingWords, p w := by
  intro w hw
  rcases mem_closingWords_iff.mp hw with ⟨rfl, -⟩ | ⟨rfl, -⟩ | ⟨rfl, -⟩ | ⟨rfl, hmember⟩
  · exact hflag _ (by simp)
  · exact hflag _ (by simp)
  · exact hflag _ (by simp)
  · cases hk : s.kind with
    | member => exact absurd hk hmember
    | type k => exact htype k
    | event => exact hkind "event".toList (by simp)
    | delegate => exact hkind "delegate".toList (by simp)

theorem isDeclarationWord_of_mem_keywords : ∀ w ∈ s.keywords, isDeclarationWord w = true :=
  List.forall_mem_append.mpr
    ⟨fun w hw ↦ isDeclarationWord_of_isLeadingWord (isLeadingWord_of_mem_leadingWords w hw),
    forall_mem_closingWords (by decide) (fun k ↦ by cases k <;> decide) (by decide)⟩

theorem filter_isAccessWord_keywords (s : Signature) :
    s.keywords.filter isAccessWord = s.access.words := by
  have haccess : s.access.words.filter isAccessWord = s.access.words := by
    cases s.access <;> decide
  have hmodifiers : s.modifiers.words.filter isAccessWord = [] := by
    refine List.filter_eq_nil_iff.mpr fun w hw ↦ ?_
    obtain ⟨k, -, rfl⟩ := List.mem_map.mp hw
    cases k <;> decide
  have hclosing : s.closingWords.filter isAccessWord = [] :=
    List.filter_eq_nil_iff.mpr (forall_mem_closingWords (by decide)
      (fun k ↦ by cases k <;> decide) (by decide))
  rw [keywords, leadingWords, List.filter_append, List.filter_append, haccess, hmodifiers, hclosing,
    List.append_nil, List.append_nil]

theorem keyword_mem_keywords_iff {m : Modifier} :
    m.keyword ∈ s.keywords ↔ s.modifiers.contains (.single m) = true := by
  have hm : isModifierWord m.keyword = true := by
    rw [isModifierWord, Modifier.ofKeyword?_keyword, Option.isSome_some]
  have haccess : ∀ w ∈ s.access.words, isModifierWord w = false := by cases s.access <;> decide
  have hclosing : ∀ w ∈ s.closingWords, isModifierWord w = false :=
    forall_mem_closingWords (by decide) (fun k ↦ by cases k <;> decide) (by decide)
  have hnot {v : Text} (hv : isModifierWord v = false) : v ≠ m.keyword := by
    rintro rfl
    rw [hm] at hv
    cases hv
  rw [keywords, leadingWords, List.mem_append, List.mem_append,
    or_iff_right fun h ↦ hnot (haccess _ h) rfl, or_iff_left fun h ↦ hnot (hclosing _ h) rfl,
    Modifiers.keyword_mem_words]

theorem flag_mem_keywords_iff (hw : isFlagWord w = true) :
    w ∈ s.keywords ↔ (w = "async".toList ∧ s.isAsync = true) ∨
      (w = "volatile".toList ∧ s.isVolatile = true) ∨ (w = "fixed".toList ∧ s.isFixed = true) := by
  have hleading : ∀ v ∈ leadingWords s.access s.modifiers, isFlagWord v = false :=
    forall_mem_leadingWords (by decide) fun k ↦ by cases k <;> decide
  have hkind : isFlagWord s.kind.keyword = false := by
    cases s.kind with
    | member => rfl
    | type k => cases k <;> decide
    | event => decide
    | delegate => decide
  have hnot {v : Text} (hv : isFlagWord v = false) : v ≠ w := by
    rintro rfl
    rw [hv] at hw
    cases hw
  rw [keywords, List.mem_append, or_iff_right fun h ↦ hnot (hleading w h) rfl,
    mem_closingWords_iff]
  refine or_congr_right (or_congr_right (or_iff_left fun h ↦ hnot hkind h.1.symm))

/-- The written keywords state the signature. -/
theorem isStatedBy_keywords (h : Modifiers.full.contains s.modifiers = true) :
    s.bare.IsStatedBy s.keywords where
  kind := by
    have hleading : (leadingWords s.access s.modifiers).filterMap SignatureKind.ofKeyword? = [] :=
      List.filterMap_eq_nil_iff.mpr
        (forall_mem_leadingWords (by decide) fun k ↦ by cases k <;> decide)
    rw [keywords, List.filterMap_append, hleading, filterMap_closingWords]
    rfl
  full := h
  modifiers _ := keyword_mem_keywords_iff.symm
  isAsync := by
    rw [flag_mem_keywords_iff (by decide)]
    simp [bare]
  isVolatile := by
    rw [flag_mem_keywords_iff (by decide)]
    simp [bare]
  isFixed := by
    rw [flag_mem_keywords_iff (by decide)]
    simp [bare]
  name := rfl
  returnType := rfl
  operator := rfl
  distinct := by
    rw [filter_isAccessWord_keywords]
    cases s.access <;> decide
  access := by
    rw [← Access.resolve?_filter, filter_isAccessWord_keywords]
    exact Access.resolve?_words s.access

/-- The keywords of a type. -/
theorem ofKeywords_leadingWords {k : TypeKind} (hm : Modifiers.full.contains m = true) :
    ofKeywords (leadingWords a m ++ [k.keyword]) =
      .ok { kind := .type k, access := a, modifiers := m } := by
  have hkeywords : keywords { kind := .type k, access := a, modifiers := m } =
      leadingWords a m ++ [k.keyword] := by
    cases k <;> rfl
  rw [← hkeywords]
  exact (ofKeywords_eq_ok_iff_isStatedBy isDeclarationWord_of_mem_keywords).mpr
    (isStatedBy_keywords (s := { kind := .type k, access := a, modifiers := m }) hm)

/-! ## Types and names -/

/-- A word of letters, digits and underscores is no operator. -/
theorem gluedOperator?_eq_none (h : ∀ c ∈ w, (isAlphanumeric c || c == '_') = true) :
    gluedOperator? w = none := by
  rw [gluedOperator?]
  cases hprefix : "operator".toList.isPrefixOf? w with
  | none => rfl
  | some symbol =>
    have hw : "operator".toList ++ symbol = w := List.append_eq_of_isPrefixOf?_eq_some hprefix
    cases symbol with
    | nil => rfl
    | cons c cs =>
      have hc := h c (by simp [← hw])
      have hsymbol : isOperatorSymbol (c :: cs) = false := by
        simp only [Bool.or_eq_true, beq_iff_eq] at hc
        rcases hc with hc | hc <;> simp [isOperatorSymbol, hc]
      simp [hsymbol]

theorem afterLastSpace_of_isWord (h : IsWord w) : afterLastSpace w = w := by
  have hspace : ∀ c ∈ w.reverse, (c != ' ') = true := fun c hc ↦ by
    have hblank := h.isBlank_eq_false (List.mem_reverse.mp hc)
    rw [bne_iff_ne]
    rintro rfl
    exact absurd hblank (by decide)
  rw [afterLastSpace, List.takeWhile_eq_self_iff.mpr hspace, List.reverse_reverse]

/-- A type and a name are left behind the keywords. -/
theorem completed_pair (hoperator : type ≠ "operator".toList)
    (hmisnamed : isTypeMisnamed type = false) (hglued : gluedOperator? type = none)
    (hname : gluedOperator? name = none) :
    completed words s [type, name] =
      .ok { s with name := name, returnType := some type, operator := none } := by
  have hoperators : separateOperators [type, name] = [type, name] := by
    simp [separateOperators, hglued, hname]
  have hdeclarator : declarator [name, type] = .ok ⟨name, some type, none, []⟩ := by
    rw [declarator, if_pos hoperator]
  rw [completed, hoperators, List.reverse_cons, List.reverse_singleton, List.singleton_append,
    hdeclarator]
  simp [bind, Except.bind, qualifiedType, hmisnamed]

theorem completed_singleton (hname : gluedOperator? name = none) :
    completed words s [name] =
      .ok { s with name := name, returnType := none, operator := none } := by
  have hoperators : separateOperators [name] = [name] := by
    simp [separateOperators, hname]
  rw [completed, hoperators, List.reverse_singleton]
  rfl

/-- Where a type and a name are left behind the keywords, the words can be sorted. -/
theorem ofWords_of_strip (hstrip : strip words = .ok (s, [type, name])) (htype : IsWord type)
    (hkeyword : isKeyword type = false) (hglued : gluedOperator? type = none)
    (hname : gluedOperator? name = none) :
    ofWords words = .ok { s with name := name, returnType := some type, operator := none } := by
  have hoperator := ne_operator_of_isKeyword hkeyword
  have hmisnamed : isTypeMisnamed type = false := by
    rw [isTypeMisnamed, afterLastSpace_of_isWord htype, isDeclarationWord_of_isKeyword hkeyword]
    simpa using hoperator
  exact ofWords_eq_ok_iff.mpr ⟨_, hstrip, completed_pair hoperator hmisnamed hglued hname⟩

end Signature

/-! ## Written signatures -/

/-- Access, modifiers and further words, of which empty ones are left out. -/
theorem joinWords_leadingWords (a : Access) (m : Modifiers) {ws : List Text}
    (h : ∀ w ∈ ws, Text.trim w = w) :
    Text.joinWords (a.text :: m.text :: ws) =
      Text.join [' '] (leadingWords a m ++ ws.filter fun w ↦ !w.isEmpty) := by
  have hwords : ∀ vs ∈ a.words :: m.words :: ws.map fun w ↦ [w].filter fun v ↦ !v.isEmpty,
      ∀ w ∈ vs, w ≠ [] ∧ Text.trim w = w := by
    have hleading : ∀ w ∈ leadingWords a m, w ≠ [] ∧ Text.trim w = w := fun w hw ↦
      (isWord_of_mem_leadingWords w hw).trimmed
    simp only [leadingWords, List.mem_append] at hleading
    simp only [List.mem_cons, forall_eq_or_imp, List.forall_mem_map]
    refine ⟨fun w hw ↦ hleading w (.inl hw), fun w hw ↦ hleading w (.inr hw), fun w hw v hv ↦ ?_⟩
    obtain ⟨hv, hne⟩ := List.mem_filter.mp hv
    obtain rfl := List.mem_singleton.mp hv
    exact ⟨by simpa using hne, h v hw⟩
  have hjoin : (ws.map fun w ↦ [w].filter fun v ↦ !v.isEmpty).map (Text.join [' ']) = ws := by
    rw [List.map_map]
    refine (List.map_congr_left fun w _ ↦ ?_).trans (List.map_id ws)
    cases w <;> simp [Text.join, List.intercalate]
  have hflatten : (ws.map fun w ↦ [w].filter fun v ↦ !v.isEmpty).flatten =
      ws.filter fun w ↦ !w.isEmpty := by
    rw [← List.flatMap_def, ← List.filter_flatMap, List.flatMap_singleton']
  have hall := joinWords_map_join hwords
  rw [List.map_cons, List.map_cons, hjoin, List.flatten_cons, List.flatten_cons, hflatten,
    ← List.append_assoc] at hall
  exact hall

theorem TypeDeclaration.signature_eq (t : TypeDeclaration) (name : Text) : t.signature name =
    spaced (leadingWords t.access t.modifiers ++ [t.kind.keyword]) ++
      (name ++ typeParameterList t.typeParameters ++
        (baseList t.bases ++ constraintClauses t.typeParameters)) := by
  have hk : IsWord t.kind.keyword := by cases t.kind <;> decide
  have hjoin : Text.joinWords [t.access.text, t.modifiers.text, t.kind.keyword] =
      spaced (leadingWords t.access t.modifiers) ++ t.kind.keyword := by
    rw [joinWords_leadingWords _ _ (List.forall_mem_singleton.mpr (trim_of_isWord hk)),
      List.filter_cons_of_pos (by simpa using hk.1), List.filter_nil, join_append_singleton]
  rw [signature, hjoin]
  simp

/-- A field of which only access, modifiers, type and the comment behind it are known. -/
def plainField (a : Access) (m : Modifiers) (type : Text) (comment : Option Comment) : Field :=
  { access := a, modifiers := m, type := type, initialValue := none, isVolatile := false
    isFixed := false, fixedSize := none, trailingComment := comment }

end SharpOutline
