import SharpOutline.Proofs.Block.Constraints
import SharpOutline.Proofs.Block.Declarations
import SharpOutline.Proofs.Block.TypeNames

/-!
# Headers of types

The type parameters of a type stand behind its name, and its base types and the constraints of its
parameters behind these. Everything there is a row of words, some of which are names of types
(`headerWords`). The row is cut into its words again and sorted by the words with which constraints
start; then each list is cut at its commas, and each clause finds its parameter by name.
-/

namespace SharpOutline

open Scanner Text

/-! ## Regular types -/

/-- A constraint that need not be the last one. -/
def IsConstraint (c : Text) : Prop := IsTypeName c ∨ c = "class".toList ∨ c = "struct".toList

/-- An identifier as the name, with a variance keyword or without, and constraints, the last of
which may be that of a constructor. -/
structure TypeParameter.IsRegular (p : TypeParameter) : Prop where
  name : ∃ variance bare : Text, variance ∈ [[], "in ".toList, "out ".toList] ∧
    isTypeIdentifier bare = true ∧ p.name = variance ++ bare
  constraints : ∃ cs : List Text, (∀ c ∈ cs, IsConstraint c) ∧
    (p.constraints = cs ∨ p.constraints = cs ++ ["new()".toList])

/-- A type whose base types are given by their names and whose type parameters are told apart by
theirs. -/
structure TypeDeclaration.HasRegularHeader (t : TypeDeclaration) : Prop where
  modifiers : Modifiers.full.contains t.modifiers = true
  bases : ∀ b ∈ t.bases, IsTypeName b.name ∧ b.kind = .unknown
  parameters : ∀ p ∈ t.typeParameters, p.IsRegular
  distinct : (t.typeParameters.map TypeParameter.bareName?).Nodup

/-- A type with a regular header and a block for its members. -/
structure TypeDeclaration.IsRegular (t : TypeDeclaration) : Prop extends t.HasRegularHeader where
  kind : t.kind ≠ .enumType

/-! ## Words of a header -/

/-- A text that may be a word of a header. -/
structure IsHeaderWord (w : Text) : Prop where
  kept : IsKept w
  trim_eq : trim w = w
  calm : ∀ c ∈ w, isCalm c = true

/-- A text that may be an item of a list in a header. -/
structure IsHeaderItem (w : Text) : Prop extends IsHeaderWord w where
  clean : Text.IsClean w
  ne_where : w ≠ "where".toList

variable {w : Text} {parts : List Text}

theorem isHeaderWord_of_isWord (h : IsWord w) (hmild : ∀ c ∈ w, isMild c = true) :
    IsHeaderWord w where
  kept := h.isToken.isKept
  trim_eq := trim_of_isWord h
  calm c hc := isCalm_of_isMild (hmild c hc)

theorem IsTypeName.isHeaderItem (h : IsTypeName w) : IsHeaderItem w where
  kept := h.isKept
  clean := h.isClean
  trim_eq := h.trim_eq
  ne_where := h.ne_where
  calm := h.forall_mem (fun _ hc ↦ isCalm_of_isMild (isMild_of_isIdentifierCharacter hc).1)
    (List.all_eq_true.mp (by decide))

theorem isHeaderItem_of_isWord (h : IsWord w) (hmild : ∀ c ∈ w, isMild c = true)
    (hwhere : w ≠ "where".toList) : IsHeaderItem w where
  toIsHeaderWord := isHeaderWord_of_isWord h hmild
  clean := isClean_of_isBland fun c hc ↦ isBland_of_isMild (hmild c hc)
  ne_where := hwhere

theorem IsConstraint.isHeaderItem (h : IsConstraint w) : IsHeaderItem w := by
  rcases h with h | rfl | rfl
  · exact h.isHeaderItem
  · exact isHeaderItem_of_isWord (by decide) (List.all_eq_true.mp (by decide)) (by decide)
  · exact isHeaderItem_of_isWord (by decide) (List.all_eq_true.mp (by decide)) (by decide)

theorem isHeaderItem_new : IsHeaderItem "new()".toList where
  kept := by
    have hword : IsWord "new".toList := by decide
    have hbrackets : Solid 0 "()".toList :=
      solid_bracketed (by decide) (by decide) (fun _ ↦ rfl) (fun _ ↦ rfl) solid_nil
    exact ⟨by decide, by decide, fun found v t ↦
      (solid_of_endsWord hword.2).append hbrackets found v 0 t (Nat.le_refl 0)⟩
  clean := by decide +kernel
  trim_eq := by decide
  ne_where := by decide
  calm := List.all_eq_true.mp (by decide)

/-- The words of a list: all items but the last one are followed by a comma. -/
def listWords (parts : List Text) : List Text :=
  parts.dropLast.map (· ++ [',']) ++ parts.getLast?.toList

theorem listWords_concat (ws : List Text) (w : Text) :
    listWords (ws ++ [w]) = ws.map (· ++ [',']) ++ [w] := by
  simp [listWords]

theorem join_cons_listWords (w : Text) (h : parts ≠ []) :
    join [' '] (w :: listWords parts) = w ++ ' ' :: join partSeparator parts := by
  obtain ⟨ws, v, rfl⟩ : ∃ ws v, parts = ws ++ [v] := ⟨_, _, (List.dropLast_append_getLast h).symm⟩
  rw [listWords_concat, ← List.cons_append, join_append_singleton, spaced_cons,
    join_partSeparator_concat, List.append_assoc, List.cons_append]

theorem IsHeaderItem.isHeaderWord_comma (h : IsHeaderItem w) :
    IsHeaderWord (w ++ [',']) where
  kept := by
    refine ⟨by simp, ?_, fun found v t ↦ ?_⟩
    · rw [List.head?_append_of_ne_nil _ h.kept.ne_nil]
      exact h.kept.head?_ne
    · have hcomma : isBlank ',' = false := by decide
      rw [List.append_assoc, h.kept.pass, List.singleton_append, phraseWordsFrom, hcomma,
        Bool.false_and, if_neg Bool.false_ne_true, List.append_assoc]
      rfl
  trim_eq := by
    refine trim_eq_self (fun c hc ↦ ?_) fun c hc ↦ ?_
    · rw [List.head?_append_of_ne_nil _ h.kept.ne_nil] at hc
      exact isBlank_head?_of_trim_eq_self h.trim_eq c hc
    · rw [List.getLast?_concat] at hc
      cases hc
      decide
  calm := List.forall_mem_append.mpr ⟨h.calm, List.forall_mem_singleton.mpr (by decide)⟩

theorem forall_mem_listWords {p : Text → Prop} (hcomma : ∀ w ∈ parts, p (w ++ [',']))
    (hlast : ∀ w ∈ parts, p w) :
    ∀ w ∈ listWords parts, p w := by
  intro w hw
  rcases List.mem_append.mp hw with hw | hw
  · obtain ⟨v, hv, rfl⟩ := List.mem_map.mp hw
    exact hcomma v (List.mem_of_mem_dropLast hv)
  · exact hlast w (List.mem_of_getLast? (by simpa using hw))

theorem ne_where_of_mem_listWords (h : ∀ w ∈ parts, IsHeaderItem w) :
    ∀ w ∈ listWords parts, w ≠ "where".toList := by
  refine forall_mem_listWords (fun w _ heq ↦ ?_) fun w hw ↦ (h w hw).ne_where
  have hcomma : ',' ∈ w ++ [','] := by simp
  rw [heq] at hcomma
  exact absurd hcomma (by decide)

def baseWords (bases : List TypeReference) : List Text :=
  if bases.isEmpty then [] else [':'] :: listWords (bases.map TypeReference.name)

/-- The name of a type parameter in its clause. -/
def TypeParameter.calledName (p : TypeParameter) : Text := p.bareName?.getD p.name

def clauseWords (p : TypeParameter) : List Text :=
  if p.constraints.isEmpty then []
  else "where".toList :: p.calledName :: [':'] :: listWords p.constraints

/-- All words between the name of a type, with its parameters, and its members. -/
def headerWords (t : TypeDeclaration) : List Text :=
  baseWords t.bases ++ t.typeParameters.flatMap clauseWords

theorem flatMap_space_eq {ws : List Text} (h : ws ≠ []) :
    ws.flatMap (' ' :: ·) = ' ' :: join [' '] ws := by
  induction ws with
  | nil => exact absurd rfl h
  | cons w ws ih =>
    cases ws with
    | nil => simp [join_singleton]
    | cons v ws =>
      rw [List.flatMap_cons, ih (by simp), join_cons_cons]
      simp

theorem baseList_eq (bases : List TypeReference) :
    baseList bases = (baseWords bases).flatMap (' ' :: ·) := by
  rw [baseList, baseWords]
  split
  · rfl
  · rename_i hne
    rw [flatMap_space_eq (by simp), join_cons_listWords _ (by simpa using hne)]
    rfl

theorem constraintClause_eq (p : TypeParameter) :
    constraintClause p = (clauseWords p).flatMap (' ' :: ·) := by
  rw [constraintClause, clauseWords]
  split
  · rfl
  · rename_i hne
    rw [flatMap_space_eq (by simp), join_cons_cons, join_cons_cons,
      join_cons_listWords _ (by simpa using hne)]
    simp [TypeParameter.calledName, partSeparator]

theorem header_eq (t : TypeDeclaration) : baseList t.bases ++ constraintClauses t.typeParameters =
    (headerWords t).flatMap (' ' :: ·) := by
  rw [headerWords, List.flatMap_append, baseList_eq, constraintClauses, List.flatMap_assoc]
  congr 2
  funext p
  exact constraintClause_eq p

/-! ## Type parameters -/

theorem exists_spaced_of_variance {variance : Text}
    (h : variance ∈ [[], "in ".toList, "out ".toList]) : ∃ vs, (∀ v ∈ vs, IsWord v) ∧
      (∀ c ∈ spaced vs, isMild c = true) ∧ variance = spaced vs := by
  simp only [List.mem_cons, List.not_mem_nil, or_false] at h
  rcases h with rfl | rfl | rfl
  · exact ⟨[], by simp, by simp [spaced], rfl⟩
  · exact ⟨["in".toList], List.forall_mem_singleton.mpr (by decide),
      List.all_eq_true.mp (by decide), rfl⟩
  · exact ⟨["out".toList], List.forall_mem_singleton.mpr (by decide),
      List.all_eq_true.mp (by decide), rfl⟩

namespace TypeParameter.IsRegular

variable {p : TypeParameter}

theorem exists_bareName? (h : p.IsRegular) : ∃ vs bare, (∀ v ∈ vs, IsWord v) ∧
    (∀ c ∈ spaced vs, isMild c = true) ∧ isTypeIdentifier bare = true ∧
      p.name = spaced vs ++ bare ∧ p.bareName? = some bare := by
  obtain ⟨variance, bare, hvariance, hbare, hname⟩ := h.name
  obtain ⟨vs, hvs, hmild, rfl⟩ := exists_spaced_of_variance hvariance
  refine ⟨vs, bare, hvs, hmild, hbare, hname, ?_⟩
  have hword := isWord_of_isIdentifier (isIdentifier_of_isTypeIdentifier hbare).1
  rw [bareName?, hname, words_spaced_append (fun v hv ↦ (hvs v hv).isToken) hword.isToken,
    List.getLast?_concat]

theorem isTypeIdentifier_calledName (h : p.IsRegular) :
    p.bareName? = some p.calledName ∧ isTypeIdentifier p.calledName = true := by
  obtain ⟨-, bare, -, -, hbare, -, hcalled⟩ := h.exists_bareName?
  rw [calledName, hcalled]
  exact ⟨rfl, hbare⟩

theorem isMild_of_mem_name (h : p.IsRegular) : ∀ c ∈ p.name, isMild c = true := by
  obtain ⟨vs, bare, -, hmild, hbare, hname, -⟩ := h.exists_bareName?
  rw [hname]
  exact List.forall_mem_append.mpr ⟨hmild, fun c hc ↦
    isMild_of_isIdentifier (isIdentifier_of_isTypeIdentifier hbare).1 hc⟩

theorem trim_name (h : p.IsRegular) : p.name ≠ [] ∧ trim p.name = p.name := by
  obtain ⟨vs, bare, hvs, -, hbare, hname, -⟩ := h.exists_bareName?
  have hword := isWord_of_isIdentifier (isIdentifier_of_isTypeIdentifier hbare).1
  rw [hname]
  exact ⟨by simp [hword.1], trim_spaced_append hvs hword⟩

theorem isPart_name (h : p.IsRegular) : Text.IsPart p.name :=
  (isClean_of_isBland fun c hc ↦ isBland_of_isMild (h.isMild_of_mem_name c hc)).isPart
    h.trim_name.2

theorem isHeaderItem_of_mem (h : p.IsRegular) : ∀ c ∈ p.constraints, IsHeaderItem c := by
  obtain ⟨cs, hcs, heq | heq⟩ := h.constraints
  · rw [heq]
    exact fun c hc ↦ (hcs c hc).isHeaderItem
  · rw [heq]
    exact List.forall_mem_append.mpr ⟨fun c hc ↦ (hcs c hc).isHeaderItem,
      List.forall_mem_singleton.mpr isHeaderItem_new⟩

theorem constructorLast (h : p.IsRegular) : ConstructorLast p.constraints := by
  have hplain {c : Text} (hc : IsConstraint c) : squeeze c ≠ "new()".toList := by
    rcases hc with hc | rfl | rfl
    · intro heq
      have hmem : '(' ∈ squeeze c := by
        rw [heq]
        decide
      refine hc.forall_mem (p := fun d ↦ d ≠ '(') (fun d hd ↦ ?_) (by simp) '('
        (List.mem_of_mem_filter hmem) rfl
      exact ne_of_isMild (isMild_of_isIdentifierCharacter hd).1 rfl
    · decide
    · decide
  obtain ⟨cs, hcs, heq | heq⟩ := h.constraints
  · rw [heq]
    exact fun c hc ↦ hplain (hcs c (List.mem_of_mem_dropLast hc))
  · rw [heq, ConstructorLast, List.dropLast_concat]
    exact fun c hc ↦ hplain (hcs c hc)

end TypeParameter.IsRegular

/-! ## Clauses -/

section Clauses

variable {p : TypeParameter} {ps done : List TypeParameter} {ws rest clauses : List Text}
  {clause : Text}

variable {later : List TypeParameter}

/-- Words behind those of an unfinished clause. -/
theorem clausesFrom_append (hclause : clause ≠ []) (hws : ∀ w ∈ ws, w ≠ "where".toList) :
    clausesFrom (clauses ++ [clause]) (ws ++ rest) =
      clausesFrom (clauses ++ [clause ++ ws.flatMap (' ' :: ·)]) rest := by
  induction ws generalizing clause with
  | nil => simp
  | cons w ws ih =>
    obtain ⟨c, cs, rfl⟩ := List.exists_cons_of_ne_nil hclause
    rw [List.cons_append, clausesFrom, if_neg (hws w (by simp)), List.getLast?_concat,
      List.dropLast_concat]
    dsimp only
    rw [ih (by simp) fun x hx ↦ hws x (by simp [hx])]
    simp

/-- The words of a clause are joined again. -/
theorem clausesFrom_where (hne : ws ≠ []) (hnil : ∀ w ∈ ws, w ≠ [])
    (hws : ∀ w ∈ ws, w ≠ "where".toList) :
    clausesFrom clauses ("where".toList :: (ws ++ rest)) =
      clausesFrom (clauses ++ [join [' '] ws]) rest := by
  obtain ⟨w, ws, rfl⟩ := List.exists_cons_of_ne_nil hne
  rw [clausesFrom, if_pos rfl, List.cons_append, clausesFrom, if_neg (hws w (by simp)),
    List.getLast?_concat, List.dropLast_concat]
  dsimp only
  rw [clausesFrom_append (hnil w (by simp)) fun x hx ↦ hws x (by simp [hx])]
  congr 3
  cases ws with
  | nil => simp [join_singleton]
  | cons v ws => rw [flatMap_space_eq (by simp), join_cons_cons, List.singleton_append]

/-- The clause of a type parameter, if it has constraints. -/
def clauseTexts (p : TypeParameter) : List Text :=
  if p.constraints.isEmpty then []
  else [join [' '] (p.calledName :: [':'] :: listWords p.constraints)]

theorem clausesFrom_flatMap (h : ∀ p ∈ ps, p.IsRegular) (clauses : List Text) :
    clausesFrom clauses (ps.flatMap clauseWords) = some (clauses ++ ps.flatMap clauseTexts) := by
  induction ps generalizing clauses with
  | nil => simp [clausesFrom]
  | cons p ps ih =>
    have hp := h p (by simp)
    have ih := ih fun q hq ↦ h q (by simp [hq])
    rw [List.flatMap_cons, List.flatMap_cons, clauseWords, clauseTexts]
    split
    · exact ih clauses
    · have hcalled := isIdentifier_of_isTypeIdentifier hp.isTypeIdentifier_calledName.2
      have hitems := hp.isHeaderItem_of_mem
      rw [List.cons_append, clausesFrom_where (by simp) ?_ ?_, ih, List.append_assoc]
      · simp only [List.mem_cons, forall_eq_or_imp]
        refine ⟨(isWord_of_isIdentifier hcalled.1).1, by simp, ?_⟩
        exact forall_mem_listWords (by simp) fun c hc ↦ (hitems c hc).kept.ne_nil
      · simp only [List.mem_cons, forall_eq_or_imp]
        exact ⟨hcalled.2, by decide, ne_where_of_mem_listWords hitems⟩

theorem constrainNamed_eq {name : Text} {q q' : TypeParameter} {cs : List Text}
    (hdone : ∀ p ∈ done, p.bareName? ≠ some name) (hname : q.bareName? = some name)
    (hq : constrain name q cs = .ok q') :
    constrainNamed clause name cs (done ++ q :: later) = .ok (done ++ q' :: later) := by
  induction done with
  | nil =>
    rw [List.nil_append, constrainNamed, if_pos hname, hq]
    rfl
  | cons p done ih =>
    rw [List.cons_append, constrainNamed, if_neg (hdone p (by simp)),
      ih fun x hx ↦ hdone x (by simp [hx])]
    rfl

theorem listParts_space_join {parts : List Text} (hne : parts ≠ [])
    (h : ∀ w ∈ parts, IsHeaderItem w) :
    listParts (' ' :: join partSeparator parts) = parts := by
  have hfresh : (PartScan.after {} [' ']).Fresh :=
    (PartScan.fresh_start.isClear.step_break (.inr (.inl rfl))).2
  have hspace : listPartsFrom {} [] ([' '] ++ join partSeparator parts) =
      listPartsFrom (PartScan.after {} [' ']) ([] ++ [' ']) (join partSeparator parts) :=
    listPartsFrom_append (apart_of_blank isBlank_of_mem_space) (by decide)
  rw [listParts, ← List.singleton_append, hspace, List.nil_append,
    listPartsFrom_join hfresh hne (fun w hw ↦ (h w hw).clean.isPart (h w hw).trim_eq)
      isBlank_of_mem_space]

/-- The parameter as it is before its constraints are read. -/
def TypeParameter.unconstrained (p : TypeParameter) : TypeParameter := { name := p.name }

theorem applyClause_eq (hp : p.IsRegular) (hne : p.constraints ≠ [])
    (hdone : ∀ q ∈ done, q.bareName? ≠ p.bareName?) :
    applyClause (done ++ p.unconstrained :: later)
        (join [' '] (p.calledName :: [':'] :: listWords p.constraints)) =
      .ok (done ++ p :: later) := by
  obtain ⟨hbare, hcalled⟩ := hp.isTypeIdentifier_calledName
  have hword := isWord_of_isIdentifier (isIdentifier_of_isTypeIdentifier hcalled).1
  have hcolon : ':' ∉ p.calledName ++ [' '] := by
    simp only [List.mem_append, List.mem_singleton, not_or]
    exact ⟨fun hmem ↦ absurd (hword.2 ':' hmem) (by decide), by decide⟩
  have hclause : join [' '] (p.calledName :: [':'] :: listWords p.constraints) =
      p.calledName ++ [' '] ++ ':' :: ' ' :: join partSeparator p.constraints := by
    rw [join_cons_cons, join_cons_listWords _ hne]
    simp
  have hadded : constrain p.calledName p.unconstrained p.constraints = .ok p := by
    refine constrain_eq_ok_iff.mpr ⟨fun c hc ↦ (hp.isHeaderItem_of_mem c hc).kept.ne_nil, ?_⟩
    exact (TypeParameter.addConstraints_eq_ok_iff constructorLast_nil).mpr ⟨hp.constructorLast, rfl⟩
  rw [applyClause, hclause, splitOnce_append hcolon]
  dsimp only
  rw [trim_append_singleton (by decide), trim_of_isWord hword,
    listParts_space_join hne hp.isHeaderItem_of_mem]
  exact constrainNamed_eq (fun q hq ↦ hbare ▸ hdone q hq) hbare hadded

/-- All clauses together give the parameters their constraints. -/
theorem applyClauses_flatMap (done : List TypeParameter) (h : ∀ p ∈ ps, p.IsRegular)
    (hdistinct : ((done ++ ps).map TypeParameter.bareName?).Nodup) :
    applyClauses (done ++ ps.map TypeParameter.unconstrained) (ps.flatMap clauseTexts) =
      .ok (done ++ ps) := by
  induction ps generalizing done with
  | nil => simp [applyClauses]
  | cons p ps ih =>
    have hlater := ih (done ++ [p]) (fun q hq ↦ h q (by simp [hq])) (by simpa using hdistinct)
    simp only [List.append_assoc, List.singleton_append] at hlater
    rw [List.map_cons, List.flatMap_cons, clauseTexts]
    split
    · rename_i hnone
      have hsame : p.unconstrained = p := by
        obtain ⟨name, constraints⟩ := p
        obtain rfl : constraints = [] := by simpa using hnone
        rfl
      rw [hsame]
      exact hlater
    · rename_i hsome
      have hdone : ∀ q ∈ done, q.bareName? ≠ p.bareName? := by
        rw [List.map_append, List.map_cons] at hdistinct
        intro q hq
        exact (List.nodup_append.mp hdistinct).2.2 _ (List.mem_map_of_mem hq) _ (by simp)
      rw [List.singleton_append, applyClauses, applyClause_eq (h p (by simp)) (by simpa using hsome)
        hdone]
      exact hlater

end Clauses

/-! ## Headers -/

section Header

variable {t : TypeDeclaration} {ps : List TypeParameter} {ws : List Text}

variable {bases : List TypeReference}

theorem isHeaderWord_colon : IsHeaderWord [':'] where
  kept := IsToken.isKept ⟨by simp, List.forall_mem_singleton.mpr ⟨by decide, by decide⟩⟩
  trim_eq := by decide
  calm := List.forall_mem_singleton.mpr (by decide)

theorem isHeaderWord_of_mem_listWords {parts : List Text} (h : ∀ w ∈ parts, IsHeaderItem w) :
    ∀ w ∈ listWords parts, IsHeaderWord w :=
  forall_mem_listWords (fun w hw ↦ (h w hw).isHeaderWord_comma) fun w hw ↦
    (h w hw).toIsHeaderWord

theorem isHeaderWord_of_mem_clauseWords (h : ∀ p ∈ ps, p.IsRegular) :
    ∀ w ∈ ps.flatMap clauseWords, IsHeaderWord w := by
  intro w hw
  obtain ⟨p, hp, hw⟩ := List.mem_flatMap.mp hw
  have hp := h p hp
  have hcalled := (isIdentifier_of_isTypeIdentifier hp.isTypeIdentifier_calledName.2).1
  rw [clauseWords] at hw
  split at hw
  · cases hw
  · simp only [List.mem_cons] at hw
    rcases hw with rfl | rfl | rfl | hw
    · exact isHeaderWord_of_isWord (by decide) (List.all_eq_true.mp (by decide))
    · exact isHeaderWord_of_isWord (isWord_of_isIdentifier hcalled)
        fun c hc ↦ isMild_of_isIdentifier hcalled hc
    · exact isHeaderWord_colon
    · exact isHeaderWord_of_mem_listWords hp.isHeaderItem_of_mem w hw

theorem isHeaderWord_of_mem_headerWords (h : t.HasRegularHeader) :
    ∀ w ∈ headerWords t, IsHeaderWord w := by
  refine List.forall_mem_append.mpr ⟨?_, isHeaderWord_of_mem_clauseWords h.parameters⟩
  rw [baseWords]
  split
  · simp
  · refine List.forall_mem_cons.mpr ⟨isHeaderWord_colon, isHeaderWord_of_mem_listWords ?_⟩
    exact List.forall_mem_map.mpr fun b hb ↦ (h.bases b hb).1.isHeaderItem

/-- The words of a header are found again. -/
theorem phraseWords_join (h : ∀ w ∈ ws, IsHeaderWord w) :
    phraseWords (join [' '] ws) = ws := by
  rcases List.eq_nil_or_concat ws with rfl | ⟨vs, v, rfl⟩
  · rfl
  · rw [List.concat_eq_append] at h ⊢
    rw [join_append_singleton]
    exact phraseWords_spaced_append_kept (fun w hw ↦ (h w (by simp [hw])).kept) (h v (by simp)).kept

theorem applyConstraints_eq (h : ∀ p ∈ ps, p.IsRegular)
    (hdistinct : (ps.map TypeParameter.bareName?).Nodup) :
    applyConstraints (join [' '] (ps.flatMap clauseWords))
      (ps.map TypeParameter.unconstrained) = .ok ps := by
  rw [applyConstraints, phraseWords_join (isHeaderWord_of_mem_clauseWords h),
    clausesFrom_flatMap h]
  exact applyClauses_flatMap [] h hdistinct

theorem baseReferences_eq (h : ∀ b ∈ bases, IsTypeName b.name ∧ b.kind = .unknown) :
    Drafting.baseReferences (bases.map TypeReference.name) = .ok bases := by
  induction bases with
  | nil => rfl
  | cons b bases ih =>
    obtain ⟨hname, hkind⟩ := h b (by simp)
    rw [List.map_cons, Drafting.baseReferences, if_neg (by simpa using hname.ne_nil),
      ih fun x hx ↦ h x (by simp [hx])]
    obtain ⟨name, kind⟩ := b
    obtain rfl : kind = .unknown := hkind
    rfl

theorem basesOf_eq (h : ∀ b ∈ bases, IsTypeName b.name ∧ b.kind = .unknown) :
    Drafting.basesOf (join [' '] (baseWords bases)) = .ok bases := by
  rw [baseWords]
  split
  · rename_i hnone
    rw [List.isEmpty_iff.mp hnone]
    rfl
  · rename_i hsome
    have hne : bases.map TypeReference.name ≠ [] := by simpa using hsome
    rw [join_cons_listWords _ hne, List.singleton_append, Drafting.basesOf,
      listParts_space_join hne (List.forall_mem_map.mpr fun b hb ↦ (h b hb).1.isHeaderItem)]
    exact baseReferences_eq h

/-- Constraints start where the first clause does. -/
theorem head?_flatMap_clauseWords (ps : List TypeParameter) :
    ∀ w ∈ (ps.flatMap clauseWords).head?, w = "where".toList := by
  induction ps with
  | nil => simp
  | cons p ps ih =>
    rw [List.flatMap_cons, clauseWords]
    split
    · exact ih
    · simp

/-- **A header is read back** into the base types and constraints that it was written from. -/
theorem withHeader_eq (h : t.HasRegularHeader) :
    Drafting.withHeader (join [' '] (headerWords t))
      { kind := t.kind, access := t.access, modifiers := t.modifiers
        typeParameters := t.typeParameters.map TypeParameter.unconstrained } =
      .ok { t with bodyText := none } := by
  have hbefore : ∀ w ∈ baseWords t.bases, (w != "where".toList) = true := by
    rw [baseWords]
    split
    · simp
    · refine List.forall_mem_cons.mpr ⟨by decide, fun w hw ↦ bne_iff_ne.mpr ?_⟩
      refine ne_where_of_mem_listWords (List.forall_mem_map.mpr fun b hb ↦ ?_) w hw
      exact (h.bases b hb).1.isHeaderItem
  -- the words before the first clause, and those from there on
  obtain ⟨htake, hdrop⟩ :
      (t.typeParameters.flatMap clauseWords).takeWhile (· != "where".toList) = [] ∧
        (t.typeParameters.flatMap clauseWords).dropWhile (· != "where".toList) =
          t.typeParameters.flatMap clauseWords := by
    have hhead := head?_flatMap_clauseWords t.typeParameters
    cases hwords : t.typeParameters.flatMap clauseWords with
    | nil => exact ⟨rfl, rfl⟩
    | cons w ws =>
      rw [hwords] at hhead
      obtain rfl := hhead w rfl
      exact ⟨rfl, rfl⟩
  have hbases := basesOf_eq h.bases
  have hconstraints := applyConstraints_eq h.parameters h.distinct
  simp only [Drafting.withHeader, phraseWords_join (isHeaderWord_of_mem_headerWords h)]
  rw [headerWords, List.takeWhile_append_of_pos hbefore, List.dropWhile_append_of_pos hbefore,
    htake, hdrop, List.append_nil, hbases]
  simp only [bind, Except.bind, hconstraints]

end Header

/-! ## Names with type parameters -/

section Name

variable {name w rest : Text} {ps : List TypeParameter} {c : Char}

/-- Without brackets, literals and comments a text ends at the first bracket that closes. -/
theorem bracketedFrom_of_isCalm {inside : Text} {opener closer : Char}
    (hinside : ∀ c ∈ inside, isCalm c = true ∧ c ≠ opener ∧ c ≠ closer)
    (hcloser : isCalm closer = true) (hne : closer ≠ opener) (l b : Char) :
    bracketedFrom opener closer (ready [] l b) 0 (inside ++ closer :: rest) = some inside := by
  induction inside generalizing l b with
  | nil =>
    rw [List.nil_append, bracketedFrom, step_of_isCalm hcloser]
    simp [hne]
  | cons d inside ih =>
    obtain ⟨hd, hopen, hclose⟩ := hinside d (by simp)
    rw [List.cons_append, bracketedFrom, step_of_isCalm hd]
    simp [hopen, hclose, ih fun x hx ↦ hinside x (by simp [hx])]

/-- The names of type parameters in their list. -/
def parameterNames (ps : List TypeParameter) : Text :=
  join partSeparator (ps.map TypeParameter.name)

theorem typeParameterList_eq (h : ps ≠ []) :
    typeParameterList ps = '<' :: (parameterNames ps ++ ['>']) := by
  rw [typeParameterList, if_neg (by simpa using h)]
  rfl

theorem trim_parameterNames (h : ∀ p ∈ ps, p.IsRegular) :
    trim (parameterNames ps) = parameterNames ps :=
  trim_join_of_trim (List.forall_mem_map.mpr fun p hp ↦ (h p hp).trim_name)

theorem bracketed_parameterNames (h : ∀ p ∈ ps, p.IsRegular) :
    bracketed '<' '>' (parameterNames ps ++ '>' :: rest) = some (parameterNames ps) := by
  refine bracketedFrom_of_isCalm (fun c hc ↦ ?_) (by decide) (by decide) endMark endMark
  rcases mem_join hc with hc | ⟨w, hw, hc⟩
  · have hseparator : c = ',' ∨ c = ' ' := by simpa [partSeparator] using hc
    rcases hseparator with rfl | rfl <;> decide
  · obtain ⟨p, hp, rfl⟩ := List.mem_map.mp hw
    have hmild := (h p hp).isMild_of_mem_name c hc
    exact ⟨isCalm_of_isMild hmild, ne_of_isMild hmild rfl, ne_of_isMild hmild rfl⟩

theorem wordFrom_typeParameterList {v : Text} (hv : v ≠ []) (h : ∀ p ∈ ps, p.IsRegular)
    (hc : endsWord c = true) (hcolon : c ≠ ':') (hangle : c ≠ '<') :
    Reading.wordFrom true v (typeParameterList ps ++ c :: rest) =
      some (v ++ typeParameterList ps, (typeParameterList ps).length) := by
  by_cases hne : ps = []
  · subst hne
    exact wordFrom_append (w := []) (by simp) hc (fun h ↦ hcolon h.1) hangle
  · have hend (v : Text) : Reading.wordFrom true v (c :: rest) = some (v, 0) := by
      simpa using wordFrom_append (w := []) (by simp) hc (fun h ↦ hcolon h.1) hangle
    rw [typeParameterList_eq hne, List.cons_append, List.append_assoc, List.singleton_append,
      Reading.wordFrom.eq_def]
    dsimp only
    rw [if_neg fun h ↦ absurd h.1 (by decide), if_pos ⟨rfl, rfl, hv⟩, bracketed_parameterNames h]
    dsimp only
    rw [trim_parameterNames h, show (parameterNames ps ++ '>' :: c :: rest).drop
      ((parameterNames ps).length + 1) = c :: rest by simp, hend]
    simp

/-- A name is read together with the list of its type parameters. -/
theorem yields_word_typeParameterList (hname : IsWord name) (h : ∀ p ∈ ps, p.IsRegular)
    (hc : endsWord c = true) (hcolon : c ≠ ':') (hangle : c ≠ '<') :
    (Reading.word true).Yields (' ' :: (name ++ (typeParameterList ps ++ c :: rest)))
      (name ++ typeParameterList ps) (c :: rest) := by
  have hfrom : Reading.wordFrom true [] (name ++ (typeParameterList ps ++ c :: rest)) =
      some (name ++ typeParameterList ps, (typeParameterList ps).length + name.length) := by
    rw [wordFrom_letters hname.2, List.nil_append,
      wordFrom_typeParameterList hname.1 h hc hcolon hangle]
    rfl
  have hyields := yields_word_of_wordFrom (u := [' ']) (by decide) hname hfrom
  rwa [show (name ++ (typeParameterList ps ++ c :: rest)).drop
    ((typeParameterList ps).length + name.length) = c :: rest by
      rw [← List.append_assoc]
      simp [Nat.add_comm]] at hyields

theorem genericName_eq (hname : IsWord name) (h : ∀ p ∈ ps, Text.IsPart p.name) :
    genericName (name ++ typeParameterList ps) = (name, ps.map TypeParameter.name) := by
  by_cases hne : ps = []
  · subst hne
    simpa [typeParameterList] using genericName_of_isWord hname
  · have hsplit : splitOnce '<' (name ++ typeParameterList ps) =
        some (name, parameterNames ps ++ ['>']) := by
      rw [typeParameterList_eq hne]
      exact splitOnce_append (fun hmem ↦ absurd (hname.2 '<' hmem) (by decide)) _
    have hlast : (name ++ typeParameterList ps).getLast? = some '>' := by
      rw [typeParameterList_eq hne, ← List.cons_append, ← List.append_assoc, List.getLast?_concat]
    rw [genericName, hsplit]
    dsimp only
    rw [if_pos hlast, List.dropLast_concat, trim_of_isWord hname]
    exact congrArg (name, ·) (listPartsFrom_join PartScan.fresh_start (by simpa using hne)
      (List.forall_mem_map.mpr h) (by simp))

end Name

/-! ## The line of a type -/

section Opening

open Drafting SharpOutline.Tree Machine

variable {m : RegionMarkers} {fs : List Frame} {t : Tree} {b : Block} {name rest u : Text}
  {d : TypeDeclaration} {c : Char}

variable {x : Char}

theorem trim_header (h : d.HasRegularHeader) (hu : ∀ x ∈ u, isBlank x = true) :
    trim ((headerWords d).flatMap (' ' :: ·) ++ u) = join [' '] (headerWords d) := by
  by_cases hnone : headerWords d = []
  · rw [hnone]
    exact trim_eq_nil_iff.mpr hu
  · have hwords : ∀ w ∈ headerWords d, w ≠ [] ∧ trim w = w := fun w hw ↦
      ⟨(isHeaderWord_of_mem_headerWords h w hw).kept.ne_nil,
        (isHeaderWord_of_mem_headerWords h w hw).trim_eq⟩
    rw [flatMap_space_eq hnone, List.cons_append, trim_cons (by decide), trim,
      trimEnd_append_of_blank hu, ← trim, trim_join_of_trim hwords]

theorem yields_header (h : d.HasRegularHeader) (hu : ∀ x ∈ u, isBlank x = true) :
    Reading.header.Yields ((headerWords d).flatMap (' ' :: ·) ++ u ++ '\x7b' :: rest)
      (join [' '] (headerWords d)) rest := by
  have hcalm : ∀ x ∈ (headerWords d).flatMap (' ' :: ·) ++ u, isCalm x = true := by
    intro x hx
    rcases List.mem_append.mp hx with hx | hx
    · obtain ⟨w, hw, hx⟩ := List.mem_flatMap.mp hx
      rcases List.mem_cons.mp hx with rfl | hx
      · decide
      · exact (isHeaderWord_of_mem_headerWords h w hw).calm x hx
    · exact isCalm_of_isMild (isMild_of_isBlank (hu x hx))
  rw [← trim_header h hu]
  exact yields_header_of_isCalm hcalm

/-- Type parameters end at a blank: the one before the header, or the end of the line. -/
theorem exists_blank_header (hc : isBlank c = true) :
    ∃ x v, (headerWords d).flatMap (' ' :: ·) ++ c :: u = x :: v ∧ isBlank x = true := by
  cases headerWords d with
  | nil => exact ⟨c, u, rfl, hc⟩
  | cons w ws => exact ⟨' ', _, rfl, by decide⟩

/-- The name of a type, its type parameters and its header are read, up to what is done with them.
-/
theorem runs_openType {v : Text} {signal : Signal} {y : Sketch} (hname : IsWord name)
    (hd : d.HasRegularHeader) (hu : ∀ x ∈ u, isBlank x = true)
    (hheader : (headerWords d).flatMap (' ' :: ·) ++ u = x :: v) (hx : isBlank x = true)
    (hnext : Runs (if d.kind = .enumType then do
        let body ← read (Reading.bracketed '\x7b' '\x7d')
        let id ← create name (.typeDeclaration { d with bodyText := some body })
        read skipSemicolon
        let step ← emitMember id
        return .done step
      else do
        let id ← create name (.typeDeclaration { d with bodyText := none })
        return .opened id .typeBrace) ⟨rest, t, b⟩ signal y) :
    Runs (openType (leadingWords d.access d.modifiers ++ [d.kind.keyword]))
      ⟨' ' :: (name ++ (typeParameterList d.typeParameters ++ x :: (v ++ '\x7b' :: rest))), t, b⟩
      signal y := by
  have hends : endsWord x = true := by
    by_contra hends
    simp [isBlank_of_endsWord (Bool.eq_false_iff.mpr hends)] at hx
  have hread : Reading.header.Yields ((headerWords d).flatMap (' ' :: ·) ++ u ++ '\x7b' :: rest)
      (join [' '] (headerWords d)) rest := yields_header hd hu
  rw [hheader] at hread
  have hfields := withHeader_eq hd
  rw [show d.typeParameters.map TypeParameter.unconstrained =
    (d.typeParameters.map TypeParameter.name).map fun n ↦ { name := n } by
      rw [List.map_map]
      rfl] at hfields
  refine (runs_ofExcept (Signature.ofKeywords_leadingWords hd.modifiers)).bind ?_
  refine (runs_read (yields_word_typeParameterList hname hd.parameters hends
    (ne_of_isBlank hx (by decide)) (ne_of_isBlank hx (by decide)))).bind ?_
  rw [if_neg (by simp [hname.1]), genericName_eq hname fun p hp ↦ (hd.parameters p hp).isPart_name]
  exact (runs_read hread).bind ((runs_ofExcept hfields).bind hnext)

/-- The words before the block of a type are kept up to its keyword. -/
theorem exists_passes_signature (m : RegionMarkers) (d : TypeDeclaration) (name u rest : Text)
    (t : Tree) (hb : b.text = []) (hc : isBlank c = true) :
    ∃ x v, (headerWords d).flatMap (' ' :: ·) ++ c :: u = x :: v ∧ isBlank x = true ∧
      Passes m ⟨d.signature name ++ (c :: u ++ '\x7b' :: rest), t, b⟩
        ⟨d.kind.keyword ++ ' ' :: (name ++ (typeParameterList d.typeParameters ++
          x :: (v ++ '\x7b' :: rest))), t,
          { b with text := spaced (leadingWords d.access d.modifiers) }⟩ := by
  obtain ⟨x, v, hheader, hx⟩ := exists_blank_header (d := d) (u := u) hc
  have hsplit : d.signature name ++ (c :: u ++ '\x7b' :: rest) =
      spaced (leadingWords d.access d.modifiers) ++ (d.kind.keyword ++
        ' ' :: (name ++ (typeParameterList d.typeParameters ++ x :: (v ++ '\x7b' :: rest)))) := by
    have hbrace := congrArg (· ++ '\x7b' :: rest) hheader
    simp only [List.cons_append] at hbrace
    rw [← hbrace, d.signature_eq, header_eq, spaced_append]
    simp
  rw [hsplit]
  exact ⟨x, v, hheader, hx, passes_leadingWords hb _ _⟩

theorem leads_type (hb : b.text = []) (hname : IsWord name) (hd : d.IsRegular) (hc : EndsLine c)
    (hu : ∀ x ∈ u, isBlank x = true) :
    Leads m ⟨d.signature name ++ (c :: u ++ '\x7b' :: rest), t, b⟩ fs
      ⟨rest, t.create name (.typeDeclaration { d with bodyText := none }), {}⟩
      (⟨t.size, .typeBrace, b⟩ :: fs) := by
  have hblanks : ∀ x ∈ c :: u, isBlank x = true := by simpa using ⟨hc.isBlank, hu⟩
  obtain ⟨x, v, hheader, hx, hpasses⟩ := exists_passes_signature m d name u rest t hb hc.isBlank
  refine hpasses.leads.trans (leads_word_opened (by cases d.kind <;> decide)
    (by rw [ahead_cons]; decide) (runs_wordEnd_type (b := b) hb ?_))
  refine runs_openType hname hd.toHasRegularHeader hblanks hheader hx ?_
  rw [if_neg hd.kind]
  exact (runs_create name _).bind .pure

/-- The body of an enumeration is read as a whole. -/
theorem declares_enum {body : Text} (hname : IsWord name) (hd : d.HasRegularHeader)
    (hkind : d.kind = .enumType) (hx : isBlank x = true) (hu : ∀ x ∈ u, isBlank x = true)
    (hbody : bracketed '\x7b' '\x7d' (body ++ '\x7d' :: c :: rest) = some body) (hc : EndsLine c) :
    Declares m (d.signature name ++ (x :: u ++ '\x7b' :: (body ++ '\x7d' :: c :: rest))) (c :: rest)
      name (.typeDeclaration { d with bodyText := some body }) := by
  intro t v b b' y fs hb happly hemit
  have hblanks : ∀ z ∈ x :: u, isBlank z = true := by simpa using ⟨hx, hu⟩
  obtain ⟨z, w, hheader, hz, hpasses⟩ := exists_passes_signature m d name u
    (body ++ '\x7d' :: c :: rest) t hb hx
  have hskip : skipSemicolon.Yields (c :: rest) () (c :: rest) := by
    refine (Reading.yields_skipSpaces_of_endsLine hc).bind (Reading.yields_peek.bind ?_)
    rw [ahead_cons, if_neg (by rcases hc with rfl | rfl <;> decide)]
    exact .pure
  have hmember := runs_emitMember (Reading.yields_trailingComment? hc) happly hemit
  refine hpasses.leads.trans (leads_word (by cases d.kind <;> decide)
    (by rw [ahead_cons]; decide) (runs_wordEnd_type (b := b) hb ?_)
    (show Step.produced 1 ≠ .finished by simp))
  refine runs_openType hname hd hblanks hheader hz ?_
  rw [if_pos hkind]
  exact (runs_read (Reading.yields_bracketed hbody)).bind ((runs_create name _).bind
    ((runs_read hskip).bind (hmember.bind .pure)))

end Opening

end SharpOutline
