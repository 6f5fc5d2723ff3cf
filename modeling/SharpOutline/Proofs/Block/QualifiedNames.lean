import SharpOutline.Proofs.Block.TypeHeaders

/-!
# Qualified names

A method is written with the interface that it implements before its name and its type parameters
behind it. The interface may be any text whose brackets are closed, with dots and type arguments of
its own. No dot stands behind the one before the name, so that one is the last outside brackets, and
the first angle bracket behind it opens the list of type parameters.
-/

namespace SharpOutline

variable {seen u t name : Text} {level : Nat} {ps : List TypeParameter}

theorem lastDotFrom_eq_none (h : '.' ∉ t) : lastDotFrom seen level t = none := by
  induction t generalizing seen level with
  | nil => rfl
  | cons c t ih =>
    rw [List.mem_cons, not_or] at h
    rw [lastDotFrom, ih h.2, if_neg fun hc ↦ h.1 hc.1.symm]
    rfl

/-- A dot behind closed brackets is the last one if no other follows. -/
theorem lastDotFrom_append (hu : nestingAlong level u = 0) (ht : '.' ∉ t) :
    lastDotFrom seen level (u ++ '.' :: t) = some (seen ++ u, t) := by
  induction u generalizing seen level with
  | nil =>
    obtain rfl : level = 0 := hu
    rw [List.nil_append, lastDotFrom, lastDotFrom_eq_none ht, List.append_nil]
    rfl
  | cons c u ih =>
    rw [List.cons_append, lastDotFrom, ih hu, List.append_assoc]
    rfl

/-- The text declares a type parameter: an identifier, perhaps behind a variance keyword. -/
def IsParameterName (w : Text) : Prop :=
  ∃ variance bare : Text, variance ∈ [[], "in ".toList, "out ".toList] ∧
    (bare ≠ [] ∧ ∀ c ∈ bare, isIdentifierCharacter c = true) ∧ w = variance ++ bare

theorem isWord_of_isIdentifierCharacter {w : Text}
    (h : w ≠ [] ∧ ∀ c ∈ w, isIdentifierCharacter c = true) : IsWord w ∧ '.' ∉ w :=
  ⟨⟨h.1, fun c hc ↦ (isMild_of_isIdentifierCharacter (h.2 c hc)).2⟩,
    fun hmem ↦ absurd (h.2 '.' hmem) (by decide +kernel)⟩

theorem IsParameterName.isPart {w : Text} (h : IsParameterName w) : Text.IsPart w ∧ '.' ∉ w := by
  obtain ⟨variance, bare, hvariance, hbare, rfl⟩ := h
  obtain ⟨hword, hdot⟩ := isWord_of_isIdentifierCharacter hbare
  have hnone : '.' ∉ variance := by
    simp only [List.mem_cons, List.not_mem_nil, or_false] at hvariance
    rcases hvariance with rfl | rfl | rfl <;> decide
  obtain ⟨vs, hvs, hmild, rfl⟩ := exists_spaced_of_variance hvariance
  have hbland : ∀ c ∈ spaced vs ++ bare, isBland c = true :=
    List.forall_mem_append.mpr ⟨fun c hc ↦ isBland_of_isMild (hmild c hc),
      fun c hc ↦ isBland_of_isMild (isMild_of_isIdentifierCharacter (hbare.2 c hc)).1⟩
  exact ⟨(Text.isClean_of_isBland hbland).isPart (trim_spaced_append hvs hword),
    by simp [hnone, hdot]⟩

theorem dot_notMem_typeParameterList (h : ∀ p ∈ ps, '.' ∉ p.name) : '.' ∉ typeParameterList ps := by
  by_cases hne : ps = []
  · simp [hne, typeParameterList]
  · rw [typeParameterList_eq hne]
    intro hmem
    have hmem : '.' ∈ parameterNames ps := by simpa using hmem
    rcases mem_join hmem with hc | ⟨w, hw, hc⟩
    · simp [partSeparator] at hc
    · obtain ⟨p, hp, rfl⟩ := List.mem_map.mp hw
      exact h p hp hc

/-- **The name of a method is read as it is written.** The interface, the name and the names of the
type parameters are found again in what is written for them. -/
theorem qualifiedName_implementingName {interface : Option Text}
    (hinterface : ∀ i ∈ interface, nestingAlong 0 i = 0)
    (hname : name ≠ [] ∧ ∀ c ∈ name, isIdentifierCharacter c = true)
    (hps : ∀ p ∈ ps, IsParameterName p.name) :
    qualifiedName (implementingName (interfaceReferences interface) name ++ typeParameterList ps) =
        (interface, name ++ typeParameterList ps) ∧
      genericName (name ++ typeParameterList ps) = (name, ps.map TypeParameter.name) := by
  obtain ⟨hword, hdot⟩ := isWord_of_isIdentifierCharacter hname
  refine ⟨?_, genericName_eq hword fun p hp ↦ (hps p hp).isPart.1⟩
  have hnone : '.' ∉ name ++ typeParameterList ps := by
    rw [List.mem_append, not_or]
    exact ⟨hdot, dot_notMem_typeParameterList fun p hp ↦ (hps p hp).isPart.2⟩
  cases interface with
  | none => rw [interfaceReferences, implementingName, qualifiedName, lastDotFrom_eq_none hnone]
  | some i =>
    rw [interfaceReferences, implementingName, qualifiedName, List.append_assoc, List.cons_append,
      lastDotFrom_append (hinterface i rfl) hnone]
    rfl

/-- A method with two type parameters, for an interface whose type arguments have dots, parentheses
and type arguments of their own. -/
theorem qualifiedName_implementingName_nested :
    (nestingAlong 0 "global::A.I<(B.C<D>, E[]), F.G>".toList = 0 ∧
        ("@Add".toList ≠ [] ∧ ∀ c ∈ "@Add".toList, isIdentifierCharacter c = true) ∧
        IsParameterName "in T".toList ∧ IsParameterName "U".toList) ∧
      qualifiedName "global::A.I<(B.C<D>, E[]), F.G>.@Add<in T, U>".toList =
          (some "global::A.I<(B.C<D>, E[]), F.G>".toList, "@Add<in T, U>".toList) ∧
        genericName "@Add<in T, U>".toList = ("@Add".toList, ["in T".toList, "U".toList]) := by
  have hlevel : nestingAlong 0 "global::A.I<(B.C<D>, E[]), F.G>".toList = 0 := by decide
  have hname : "@Add".toList ≠ [] ∧ ∀ c ∈ "@Add".toList, isIdentifierCharacter c = true :=
    ⟨by decide, List.all_eq_true.mp (by decide +kernel)⟩
  have hin : IsParameterName "in T".toList :=
    ⟨"in ".toList, "T".toList, by simp, ⟨by decide, List.all_eq_true.mp (by decide +kernel)⟩, rfl⟩
  have hnone : IsParameterName "U".toList :=
    ⟨[], "U".toList, by simp, ⟨by decide, List.all_eq_true.mp (by decide +kernel)⟩, rfl⟩
  have hps : ∀ p ∈ typeParametersOf ["in T".toList, "U".toList], IsParameterName p.name :=
    List.forall_mem_cons.mpr ⟨hin, List.forall_mem_singleton.mpr hnone⟩
  refine ⟨⟨hlevel, hname, hin, hnone⟩, ?_⟩
  exact qualifiedName_implementingName (fun i hi ↦ Option.some.inj hi ▸ hlevel) hname hps

end SharpOutline
