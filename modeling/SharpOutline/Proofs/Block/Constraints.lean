import SharpOutline.Block.Member
import SharpOutline.Proofs.Tree.Edits

/-!
# Constraints of type parameters

Constraints are added one by one, and each is compared with the one before it only. This amounts to
a condition on the whole list: none but the last is that of a constructor (`ConstructorLast`). Any
number of clauses may add constraints to the same parameter, so the condition is kept from clause to
clause.
-/

namespace SharpOutline

open SharpOutline.Tree

/-- None but the last constraint is that of a constructor, whatever blanks it contains. -/
def ConstructorLast (cs : List Text) : Prop := ∀ c ∈ cs.dropLast, Text.squeeze c ≠ "new()".toList

variable {p q : TypeParameter} {ps qs : List TypeParameter} {c name : Text} {cs ds : List Text}

theorem constructorLast_nil : ConstructorLast [] := by simp [ConstructorLast]

theorem ConstructorLast.of_append (h : ConstructorLast (cs ++ ds)) : ConstructorLast cs := by
  intro c hc
  rw [ConstructorLast, List.dropLast_append] at h
  split at h
  · exact h c hc
  · exact h c (List.mem_append_left _ ((List.dropLast_sublist cs).subset hc))

namespace TypeParameter

/-- Looking at the last constraint only is enough, if those before it are in order. -/
theorem addConstraint_eq_ok_iff (h : ConstructorLast p.constraints) :
    p.addConstraint c = .ok q ↔ ConstructorLast (p.constraints ++ [c]) ∧
      q = { p with constraints := p.constraints ++ [c] } := by
  have hlast : p.constraints.getLast?.any isConstructorConstraint = false ↔
      ConstructorLast (p.constraints ++ [c]) := by
    rw [ConstructorLast, List.dropLast_concat]
    rcases List.eq_nil_or_concat' p.constraints with heq | ⟨ds, d, heq⟩
    · simp [heq]
    · rw [heq, ConstructorLast, List.dropLast_concat] at h
      rw [heq, List.getLast?_concat, Option.any_some, isConstructorConstraint,
        beq_eq_false_iff_ne, List.forall_mem_append, List.forall_mem_singleton]
      exact ⟨fun hd ↦ ⟨h, hd⟩, And.right⟩
  rw [addConstraint, ← hlast]
  cases p.constraints.getLast?.any isConstructorConstraint with
  | true => simp
  | false => simp [eq_comm]

theorem addConstraints_eq_ok_iff (h : ConstructorLast p.constraints) :
    p.addConstraints cs = .ok q ↔ ConstructorLast (p.constraints ++ cs) ∧
      q = { p with constraints := p.constraints ++ cs } := by
  induction cs generalizing p with
  | nil => simp [addConstraints, h, eq_comm]
  | cons c cs ih =>
    rw [addConstraints, bind_eq_ok, ← List.singleton_append, ← List.append_assoc]
    constructor
    · rintro ⟨r, hr, hq⟩
      obtain ⟨hone, rfl⟩ := (addConstraint_eq_ok_iff h).mp hr
      exact (ih hone).mp hq
    · rintro ⟨hall, rfl⟩
      exact ⟨_, (addConstraint_eq_ok_iff h).mpr ⟨hall.of_append, rfl⟩,
        (ih hall.of_append).mpr ⟨hall, rfl⟩⟩

end TypeParameter

theorem constrain_eq_ok_iff :
    constrain name p cs = .ok q ↔ (∀ c ∈ cs, c ≠ []) ∧ p.addConstraints cs = .ok q := by
  induction cs generalizing p with
  | nil => simp [constrain, TypeParameter.addConstraints]
  | cons c cs ih =>
    rw [constrain, TypeParameter.addConstraints, bind_eq_ok, List.forall_mem_cons]
    by_cases hc : c = []
    · simp [hc]
    · cases p.addConstraint c <;> simp [hc, ih]

theorem constructorLast_of_constrainNamed {clause : Text}
    (h : ∀ p ∈ ps, ConstructorLast p.constraints)
    (hqs : constrainNamed clause name cs ps = .ok qs) :
    ∀ q ∈ qs, ConstructorLast q.constraints := by
  induction ps generalizing qs with
  | nil => cases hqs
  | cons p ps ih =>
    obtain ⟨hp, hps⟩ := List.forall_mem_cons.mp h
    rw [constrainNamed] at hqs
    split at hqs
    · obtain ⟨q, hq, hqs⟩ := bind_eq_ok.mp hqs
      cases hqs
      have hadd := (constrain_eq_ok_iff.mp hq).2
      obtain ⟨hall, rfl⟩ := (TypeParameter.addConstraints_eq_ok_iff hp).mp hadd
      exact List.forall_mem_cons.mpr ⟨hall, hps⟩
    · obtain ⟨rs, hrs, hqs⟩ := bind_eq_ok.mp hqs
      cases hqs
      exact List.forall_mem_cons.mpr ⟨hp, ih hps hrs⟩

theorem constructorLast_of_applyClauses (h : ∀ p ∈ ps, ConstructorLast p.constraints)
    (hqs : applyClauses ps cs = .ok qs) : ∀ q ∈ qs, ConstructorLast q.constraints := by
  induction cs generalizing ps with
  | nil =>
    cases hqs
    exact h
  | cons clause cs ih =>
    obtain ⟨rs, hrs, hqs⟩ := bind_eq_ok.mp hqs
    refine ih ?_ hqs
    unfold applyClause at hrs
    split at hrs
    · cases hrs
    · exact constructorLast_of_constrainNamed h hrs

/-- Parameters begin without constraints, so all clauses together leave them in order. -/
theorem constructorLast_of_applyConstraints {t : Text} {names : List Text}
    (hqs : applyConstraints t (typeParametersOf names) = .ok qs) :
    ∀ q ∈ qs, ConstructorLast q.constraints := by
  unfold applyConstraints at hqs
  split at hqs
  · cases hqs
  · refine constructorLast_of_applyClauses ?_ hqs
    exact List.forall_mem_map.mpr fun _ _ ↦ constructorLast_nil

end SharpOutline
