import SharpOutline.Block.Machine

/-!
# Foreseen faults

An edit may be refused for many reasons, of which a source text can bring about only three: an
attribute is to be applied to a namespace or to a using directive, or a constraint follows the
constructor constraint (`Refusal.Foreseen`). This module looks at what is done before the tree is
touched. What is read from the source text is never refused (`Reading.Tidy`), and of the values that
are made of what was read, only constraints are (`foreseeable_applyConstraints`).
-/

namespace SharpOutline

/-- A refusal that a source text can bring about. -/
def Refusal.Foreseen (r : Refusal) : Prop :=
  r = .notAttributable .nameSpace ∨ r = .notAttributable .usingDirective ∨
    ∃ parameter, r = .constructorConstraintNotLast parameter

/-- The fault is no refusal, or it is a foreseen one. -/
def Fault.Foreseen : Fault → Prop
  | refused r => r.Foreseen
  | _ => True

/-! ## Values -/

/-- A value that may be a foreseen fault, but no other one. -/
def Foreseeable {α : Type} (e : Except Fault α) : Prop := ∀ ⦃f⦄, e = .error f → f.Foreseen

section Values

variable {α β : Type} {e e' : Except Fault α}

theorem foreseeable_ok (a : α) : Foreseeable (.ok a : Except Fault α) := nofun

theorem foreseeable_error {f : Fault} (h : f.Foreseen) :
    Foreseeable (.error f : Except Fault α) := by
  rintro _ ⟨⟩
  exact h

theorem Foreseeable.bind {g : α → Except Fault β} (h : Foreseeable e)
    (hg : ∀ a, Foreseeable (g a)) : Foreseeable (e >>= g) := by
  intro f hf
  cases e with
  | error f' =>
    cases hf
    exact h rfl
  | ok a => exact hg a hf

theorem Foreseeable.ite {p : Prop} [Decidable p] (h : Foreseeable e) (h' : Foreseeable e') :
    Foreseeable (if p then e else e') := by
  split
  · exact h
  · exact h'

end Values

/-! ### Signatures -/

namespace Signature

theorem foreseeable_addKeyword (words : List Text) (s : Signature) (w : Text) :
    Foreseeable (addKeyword words s w) := by
  unfold addKeyword
  split
  · exact foreseeable_ok _
  · refine .ite (foreseeable_ok _) (.ite (foreseeable_ok _) (.ite (foreseeable_ok _)
      (.ite (.ite (foreseeable_ok _) (foreseeable_error trivial))
        (.ite (.ite (foreseeable_ok _) (foreseeable_error trivial)) ?_))))
    split
    · exact foreseeable_ok _
    · exact foreseeable_error trivial
    · exact foreseeable_error trivial

theorem foreseeable_finish (words : List Text) (s : Signature) (stated rest : List Text) :
    Foreseeable (stripFrom.finish words s stated rest) := by
  unfold stripFrom.finish
  split
  · exact foreseeable_error trivial
  · exact foreseeable_ok _

theorem foreseeable_stripFrom (words : List Text) (s : Signature) (stated left : List Text) :
    Foreseeable (stripFrom words s stated left) := by
  induction left generalizing s stated with
  | nil => exact foreseeable_finish words s stated []
  | cons w left ih =>
    rw [stripFrom]
    refine .ite (foreseeable_finish words s stated _) (.ite
      (.ite (foreseeable_error trivial) (ih s _)) ?_)
    split
    · rename_i f hf
      exact foreseeable_error (foreseeable_addKeyword words s w hf)
    · exact ih _ stated

theorem foreseeable_declarator (words : List Text) : Foreseeable (declarator words) := by
  unfold declarator
  split
  · exact foreseeable_error trivial
  · exact foreseeable_ok _
  · refine .ite (foreseeable_ok _) ?_
    split
    · exact foreseeable_error trivial
    · exact .ite (foreseeable_ok _) (.ite (foreseeable_ok _) (foreseeable_ok _))

theorem foreseeable_qualifiedType (words : List Text) (d : Declarator) :
    Foreseeable (qualifiedType words d) := by
  unfold qualifiedType
  split
  · exact foreseeable_ok _
  · exact .ite (foreseeable_ok _) (foreseeable_error trivial)
  · exact foreseeable_error trivial

theorem foreseeable_ofWords (words : List Text) : Foreseeable (ofWords words) :=
  (foreseeable_stripFrom words {} [] words).bind fun _ ↦ (foreseeable_declarator _).bind fun _ ↦
    (foreseeable_qualifiedType words _).bind fun _ ↦
      .ite (foreseeable_error trivial) (foreseeable_ok _)

theorem foreseeable_ofKeywords (words : List Text) : Foreseeable (ofKeywords words) :=
  (foreseeable_stripFrom words {} [] words).bind fun _ ↦
    .ite (foreseeable_ok _) (foreseeable_error trivial)

theorem foreseeable_typed (s : Signature) (k : Kind) : Foreseeable (declares.typed s k) :=
  .ite (foreseeable_error trivial) (foreseeable_ok _)

theorem foreseeable_declares (s : Signature) (t : Terminator) : Foreseeable (s.declares t) := by
  unfold declares
  split
  case h_5 => exact .ite (foreseeable_ok _) (foreseeable_ok _)
  all_goals first
    | exact foreseeable_typed s _
    | exact .ite (foreseeable_error trivial) (foreseeable_typed s _)
    | exact foreseeable_error trivial

end Signature

/-! ### Names -/

theorem foreseeable_furtherNames (text : Text) (parts : List Text) :
    Foreseeable (furtherNames text parts) := by
  induction parts with
  | nil => exact foreseeable_ok _
  | cons part parts ih =>
    exact .ite (foreseeable_error trivial) (ih.bind fun _ ↦ foreseeable_ok _)

theorem foreseeable_declaredNames (text : Text) : Foreseeable (declaredNames text) := by
  unfold declaredNames
  split
  · exact foreseeable_error trivial
  · exact (Signature.foreseeable_ofWords _).bind fun _ ↦
      (foreseeable_furtherNames _ _).bind fun _ ↦ foreseeable_ok _

theorem foreseeable_laterNames (text : Text) (parts : List Text) :
    Foreseeable (laterNames text parts) := by
  induction parts with
  | nil => exact foreseeable_ok _
  | cons part parts ih =>
    have hone : Foreseeable (laterName text part) :=
      .ite (foreseeable_error trivial) (foreseeable_ok _)
    exact hone.bind fun _ ↦ ih.bind fun _ ↦ foreseeable_ok _

theorem foreseeable_initializedNames (text value : Text) (first : DeclaredName)
    (names : List DeclaredName) : Foreseeable (initializedNames text value first names) := by
  unfold initializedNames
  split
  · exact foreseeable_error trivial
  · exact foreseeable_error trivial
  · exact (foreseeable_laterNames text _).bind fun _ ↦ foreseeable_ok _

theorem foreseeable_constructorCall (tail : Text) :
    Foreseeable (Drafting.constructorCall tail) := by
  unfold Drafting.constructorCall
  split
  · exact foreseeable_ok _
  · exact foreseeable_ok _
  · exact foreseeable_error trivial

/-! ### Constraints -/

theorem foreseeable_constrain (name : Text) (p : TypeParameter) (constraints : List Text) :
    Foreseeable (constrain name p constraints) := by
  induction constraints generalizing p with
  | nil => exact foreseeable_ok _
  | cons c cs ih =>
    rw [constrain]
    refine .ite (foreseeable_error trivial) ?_
    rw [TypeParameter.addConstraint]
    by_cases hlast : p.constraints.getLast?.any TypeParameter.isConstructorConstraint
    · rw [if_pos hlast]
      exact foreseeable_error (.inr (.inr ⟨p.name, rfl⟩))
    · rw [if_neg hlast]
      exact ih _

theorem foreseeable_constrainNamed (clause name : Text) (constraints : List Text)
    (ps : List TypeParameter) : Foreseeable (constrainNamed clause name constraints ps) := by
  induction ps with
  | nil => exact foreseeable_error trivial
  | cons p ps ih =>
    exact .ite ((foreseeable_constrain _ _ _).bind fun _ ↦ foreseeable_ok _)
      (ih.bind fun _ ↦ foreseeable_ok _)

theorem foreseeable_applyClauses (ps : List TypeParameter) (clauses : List Text) :
    Foreseeable (applyClauses ps clauses) := by
  induction clauses generalizing ps with
  | nil => exact foreseeable_ok _
  | cons clause clauses ih =>
    have hone : Foreseeable (applyClause ps clause) := by
      unfold applyClause
      split
      · exact foreseeable_error trivial
      · exact foreseeable_constrainNamed _ _ _ _
    exact hone.bind fun qs ↦ ih qs

theorem foreseeable_applyConstraints (t : Text) (ps : List TypeParameter) :
    Foreseeable (applyConstraints t ps) := by
  unfold applyConstraints
  split
  · exact foreseeable_error trivial
  · exact foreseeable_applyClauses _ _

theorem foreseeable_baseReferences (bases : List Text) :
    Foreseeable (Drafting.baseReferences bases) := by
  induction bases with
  | nil => exact foreseeable_ok _
  | cons base bases ih =>
    exact .ite (foreseeable_error trivial) (ih.bind fun _ ↦ foreseeable_ok _)

theorem foreseeable_withHeader (header : Text) (t : TypeDeclaration) :
    Foreseeable (Drafting.withHeader header t) := by
  have hbases (text : Text) : Foreseeable (Drafting.basesOf text) := by
    unfold Drafting.basesOf
    split
    · exact foreseeable_ok _
    · exact foreseeable_baseReferences _
    · exact foreseeable_error trivial
  exact (hbases _).bind fun _ ↦ (foreseeable_applyConstraints _ _).bind fun _ ↦ foreseeable_ok _

/-- A reading meets only foreseen faults. -/
theorem Reading.Tidy.foreseen {α : Type} {r : Reading α} {c c' : Cursor} {f : Fault} (h : r.Tidy)
    (hf : r c = .error f c') : f.Foreseen := by
  have hrefusal := h.unrefused hf
  cases f with
  | refused => cases hrefusal
  | _ => trivial

end SharpOutline
