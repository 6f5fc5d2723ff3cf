import SharpOutline.Proofs.Block.Constraints
import SharpOutline.Proofs.Block.Outcomes
import SharpOutline.Proofs.Tree.History

/-!
# Constraints in a document

The type parameters of an element are given to it when it is created, with their constraints. No
edit changes them afterwards, and a copy has those of its original. So all that is done while a
document is read leaves the constraints of all type parameters in order (`Drafting.Built.ordered`).
-/

namespace SharpOutline

namespace Tree

variable {t u src : Tree} {n : Nat} {x id c : ElementId}

def parameters (t : Tree) (x : ElementId) : List TypeParameter :=
  (t.element? x).elim [] Element.typeParameters

/-- The constraints of all type parameters are in order. -/
def Ordered (t : Tree) : Prop := ∀ x, ∀ p ∈ t.parameters x, ConstructorLast p.constraints

theorem parameters_congr (h : u.element? x = t.element? x) : u.parameters x = t.parameters x := by
  rw [parameters, h, parameters]

theorem parameters_modify {f : Node → Node}
    (hf : ∀ m, (f m).element.typeParameters = m.element.typeParameters) :
    (t.modify id f).parameters x = t.parameters x := by
  rw [parameters, element?, get?_modify, parameters, element?]
  cases t.get? x with
  | none => split <;> rfl
  | some m => split <;> simp [hf]

theorem typeParameters_withOtherwise (b : Option ElementId) (e : Element) :
    (e.withOtherwise b).typeParameters = e.typeParameters := by
  cases e <;> rfl

theorem typeParameters_renamed (e : Element) (d : DeclaredName) :
    (e.renamed d).2.typeParameters = e.typeParameters := by
  cases e <;> rfl

namespace Ordered

theorem congr (h : t.Ordered) (heq : ∀ x, u.parameters x = t.parameters x) : u.Ordered :=
  fun x ↦ heq x ▸ h x

theorem create (h : t.Ordered) {name : Text} {e : Element}
    (he : ∀ p ∈ e.typeParameters, ConstructorLast p.constraints) : (t.create name e).Ordered := by
  intro x
  rw [parameters, element?_create]
  split
  · exact he
  · exact h x

theorem plantAll {owner : ElementId} {slot : Slot}
    (ih : ∀ {t u : Tree} {id c : ElementId}, t.Ordered →
      Outline.plant t (src.unfold n id) = .ok (u, c) → u.Ordered)
    (ids : List ElementId) (h : t.Ordered)
    (hplant : Outline.plantAll t owner slot (ids.map (src.unfold n)) = .ok u) : u.Ordered := by
  induction ids generalizing t with
  | nil =>
    obtain rfl : t = u := by simpa [Outline.plantAll] using hplant
    exact h
  | cons id ids ih' =>
    rw [List.map_cons, Outline.plantAll] at hplant
    obtain ⟨⟨t₁, c⟩, hone, hplant⟩ := bind_eq_ok.mp hplant
    exact ih' ((ih h hone).congr fun x ↦ parameters_congr (element?_linked ..)) hplant

theorem plant (hsrc : src.Ordered) (n : Nat) (h : t.Ordered)
    (hplant : Outline.plant t (src.unfold n id) = .ok (u, c)) : u.Ordered := by
  induction n generalizing t u id c with
  | zero => simp [unfold, Outline.plant] at hplant
  | succ n ih =>
    obtain ⟨m, t₁, next, t₃, t₄, hm, hnext, hchildren, hheaders, happlied, -⟩ :=
      plant_unfold_eq_ok hplant
    have h₁ : t₁.Ordered := by
      rcases Outline.plantNext_eq_ok hnext with ⟨-, rfl, -⟩ | ⟨o, copy, ho, -, hone⟩
      · exact h
      · obtain ⟨y, -, rfl⟩ := Option.map_eq_some_iff.mp ho
        exact ih h hone
    have h₂ : (t₁.create m.name (m.element.withOtherwise next)).Ordered := by
      refine h₁.create ?_
      have hm' := hsrc id
      rwa [parameters, element?, hm, Option.map_some, Option.elim_some,
        ← typeParameters_withOtherwise next] at hm'
    have h₃ := h₂.plantAll ih _ hchildren
    exact (h₃.plantAll ih _ hheaders).plantAll ih _ happlied

theorem edit (h : t.Ordered) {e : Edit} (hdoes : e.Does t u)
    (he : ∀ name element, e ≠ .create name element) : u.Ordered := by
  cases hdoes with
  | create name element => exact absurd rfl (he name element)
  | setName => exact h.congr fun x ↦ parameters_modify fun _ ↦ rfl
  | keepsRoot | keeps => exact h
  | addRoot => exact h.congr fun x ↦ parameters_congr (element?_detached ..)
  | moves =>
    exact h.congr fun x ↦ parameters_congr ((element?_linked ..).trans (element?_detached ..))
  | frees _ _ hdata => exact h.congr fun x ↦ parameters_congr (hdata x)
  | ends => exact h.congr fun x ↦ parameters_modify fun _ ↦ typeParameters_withOtherwise ..
  | branches =>
    refine h.congr fun x ↦ ?_
    exact (parameters_modify fun _ ↦ typeParameters_withOtherwise ..).trans
      (parameters_congr (element?_detached ..))
  | copies hu => exact h.plant _ h hu

end Ordered

end Tree

namespace Drafting

open SharpOutline.Tree

variable {α : Type} {x : Drafting α} {a : α} {d d' : Draft}

theorem ordered_edit (e : Edit) (he : ∀ name element, e ≠ .create name element) {a : Unit}
    (hx : edit e.apply d = .ok a d') (h : d.tree.Ordered) : d'.tree.Ordered := by
  obtain ⟨t, ht, rfl⟩ := edit_eq_ok.mp hx
  exact h.edit (Edit.does_apply ht) he

theorem Built.ordered (hbuilt : Built x) (hx : x d = .ok a d') (h : d.tree.Ordered) :
    d'.tree.Ordered := by
  induction hbuilt generalizing d d' with
  | look | alter =>
    cases hx
    exact h
  | throw => cases hx
  | read =>
    obtain ⟨c, -, rfl⟩ := read_eq_ok hx
    exact h
  | create hparameters =>
    cases hx
    exact h.create (constructorLast_of_applyConstraints hparameters)
  | copyAs first n =>
    obtain ⟨t, hcopy, rfl⟩ := copyAs_eq_ok hx
    exact (h.plant _ h hcopy).congr fun y ↦ parameters_modify fun m ↦ typeParameters_renamed ..
  | addRoot id => exact ordered_edit (.addRoot id) (by simp) hx h
  | addChild owner id => exact ordered_edit (.addChild owner id) (by simp) hx h
  | addHeaderComment owner id => exact ordered_edit (.addHeaderComment owner id) (by simp) hx h
  | addAttribute owner id => exact ordered_edit (.addAttribute owner id) (by simp) hx h
  | setOtherwise id branch => exact ordered_edit (.setOtherwise id branch) (by simp) hx h
  | bind _ _ ihx ihf =>
    obtain ⟨b, d₁, hb, hx⟩ := bind_eq_ok.mp hx
    exact ihf b hx (ihx hb h)

theorem ordered_advance {m : RegionMarkers} {signal : Signal}
    (hx : advance m d = .ok signal d') (h : d.tree.Ordered) : d'.tree.Ordered := by
  unfold advance at hx
  split at hx
  · cases hx
    exact h
  · exact (built_react m _).ordered hx h

end Drafting

theorem Machine.Moves.ordered {m : RegionMarkers} {s s' : Machine} {step : Step}
    (hmoves : Moves m s step s') (h : s.draft.tree.Ordered) : s'.draft.tree.Ordered := by
  cases hmoves with
  | opened hx | ended hx | stepped hx =>
    have hadvance := Drafting.ordered_advance hx h
    exact hadvance
  | left hx _ hleave =>
    obtain ⟨e, hend, hemit⟩ := Drafting.leave_eq_ok hleave
    have hended := (Drafting.built_endBlock _).ordered hend (Drafting.ordered_advance hx h)
    exact (Drafting.built_emitMember _).ordered hemit hended

/-- **The constructor constraint is always the last one.** A type parameter can be made with
constraints exactly if none but the last is that of a constructor, and then it has these. In a
document that has been read this is so for the type parameters of all elements. -/
theorem constructorLast_of_parse :
    (∀ name cs p, TypeParameter.withConstraints name cs = .ok p ↔
        ConstructorLast cs ∧ p = ⟨name, cs⟩) ∧
      ∀ {m : RegionMarkers} {source : Text} {t : Tree}, Document.parse m source = .ok t →
        ∀ id e, t.element? id = some e → ∀ p ∈ e.typeParameters, ConstructorLast p.constraints := by
  refine ⟨fun name cs p ↦ TypeParameter.addConstraints_eq_ok_iff constructorLast_nil, ?_⟩
  intro m source t hparse id e he
  obtain ⟨d, ids, d', hrun, hfinish, -, hroots⟩ := Document.parse_eq_ok_iff.mp hparse
  have hstart : (Document.start source).tree.Ordered := fun x p hp ↦ by
    simp [Document.start, Tree.parameters, Tree.element?, Tree.get?] at hp
  have hread : d.tree.Ordered :=
    Machine.run_induction (P := fun s ↦ s.draft.tree.Ordered) (fun h hmoves ↦ hmoves.ordered h)
      hstart hrun
  have hfinished := Drafting.built_finishBlock.ordered hfinish hread
  have hedits : Drafting.editAll (fun id u ↦ u.addRoot id) ids d' = .ok () { d' with tree := t } :=
    Drafting.editAll_eq_ok.mpr ⟨t, hroots, rfl⟩
  have hall := (Drafting.built_editAll .addRoot ids).ordered hedits hfinished id
  rwa [Tree.parameters, show Tree.element? _ id = some e from he] at hall

/-- Two clauses for one of the type parameters, with a clause for the other one between them. -/
def constrainedText : Text :=
  "class A<T, in U> where T : B where U : C where T : new ( ) \x7b\x7d".toList

theorem constructorLast_of_parse_constrainedText : ∃ m t e,
    Document.parse m constrainedText = .ok t ∧ t.element? 0 = some e ∧ e.typeParameters =
      [⟨"T".toList, ["B".toList, "new ( )".toList]⟩, ⟨"in U".toList, ["C".toList]⟩] ∧
        ∀ p ∈ e.typeParameters, ConstructorLast p.constraints := by
  have hsource : ((Document.parseWith {} constrainedText).toOption.bind (·.element? 0)).any
      (·.typeParameters = [⟨"T".toList, ["B".toList, "new ( )".toList]⟩,
        ⟨"in U".toList, ["C".toList]⟩]) = true := by decide +kernel
  cases ht : Document.parseWith {} constrainedText with
  | error f =>
    rw [ht] at hsource
    cases hsource
  | ok t =>
    rw [ht] at hsource
    obtain ⟨e, he, hparameters⟩ := (Option.any_eq_true _ _).mp hsource
    obtain ⟨m, -, hparse⟩ := Tree.bind_eq_ok.mp ht
    exact ⟨m, t, e, hparse, he, of_decide_eq_true hparameters,
      constructorLast_of_parse.2 hparse 0 e he⟩

end SharpOutline
