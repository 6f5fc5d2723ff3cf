import SharpOutline.Proofs.Tree.Stems

/-!
# Copies in any tree

A copy is planted element by element. Whatever the tree is into which it is planted, the links of
the elements that were there before do not change (`Tree.Extends`), and the new elements are linked
with each other only (`Tree.Sprouting`): the parent of a new element is a new one with a smaller
number, and so is a next branch, which has no parent and belongs to one element only. So nothing has
to be known about the rest of the tree.

The induction goes over the outline that is planted. What has been planted last hangs from nothing
(`Tree.Sprout`) until it is put into a list or becomes a next branch.
-/

namespace SharpOutline

theorem Element.otherwise?_withOtherwise {e : Element} {next : Option ElementId} {b : ElementId}
    (h : (e.withOtherwise next).otherwise? = some b) : next = some b := by
  cases e with
  | conditionDirective condition otherwise => exact h
  | _ => simp [Element.withOtherwise, Element.otherwise?] at h

namespace Tree

variable {t u v : Tree} {lo owner c x p b : ElementId} {slot : Slot} {name : Text} {e : Element}

theorem otherwise?_create (name : Text) (e : Element) (x : ElementId) :
    (t.create name e).otherwise? x = if x = t.size then e.otherwise? else t.otherwise? x := by
  rw [otherwise?_eq, element?_create, otherwise?_eq]
  split <;> rfl

theorem otherwise?_linked (t : Tree) (owner : ElementId) (slot : Slot)
    (put : List ElementId → List ElementId) (c x : ElementId) :
    (t.linked owner slot put c).otherwise? x = t.otherwise? x :=
  otherwise?_congr (element?_linked t owner slot put c x)

theorem otherwise?_appended (t : Tree) (owner c : ElementId) (slot : Slot) (x : ElementId) :
    (t.appended owner slot c).otherwise? x = t.otherwise? x :=
  otherwise?_linked t owner slot _ c x

theorem lt_of_otherwise? (h : t.otherwise? p = some b) : p < t.size := by
  obtain ⟨n, hn, -⟩ := Option.bind_eq_some_iff.mp h
  exact lt_of_get? hn

/-! ## More elements -/

/-- The second tree has further elements. The elements of the first one are linked as before, and
the next branches of the further ones are among them. -/
structure Extends (t u : Tree) : Prop where
  size : t.size ≤ u.size
  parent : ∀ {x}, x < t.size → u.parent? x = t.parent? x
  branch : ∀ {x}, x < t.size → u.otherwise? x = t.otherwise? x
  fresh : ∀ {p b}, t.size ≤ p → u.otherwise? p = some b → t.size ≤ b

namespace Extends

theorem refl (t : Tree) : Extends t t where
  size := Nat.le_refl _
  parent _ := rfl
  branch _ := rfl
  fresh hp hb := absurd (lt_of_otherwise? hb) (Nat.not_lt.mpr hp)

theorem trans (h : Extends t u) (k : Extends u v) : Extends t v where
  size := Nat.le_trans h.size k.size
  parent hx := (k.parent (Nat.lt_of_lt_of_le hx h.size)).trans (h.parent hx)
  branch hx := (k.branch (Nat.lt_of_lt_of_le hx h.size)).trans (h.branch hx)
  fresh {p b} hp hb := by
    by_cases hlt : p < u.size
    · rw [k.branch hlt] at hb
      exact h.fresh hp hb
    · exact Nat.le_trans h.size (k.fresh (Nat.not_lt.mp hlt) hb)

theorem create {next : Option ElementId} (h : Extends t u)
    (hnext : ∀ b, next = some b → t.size ≤ b) :
    Extends t (u.create name (e.withOtherwise next)) where
  size := by
    rw [size_create]
    exact Nat.le_succ_of_le h.size
  parent hx := by rw [parent?_create, h.parent hx]
  branch hx := by
    rw [otherwise?_create, if_neg (Nat.ne_of_lt (Nat.lt_of_lt_of_le hx h.size)), h.branch hx]
  fresh {p b} hp hb := by
    rw [otherwise?_create] at hb
    split at hb
    · exact hnext b (Element.otherwise?_withOtherwise hb)
    · exact h.fresh hp hb

theorem appended (h : Extends t u) (hc : t.size ≤ c) (hlt : c < u.size) (howner : owner < u.size) :
    Extends t (u.appended owner slot c) where
  size := by
    rw [(placed_appended howner hlt).size]
    exact h.size
  parent hx := by
    rw [(placed_appended howner hlt).parent, if_neg (Nat.ne_of_lt (Nat.lt_of_lt_of_le hx hc)),
      h.parent hx]
  branch hx := by rw [otherwise?_appended, h.branch hx]
  fresh hp hb := by
    rw [otherwise?_appended] at hb
    exact h.fresh hp hb

end Extends

/-! ## New elements -/

/-- The elements from `lo` on are linked with each other only: parents and next branches are older
ones of them, and a next branch has no parent and belongs to one element. -/
structure Sprouting (lo : Nat) (t : Tree) : Prop where
  parent : ∀ {x p}, lo ≤ x → t.parent? x = some p → lo ≤ p ∧ p < x
  branch : ∀ {p b}, lo ≤ p → t.otherwise? p = some b → lo ≤ b ∧ b < p ∧ t.parent? b = none
  unique : ∀ {p q b}, lo ≤ p → lo ≤ q → t.otherwise? p = some b → t.otherwise? q = some b → p = q

/-- An element that hangs from nothing, as far as the elements from `lo` on are concerned. -/
structure Sprout (lo : Nat) (t : Tree) (c : ElementId) : Prop where
  lt : c < t.size
  parent : t.parent? c = none
  not_branch : ∀ {p}, lo ≤ p → t.otherwise? p ≠ some c

theorem Sprout.extends (h : Sprout lo t c) (hext : Extends t u) : Sprout lo u c where
  lt := Nat.lt_of_lt_of_le h.lt hext.size
  parent := (hext.parent h.lt).trans h.parent
  not_branch {p} hp hb := by
    by_cases hlt : p < t.size
    · rw [hext.branch hlt] at hb
      exact h.not_branch hp hb
    · exact absurd h.lt (Nat.not_lt.mpr (hext.fresh (Nat.not_lt.mp hlt) hb))

namespace Sprouting

theorem of_size_le (h : t.size ≤ lo) : Sprouting lo t where
  parent hx hp := absurd (lt_of_parent? hp) (Nat.not_lt.mpr (Nat.le_trans h hx))
  branch hp hb := absurd (lt_of_otherwise? hb) (Nat.not_lt.mpr (Nat.le_trans h hp))
  unique hp _ hb _ := absurd (lt_of_otherwise? hb) (Nat.not_lt.mpr (Nat.le_trans h hp))

/-- The last element has no next branch that is newer, so it is no next branch itself. -/
theorem sprout_create (h : Sprouting lo (t.create name e)) :
    Sprout lo (t.create name e) t.size where
  lt := by
    rw [size_create]
    exact Nat.lt_succ_self _
  parent := by rw [parent?_create, parent?, get?_eq_none_iff.mpr (Nat.le_refl _), Option.bind_none]
  not_branch hp hb := by
    have hlt := lt_of_otherwise? hb
    rw [size_create] at hlt
    exact absurd (h.branch hp hb).2.1 (Nat.not_lt.mpr (Nat.le_of_lt_succ hlt))

theorem create {next : Option ElementId} (h : Sprouting lo t)
    (hnext : ∀ b, next = some b → lo ≤ b ∧ Sprout lo t b) :
    Sprouting lo (t.create name (e.withOtherwise next)) where
  parent hx hp := by
    rw [parent?_create] at hp
    exact h.parent hx hp
  branch {p b} hp hb := by
    rw [parent?_create]
    rw [otherwise?_create] at hb
    split at hb
    · rename_i hsize
      obtain ⟨hlo, hb⟩ := hnext b (Element.otherwise?_withOtherwise hb)
      exact ⟨hlo, hsize ▸ hb.lt, hb.parent⟩
    · exact h.branch hp hb
  unique {p q b} hp hq hb hb' := by
    rw [otherwise?_create] at hb hb'
    split at hb
    · split at hb'
      · rename_i hp hq
        exact hp.trans hq.symm
      · -- what has become a next branch now was none before
        exact absurd hb' ((hnext b (Element.otherwise?_withOtherwise hb)).2.not_branch hq)
    · split at hb'
      · exact absurd hb ((hnext b (Element.otherwise?_withOtherwise hb')).2.not_branch hp)
      · exact h.unique hp hq hb hb'

theorem appended (h : Sprouting lo t) (hc : Sprout lo t c) (hlo : lo ≤ owner) (hlt : owner < c) :
    Sprouting lo (t.appended owner slot c) := by
  have placed : Placed t (t.appended owner slot c) owner slot c :=
    placed_appended (Nat.lt_trans hlt hc.lt) hc.lt
  refine ⟨fun {x p} hx hp ↦ ?_, fun {p b} hp hb ↦ ?_, fun hp hq hb hb' ↦ ?_⟩
  · rw [placed.parent] at hp
    split at hp
    · rename_i hxc
      cases hp
      exact ⟨hlo, hxc ▸ hlt⟩
    · exact h.parent hx hp
  · rw [otherwise?_appended] at hb
    have hne : b ≠ c := by
      rintro rfl
      exact hc.not_branch hp hb
    rw [placed.parent, if_neg hne]
    exact h.branch hp hb
  · rw [otherwise?_appended] at hb hb'
    exact h.unique hp hq hb hb'

end Sprouting

/-! ## Planting -/

mutual

/-- Planting an outline adds elements that are linked with each other only, and what it starts with
hangs from nothing. -/
theorem sprouting_plant : ∀ (o : Outline) {t u : Tree} {lo c : ElementId}, lo ≤ t.size →
    Sprouting lo t → Outline.plant t o = .ok (u, c) →
      Sprouting lo u ∧ Extends t u ∧ t.size ≤ c ∧ Sprout lo u c
  | .gap id, _, _, _, _, _, _, hplant => by simp [Outline.plant] at hplant
  | .node _ name element headers applied children otherwise, t, u, lo, c, hlo, h, hplant => by
    obtain ⟨t₁, next, t₃, t₄, hnext, hchildren, hheaders, happlied, rfl⟩ :=
      Outline.plant_eq_ok hplant
    obtain ⟨h₁, hext₁, hnext⟩ := sprouting_plantNext otherwise hlo h hnext
    have hlo₁ : lo ≤ t₁.size := Nat.le_trans hlo hext₁.size
    have h₂ : Sprouting lo (t₁.create name (element.withOtherwise next)) :=
      h₁.create fun b hb ↦ ⟨Nat.le_trans hlo (hnext b hb).1, (hnext b hb).2⟩
    have hc₂ := h₂.sprout_create
    obtain ⟨h₃, hext₃⟩ := sprouting_plantAll children hlo₁ hc₂.lt h₂ hchildren
    have hc₃ := hc₂.extends hext₃
    obtain ⟨h₄, hext₄⟩ := sprouting_plantAll headers hlo₁ hc₃.lt h₃ hheaders
    have hc₄ := hc₃.extends hext₄
    obtain ⟨h₅, hext₅⟩ := sprouting_plantAll applied hlo₁ hc₄.lt h₄ happlied
    refine ⟨h₅, ?_, hext₁.size, hc₄.extends hext₅⟩
    have hext₂ : Extends t (t₁.create name (element.withOtherwise next)) :=
      hext₁.create fun b hb ↦ (hnext b hb).1
    exact ((hext₂.trans hext₃).trans hext₄).trans hext₅

theorem sprouting_plantAll : ∀ (os : List Outline) {t u : Tree} {lo owner : ElementId}
    {slot : Slot}, lo ≤ owner → owner < t.size → Sprouting lo t →
      Outline.plantAll t owner slot os = .ok u → Sprouting lo u ∧ Extends t u
  | [], t, u, _, _, _, _, _, h, hplant => by
    obtain rfl : t = u := by simpa [Outline.plantAll] using hplant
    exact ⟨h, .refl t⟩
  | o :: os, t, u, lo, owner, slot, hlo, howner, h, hplant => by
    rw [Outline.plantAll] at hplant
    obtain ⟨⟨t₁, c⟩, hone, hrest⟩ := bind_eq_ok.mp hplant
    obtain ⟨h₁, hext₁, hle, hc⟩ :=
      sprouting_plant o (Nat.le_trans hlo (Nat.le_of_lt howner)) h hone
    have howner₁ : owner < t₁.size := Nat.lt_of_lt_of_le howner hext₁.size
    have hext₂ : Extends t (t₁.appended owner slot c) := hext₁.appended hle hc.lt howner₁
    obtain ⟨h₃, hext₃⟩ := sprouting_plantAll os hlo (Nat.lt_of_lt_of_le howner hext₂.size)
      (h₁.appended hc hlo (Nat.lt_of_lt_of_le howner hle)) hrest
    exact ⟨h₃, hext₂.trans hext₃⟩

theorem sprouting_plantNext : ∀ (o : Option Outline) {t u : Tree} {lo : ElementId}
    {next : Option ElementId}, lo ≤ t.size → Sprouting lo t →
      Outline.plantNext t o = .ok (u, next) →
        Sprouting lo u ∧ Extends t u ∧ ∀ b, next = some b → t.size ≤ b ∧ Sprout lo u b
  | none, t, u, _, next, _, h, hplant => by
    obtain ⟨rfl, rfl⟩ : t = u ∧ none = next := by simpa [Outline.plantNext] using hplant
    exact ⟨h, .refl t, nofun⟩
  | some o, t, u, lo, next, hlo, h, hplant => by
    rw [Outline.plantNext] at hplant
    obtain ⟨⟨t₁, c⟩, hone, hrest⟩ := bind_eq_ok.mp hplant
    obtain ⟨rfl, rfl⟩ : t₁ = u ∧ some c = next := by simpa using hrest
    obtain ⟨h₁, hext₁, hle, hc⟩ := sprouting_plant o hlo h hone
    refine ⟨h₁, hext₁, fun b hb ↦ ?_⟩
    cases hb
    exact ⟨hle, hc⟩

end

/-- **A copy** consists of new elements that are linked with each other only. -/
theorem sprouting_copy {id : ElementId} (h : t.copy id = .ok (u, c)) :
    Sprouting t.size u ∧ Extends t u := by
  obtain ⟨hnew, hext, -⟩ :=
    sprouting_plant (t.outline id) (Nat.le_refl _) (.of_size_le (Nat.le_refl _)) h
  exact ⟨hnew, hext⟩

end Tree

end SharpOutline
