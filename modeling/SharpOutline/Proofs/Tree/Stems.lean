import SharpOutline.Proofs.Tree.Growth
import SharpOutline.Proofs.Tree.Ownership

/-!
# Stems

While a tree is being built it consists of several parts that hang from nothing yet, its stems.
`Tree.MadeOf` says which they are: every element hangs from exactly one of them. A new element is a
stem of its own, and putting a stem beneath something that hangs from another one joins the two. An
open conditional needs more, because its next branch is to follow the last one that was read; such a
stem has a tip, where nothing follows yet.

The edits are followed only as far as they succeed, and a stem that is to be joined to another one
is known to hang from nothing, so each edit comes down to one new link.
-/

namespace SharpOutline

open Relation

/-- A part of a tree that hangs from nothing yet. -/
inductive Stem where
  /-- An element with everything that hangs from it. -/
  | whole (head : ElementId)
  /-- A comment. -/
  | note (head : ElementId)
  /-- The namespace of a whole file. -/
  | file (head : ElementId)
  /-- An element whose part ends in a tip: nothing follows the tip as its next branch. -/
  | growing (head tip : ElementId)
deriving DecidableEq, Repr

/-- The element from which the rest of a stem hangs. -/
def Stem.head : Stem → ElementId
  | whole head => head
  | note head => head
  | file head => head
  | growing head _ => head

namespace Tree

variable {t u : Tree} {x p id : Nat}

/-! ## Stems -/

/-- A stem is what it is said to be. -/
def Fits (t : Tree) : Stem → Prop
  | .whole _ => True
  | .note head => ∃ c, t.element? head = some (.comment c)
  | .file head => t.element? head = some (.nameSpace true)
  | .growing head tip => ReflTransGen t.Owns head tip ∧ t.otherwise? tip = none

/-- The tree consists of the stems: each element hangs from exactly one of them. -/
structure MadeOf (t : Tree) (stems : List Stem) : Prop where
  roots : t.roots = []
  forest : Forest t.size t.Owns (stems.map Stem.head)
  parent_of_mem : ∀ {s}, s ∈ stems → t.parent? s.head = none
  parent_of_branch : ∀ {p b}, t.otherwise? p = some b → t.parent? b = none
  fits : ∀ {s}, s ∈ stems → t.Fits s

namespace MadeOf

variable {s : Stem} {stems stems' : List Stem}

variable {r : Stem}

theorem perm (h : t.MadeOf stems) (hp : stems.Perm stems') : t.MadeOf stems' where
  roots := h.roots
  forest := h.forest.perm (hp.map _)
  parent_of_mem hs := h.parent_of_mem (hp.mem_iff.mpr hs)
  parent_of_branch := h.parent_of_branch
  fits hs := h.fits (hp.mem_iff.mpr hs)

theorem refit (h : t.MadeOf (r :: stems)) (hhead : s.head = r.head) (hfits : t.Fits s) :
    t.MadeOf (s :: stems) where
  roots := h.roots
  forest := by
    rw [List.map_cons, hhead]
    exact h.forest
  parent_of_mem {q} hq := by
    rcases List.mem_cons.mp hq with rfl | hq
    · rw [hhead]
      exact h.parent_of_mem List.mem_cons_self
    · exact h.parent_of_mem (List.mem_cons_of_mem _ hq)
  parent_of_branch := h.parent_of_branch
  fits {q} hq := by
    rcases List.mem_cons.mp hq with rfl | hq
    · exact hfits
    · exact h.fits (List.mem_cons_of_mem _ hq)

theorem weaken (h : t.MadeOf (s :: stems)) : t.MadeOf (.whole s.head :: stems) :=
  h.refit rfl trivial

theorem lt_of_mem (h : t.MadeOf stems) (hs : s ∈ stems) : s.head < t.size :=
  h.forest.lt_of_mem (List.mem_map_of_mem hs)

theorem head_ne (h : t.MadeOf (s :: stems)) (hr : r ∈ stems) : r.head ≠ s.head := by
  intro heq
  have hmem : r.head ∈ stems.map Stem.head := List.mem_map_of_mem hr
  exact (List.nodup_cons.mp h.forest.nodup).1 (heq ▸ hmem)

theorem empty : MadeOf {} [] where
  roots := rfl
  forest := Forest.empty fun p x hx ↦ by
    rcases hx with ⟨slot, hx⟩ | hx
    · simp [listOf, get?] at hx
    · simp [otherwise?, get?] at hx
  parent_of_mem hs := by simp at hs
  parent_of_branch hx := by simp [otherwise?, get?] at hx
  fits hs := by simp at hs

end MadeOf

/-- A change that adds owners and keeps all data but next branches lets a stem be what it is. -/
theorem Fits.mono {s : Stem} (h : t.Fits s) (howns : ∀ p x, t.Owns p x → u.Owns p x)
    (helement : ∀ e, t.element? s.head = some e → e.kind ≠ .conditionDirective →
      u.element? s.head = some e)
    (htip : ∀ head tip, s = .growing head tip → u.otherwise? tip = t.otherwise? tip) :
    u.Fits s := by
  cases s with
  | whole head => trivial
  | note head =>
    obtain ⟨c, hc⟩ := h
    exact ⟨c, helement _ hc (by simp [Element.kind])⟩
  | file head => exact helement _ h (by simp [Element.kind])
  | growing head tip => exact ⟨ReflTransGen.mono howns _ _ h.1, (htip head tip rfl).trans h.2⟩

/-! ## Growing stems -/

namespace MadeOf

variable {s r : Stem} {stems : List Stem} {name : Text} {e : Element} {slot : Slot}

variable {tip b : Nat} {next : Option ElementId}

/-- A new element without a next branch is a stem. -/
theorem create (h : t.MadeOf stems) (he : e.otherwise? = none) (hs : s.head = t.size)
    (hfits : (t.create name e).Fits s) : (t.create name e).MadeOf (s :: stems) := by
  have hotherwise : ∀ x, (t.create name e).otherwise? x = t.otherwise? x := by
    intro x
    rw [otherwise?_eq, element?_create]
    split
    · rename_i hx
      rw [Option.bind_some, he, hx, otherwise?, get?_eq_none_iff.mpr (Nat.le_refl _),
        Option.bind_none]
    · rw [otherwise?_eq]
  have howns : ∀ p x, (t.create name e).Owns p x ↔ t.Owns p x := by
    intro p x
    simp only [Owns, listOf_create, hotherwise]
  refine ⟨h.roots, ?_, fun {r} hr ↦ ?_, fun {p b} hb ↦ ?_, fun {r} hr ↦ ?_⟩
  · rw [size_create, List.map_cons, hs]
    exact h.forest.grow.congr howns
  · rw [parent?_create]
    rcases List.mem_cons.mp hr with rfl | hr
    · rw [hs, parent?, get?_eq_none_iff.mpr (Nat.le_refl _), Option.bind_none]
    · exact h.parent_of_mem hr
  · rw [hotherwise] at hb
    rw [parent?_create]
    exact h.parent_of_branch hb
  · rcases List.mem_cons.mp hr with rfl | hr
    · exact hfits
    · refine (h.fits hr).mono (fun p x ↦ (howns p x).mpr) (fun e' he' _ ↦ ?_)
        fun _ _ _ ↦ hotherwise _
      rw [element?_create, if_neg (Nat.ne_of_lt (h.lt_of_mem hr)), he']

/-- One more element is owned, by an element that hangs from another stem. -/
theorem join (h : t.MadeOf (s :: stems)) (hr : r ∈ stems) (hp : ReflTransGen t.Owns r.head p)
    (hsize : u.size = t.size) (hroots : u.roots = t.roots)
    (howns : ∀ q y, u.Owns q y ↔ t.Owns q y ∨ (q = p ∧ y = s.head))
    (hparent : ∀ {r}, r ∈ stems → u.parent? r.head = none)
    (hbranch : ∀ {q b}, u.otherwise? q = some b → u.parent? b = none)
    (hfits : ∀ {r}, r ∈ stems → u.Fits r) : u.MadeOf stems where
  roots := hroots.trans h.roots
  forest := by
    rw [hsize]
    exact (h.forest.join (List.mem_map_of_mem hr) hp).congr howns
  parent_of_mem := hparent
  parent_of_branch := hbranch
  fits := hfits

theorem appended (h : t.MadeOf (s :: stems)) (hr : r ∈ stems)
    (hp : ReflTransGen t.Owns r.head p) : (t.appended p slot s.head).MadeOf stems := by
  have hlt : p < t.size :=
    h.forest.lt_of_reached (List.mem_map_of_mem (List.mem_cons_of_mem _ hr)) hp
  have placed : Placed t (t.appended p slot s.head) p slot s.head :=
    placed_appended hlt (h.lt_of_mem List.mem_cons_self)
  have hotherwise : ∀ x, (t.appended p slot s.head).otherwise? x = t.otherwise? x :=
    fun x ↦ otherwise?_congr (element?_linked t p slot _ s.head x)
  have howns : ∀ q y, (t.appended p slot s.head).Owns q y ↔
      t.Owns q y ∨ (q = p ∧ y = s.head) := by
    intro q y
    rw [Owns, hotherwise, Owns]
    constructor
    · rintro (⟨slot', hy⟩ | hy)
      · rcases placed.mem_listOf hy with hy | ⟨rfl, rfl, -⟩
        · exact .inl (.inl ⟨slot', hy⟩)
        · exact .inr ⟨rfl, rfl⟩
      · exact .inl (.inr hy)
    · rintro ((⟨slot', hy⟩ | hy) | ⟨rfl, rfl⟩)
      · refine .inl ⟨slot', List.count_pos_iff.mp ?_⟩
        rw [placed.count_listOf]
        exact Nat.lt_of_lt_of_le (List.count_pos_iff.mpr hy) (Nat.le_add_right _ _)
      · exact .inr hy
      · exact .inl ⟨slot, placed.list.mem_iff.mpr List.mem_cons_self⟩
  refine h.join hr hp placed.size placed.roots howns (fun {r'} hr' ↦ ?_) (fun {q b} hb ↦ ?_)
    fun {r'} hr' ↦ ?_
  · rw [placed.parent, if_neg (h.head_ne hr')]
    exact h.parent_of_mem (List.mem_cons_of_mem _ hr')
  · rw [hotherwise] at hb
    have hne : b ≠ s.head := by
      rintro rfl
      exact h.forest.not_owns List.mem_cons_self (.inr hb)
    rw [placed.parent, if_neg hne, h.parent_of_branch hb]
  · exact (h.fits (List.mem_cons_of_mem _ hr')).mono (fun q y hq ↦ (howns q y).mpr (.inl hq))
      (fun e' he' _ ↦ (element?_linked ..).trans he') fun _ _ _ ↦ hotherwise _

theorem tip_unique (h : t.MadeOf stems) {head head' tip : ElementId}
    (hs : .growing head tip ∈ stems) (hs' : .growing head' tip ∈ stems) : head = head' :=
  h.forest.head_unique (List.mem_map_of_mem (f := Stem.head) hs)
    (List.mem_map_of_mem (f := Stem.head) hs') (h.fits hs).1 (h.fits hs').1

theorem owns_withOtherwise (hkind : t.kind? tip = some .conditionDirective)
    (htip : t.otherwise? tip = none) (q y : Nat) :
    (t.withOtherwise tip (some b)).Owns q y ↔ t.Owns q y ∨ (q = tip ∧ y = b) := by
  simp only [Owns, listOf_withOtherwise, otherwise?_withOtherwise hkind]
  by_cases hq : tip = q
  · subst hq
    simp [htip, eq_comm]
  · simp [hq, Ne.symm hq]

/-- A stem becomes the next branch after the tip of another one, which does not grow there any
more. -/
theorem branched {head : Nat} (h : t.MadeOf (s :: .growing head tip :: stems))
    (hkind : t.kind? tip = some .conditionDirective) :
    (t.withOtherwise tip (some s.head)).MadeOf (.whole head :: stems) := by
  have hmem : Stem.growing head tip ∈ s :: .growing head tip :: stems := by simp
  obtain ⟨hreach, htip⟩ := h.fits hmem
  have howns := fun q y ↦ owns_withOtherwise (b := s.head) hkind htip q y
  have h' : t.MadeOf (s :: .whole head :: stems) := (h.perm (.swap ..)).weaken.perm (.swap ..)
  refine h'.join (u := t.withOtherwise tip (some s.head)) (r := .whole head) List.mem_cons_self
    hreach (size_modify _ _ _) rfl howns (fun {r} hr ↦ ?_) (fun {q c} hc ↦ ?_) fun {r} hr ↦ ?_
  · rw [parent?_withOtherwise]
    exact h'.parent_of_mem (List.mem_cons_of_mem _ hr)
  · rw [otherwise?_withOtherwise hkind] at hc
    rw [parent?_withOtherwise]
    split at hc
    · obtain rfl : s.head = c := Option.some.inj hc
      exact h.parent_of_mem List.mem_cons_self
    · exact h.parent_of_branch hc
  · refine (h'.fits (List.mem_cons_of_mem _ hr)).mono (fun q y hq ↦ (howns q y).mpr (.inl hq))
      (fun e he hk ↦ ?_) ?_
    · rw [element?_withOtherwise, he]
      cases e <;> simp_all [Element.kind, Element.withOtherwise]
    · -- nothing else grows at this tip, since the tip hangs from one stem only
      rintro head' tip' rfl
      rw [otherwise?_withOtherwise hkind, if_neg]
      rintro rfl
      have hr : .growing head' tip ∈ stems := by simpa using hr
      have hne := (h.perm (.swap ..)).head_ne (List.mem_cons_of_mem _ hr)
      exact hne (h.tip_unique (List.mem_cons_of_mem _ (List.mem_cons_of_mem _ hr)) hmem)

/-! ### Edits -/

theorem detached_eq (h : t.MadeOf stems) (hs : s ∈ stems) : t.detached s.head = t :=
  detached_of_parent?_eq_none (h.parent_of_mem hs) (by simp [h.roots])

theorem not_mem_listOf (h : t.MadeOf stems) (hs : s ∈ stems) (p : ElementId) (slot : Slot) :
    s.head ∉ t.listOf p slot :=
  fun hmem ↦ h.forest.not_owns (List.mem_map_of_mem hs) (.inl ⟨slot, hmem⟩)

/-- A stem that is put at the end of a list is only linked to the owner of the list. -/
theorem eq_appended (h : t.MadeOf (s :: stems)) {e : Edit} {slot : Slot}
    (he : e.into = some (p, slot, s.head)) (hput : e.put s.head = (· ++ [s.head]))
    (hu : e.apply t = .ok u) : u = t.appended p slot s.head := by
  obtain ⟨hmem, -⟩ | ⟨-, -, rfl⟩ := Edit.cases_of_into he hu
  · exact absurd hmem (h.not_mem_listOf List.mem_cons_self p slot)
  · rw [h.detached_eq List.mem_cons_self, hput, Tree.appended]

/-- A stem that becomes the next branch of an element is only linked to it. -/
theorem eq_withOtherwise_of_setOtherwise (h : t.MadeOf (s :: stems))
    (hu : t.setOtherwise tip (some s.head) = .ok u) :
    u = t.withOtherwise tip (some s.head) ∧ t.kind? tip = some .conditionDirective ∧
      s.head ≠ tip := by
  obtain ⟨hkind, -, hne, rfl⟩ := eq_of_setOtherwise hu
  exact ⟨by rw [h.detached_eq List.mem_cons_self], hkind, hne⟩

/-- A new branch becomes the next one after the tip of a stem, and is the tip from then on. -/
theorem setOtherwise {head : Nat} (h : t.MadeOf (.growing b b :: .growing head tip :: stems))
    (hu : t.setOtherwise tip (some b) = .ok u) : u.MadeOf (.growing head b :: stems) := by
  obtain ⟨rfl, hkind, (hne : b ≠ tip)⟩ :=
    h.eq_withOtherwise_of_setOtherwise (s := .growing b b) hu
  obtain ⟨hreach, htip⟩ := h.fits (s := .growing head tip) (by simp)
  have howns := fun q y ↦ owns_withOtherwise (b := b) hkind htip q y
  refine (h.branched hkind).refit rfl ⟨?_, ?_⟩
  · exact (ReflTransGen.mono (fun q y hq ↦ (howns q y).mpr (.inl hq)) _ _ hreach).tail
      ((howns tip b).mpr (.inr ⟨rfl, rfl⟩))
  · rw [Stem.head, otherwise?_withOtherwise hkind, if_neg (Ne.symm hne)]
    exact (h.fits (s := .growing b b) List.mem_cons_self).2

/-! ### Copies -/

theorem createBefore (h : t.MadeOf (.whole b :: stems)) (name : Text) (condition : Option Text) :
    (t.create name (.conditionDirective condition (some b))).MadeOf (.whole t.size :: stems) := by
  have heq : t.create name (.conditionDirective condition (some b)) =
      (t.create name (.conditionDirective condition none)).withOtherwise t.size (some b) := by
    refine ext_get? rfl fun x ↦ ?_
    rw [withOtherwise, get?_modify, get?_create, get?_create]
    by_cases hx : x = t.size <;> simp [hx, Ne.symm, Element.withOtherwise]
  have hnew : (t.create name (.conditionDirective condition none)).Fits (.growing t.size t.size) :=
    ⟨.refl, by rw [otherwise?_eq, element?_create, if_pos rfl]; rfl⟩
  have hcreate := (h.create (s := .growing t.size t.size) rfl rfl hnew).perm (.swap ..)
  rw [heq]
  exact hcreate.branched (by rw [kind?_create, if_pos rfl]; rfl)

variable {src : Tree} {n : Nat}

theorem plantAll
    (ih : ∀ {t u : Tree} {id copy : ElementId} {stems : List Stem}, t.MadeOf stems →
      Outline.plant t (src.unfold n id) = .ok (u, copy) → u.MadeOf (.whole copy :: stems))
    (ids : List ElementId) (h : t.MadeOf stems) (hr : .whole p ∈ stems)
    (hplant : Outline.plantAll t p slot (ids.map (src.unfold n)) = .ok u) : u.MadeOf stems := by
  induction ids generalizing t with
  | nil =>
    rw [List.map_nil, Outline.plantAll, Except.ok.injEq] at hplant
    exact hplant ▸ h
  | cons x ids ihids =>
    rw [List.map_cons, Outline.plantAll] at hplant
    obtain ⟨⟨t₁, copy⟩, hone, hrest⟩ := bind_eq_ok.mp hplant
    have hput : (t₁.appended p slot copy).MadeOf stems :=
      (ih h hone).appended (s := .whole copy) hr .refl
    exact ihids hput hrest

theorem plantNext
    (ih : ∀ {t u : Tree} {id copy : ElementId} {stems : List Stem}, t.MadeOf stems →
      Outline.plant t (src.unfold n id) = .ok (u, copy) → u.MadeOf (.whole copy :: stems))
    {next copied : Option ElementId} (h : t.MadeOf stems)
    (hplant : Outline.plantNext t (next.map (src.unfold n)) = .ok (u, copied)) :
    u.MadeOf (copied.toList.map .whole ++ stems) ∧ copied.isSome = next.isSome := by
  rcases Outline.plantNext_eq_ok hplant with ⟨hnone, rfl, rfl⟩ | ⟨o, copy, ho, rfl, hone⟩
  · rw [Option.map_eq_none_iff] at hnone
    exact ⟨h, by rw [hnone]⟩
  · obtain ⟨id, rfl, rfl⟩ := Option.map_eq_some_iff.mp ho
    exact ⟨ih h hone, rfl⟩

/-- A copy is a new element, created after its next branch if it has one. -/
theorem createCopy (h : t.MadeOf (next.toList.map .whole ++ stems)) (name : Text) (e : Element)
    (hnext : next.isSome = e.otherwise?.isSome) :
    (t.create name (e.withOtherwise next)).MadeOf (.whole t.size :: stems) := by
  cases next with
  | none =>
    refine h.create (s := .whole t.size) ?_ rfl trivial
    cases e <;> rfl
  | some b =>
    cases e with
    | conditionDirective condition otherwise => exact h.createBefore name condition
    | _ => simp [Element.otherwise?] at hnext

/-- What is planted is a stem of its own. The induction is on the levels of the outline, as the
outline itself is unfolded. -/
theorem plant {copy : ElementId} (h : t.MadeOf stems)
    (hplant : Outline.plant t (src.unfold n id) = .ok (u, copy)) :
    u.MadeOf (.whole copy :: stems) := by
  induction n generalizing t u id copy stems with
  | zero => simp [unfold, Outline.plant] at hplant
  | succ n ih =>
    obtain ⟨node, t₁, next, t₃, t₄, -, hnext, hchildren, hheaders, happlied, rfl⟩ :=
      plant_unfold_eq_ok hplant
    obtain ⟨h₁, hsome⟩ := plantNext ih h hnext
    have h₂ := h₁.createCopy node.name node.element hsome
    have h₃ := plantAll ih node.children h₂ List.mem_cons_self hchildren
    have h₄ := plantAll ih node.headerComments h₃ List.mem_cons_self hheaders
    exact plantAll ih node.attributes h₄ List.mem_cons_self happlied

theorem copy (h : t.MadeOf stems) {copied : ElementId} (hu : t.copy id = .ok (u, copied)) :
    u.MadeOf (.whole copied :: stems) :=
  h.plant hu

theorem modify (h : t.MadeOf (.whole id :: stems)) {f : Node → Node}
    (hlist : ∀ n s, (f n).list s = n.list s) (hparent : ∀ n, (f n).parent = n.parent)
    (hotherwise : ∀ n, (f n).element.otherwise? = n.element.otherwise?) :
    (t.modify id f).MadeOf (.whole id :: stems) := by
  have hother : ∀ x, (t.modify id f).otherwise? x = t.otherwise? x := by
    intro x
    rw [otherwise?, get?_modify, otherwise?]
    split
    · cases t.get? x with
      | none => rfl
      | some n => exact hotherwise n
    · rfl
  have howns : ∀ p x, (t.modify id f).Owns p x ↔ t.Owns p x := by
    intro p x
    simp only [Owns, listOf_modify t id p _ hlist, hother]
  refine ⟨h.roots, ?_, fun {r} hr ↦ ?_, fun {p b} hb ↦ ?_, fun {r} hr ↦ ?_⟩
  · rw [size_modify]
    exact h.forest.congr howns
  · rw [parent?_modify t id _ hparent]
    exact h.parent_of_mem hr
  · rw [hother] at hb
    rw [parent?_modify t id _ hparent]
    exact h.parent_of_branch hb
  · rcases List.mem_cons.mp hr with rfl | hr
    · trivial
    · refine (h.fits (List.mem_cons_of_mem _ hr)).mono (fun p x ↦ (howns p x).mpr)
        (fun e he _ ↦ ?_) fun _ _ _ ↦ hother _
      have hne : id ≠ r.head := Ne.symm (h.head_ne hr)
      rw [element?, get?_modify, if_neg hne]
      exact he

end MadeOf

end Tree

end SharpOutline
