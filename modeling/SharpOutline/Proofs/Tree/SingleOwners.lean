import SharpOutline.Proofs.Tree.Listings

/-!
# One place for each element

An element that is put into a place is taken out of the lists and away from the roots first, but the
branch that it follows is not told. So an element stands in one place only as long as no edit gives
another place to a next branch, and this is the only way in which it can come to stand in two
(`Tree.singlyOwned_built_iff`).

Agreeing links leave only next branches to look at (`Tree.singlyOwned_iff`). What an edit does to
them and to their other places is said once for all edits (`Edit.Effect`): it takes places away, or
puts one element into a list or among the roots, or makes one element a next branch, or adds new
elements that are linked with each other only.
-/

namespace SharpOutline

namespace Tree

variable {t u : Tree} {id owner x p b : ElementId}

/-! ## Next branches -/

/-- Where the links agree, only a next branch can stand in two places. -/
theorem singlyOwned_iff (hlinked : t.Linked) : t.SinglyOwned ↔ t.SoleBranches := by
  constructor
  · intro h
    refine ⟨fun {p b} hb ↦ ?_, fun {p b} hb hmem ↦ ?_, fun {p q b} hb hb' ↦ ?_⟩
    · by_contra hparent
      obtain ⟨q, hq⟩ := Option.ne_none_iff_exists'.mp hparent
      obtain ⟨slot, hmem⟩ := hlinked.exists_mem_listOf hq
      obtain ⟨i, hi⟩ := List.getElem?_of_mem hmem
      cases h (.member q slot i) (.branch p) b hi hb
    · exact h.not_owns_root hmem (.inr hb)
    · exact Place.branch.inj (h (.branch p) (.branch q) b hb hb')
  · exact fun h _ _ _ hq hq' ↦ h.place_unique hlinked hq hq'

theorem SoleBranches.empty : SoleBranches {} where
  parent hb := absurd (lt_of_otherwise? hb) (Nat.not_lt_zero _)
  not_mem_roots _ := List.not_mem_nil
  unique hb _ := absurd (lt_of_otherwise? hb) (Nat.not_lt_zero _)

theorem KnownBranches.empty : KnownBranches {} := fun _ _ hb ↦
  absurd (lt_of_otherwise? hb) (Nat.not_lt_zero _)

end Tree

/-! ## Effects of edits -/

namespace Edit

open SharpOutline.Tree

/-- The element that an edit puts into a list or among the roots. -/
def puts : Edit → Option ElementId
  | addRoot id => some id
  | addChild _ child => some child
  | insertChild _ _ child => some child
  | addHeaderComment _ comment => some comment
  | addAttribute _ used => some used
  | _ => none

/-- The edit gives another place to the next branch of an element, which keeps it, and is not
refused. -/
def Shares (t : Tree) (e : Edit) : Prop :=
  (∃ u, e.apply t = .ok u) ∧ ∃ c b, t.otherwise? c = some b ∧
    (e.puts = some b ∨ ∃ owner, owner ≠ c ∧ e = .setOtherwise owner (some b))

/-- What an edit does to next branches and to the places that these should not have. -/
inductive Effect (t u : Tree) (e : Edit) : Prop
  /-- No element gets a place. -/
  | loosened (size : t.size ≤ u.size)
      (branch : ∀ p b, u.otherwise? p = some b → t.otherwise? p = some b)
      (parent : ∀ b, t.parent? b = none → u.parent? b = none) (roots : u.roots ⊆ t.roots)
      (puts : e.puts = none) (sets : ∀ owner b, e ≠ .setOtherwise owner (some b))
  /-- An element is put into a list or among the roots. -/
  | put (id : ElementId) (size : u.size = t.size)
      (branch : ∀ p, u.otherwise? p = t.otherwise? p)
      (placed : u.parent? id ≠ none ∨ id ∈ u.roots)
      (parent : ∀ b, b ≠ id → t.parent? b = none → u.parent? b = none)
      (roots : ∀ b, b ≠ id → b ∈ u.roots → b ∈ t.roots) (puts : e.puts = some id)
  /-- An element becomes a next branch and leaves its other places. -/
  | branched (owner b : ElementId) (size : u.size = t.size) (known : b < t.size)
      (branch : ∀ p, u.otherwise? p = if owner = p then some b else t.otherwise? p)
      (parent : ∀ x, u.parent? x = if x = b then none else t.parent? x)
      (roots : u.roots = t.roots.filter (· != b)) (sets : e = .setOtherwise owner (some b))
  /-- There are new elements, which are linked with each other only. -/
  | sprouted (extended : Extends t u) (sprouting : Sprouting t.size u) (roots : u.roots = t.roots)
      (puts : e.puts = none) (sets : ∀ owner b, e ≠ .setOtherwise owner (some b))

variable {t u : Tree} {e : Edit} {id owner b : ElementId}

/-! ### Single edits -/

theorem puts_of_into {slot : Slot} (he : e.into = some (owner, slot, id)) : e.puts = some id := by
  cases e <;> cases he <;> rfl

theorem Effect.of_released {gone : ElementId → Bool} (r : Released t u gone)
    (hbranch : ∀ p, u.otherwise? p = t.otherwise? p) (he : e.Frees) : Effect t u e := by
  have hputs : e.puts = none ∧ ∀ owner b, e ≠ .setOtherwise owner (some b) := by
    cases e <;> first | exact False.elim he | exact ⟨rfl, nofun⟩
  refine .loosened (Nat.le_of_eq r.size.symm) (fun p b hb ↦ ?_) (fun b hb ↦ ?_) ?_ hputs.1 hputs.2
  · rwa [hbranch] at hb
  · rw [r.parent, hb, ite_self]
  · rw [r.roots]
    exact List.filter_subset_self _

theorem Effect.moved (h : t.Linked) {slot : Slot} {put : List ElementId → List ElementId}
    (howner : owner < t.size) (hid : id < t.size) (hput : ∀ l, (put l).Perm (id :: l))
    (hputs : e.puts = some id) : Effect t ((t.detached id).linked owner slot put id) e := by
  have r := released_detached h id
  have hplaced : Placed (t.detached id) ((t.detached id).linked owner slot put id) owner slot id :=
    placed_linked (by rwa [r.size]) (by rwa [r.size]) hput
  refine .put id (hplaced.size.trans r.size) (fun p ↦ ?_) (.inl ?_) (fun b hne hb ↦ ?_)
    (fun b _ hb ↦ ?_) hputs
  · rw [otherwise?_linked, otherwise?_congr (element?_detached t id p)]
  · rw [hplaced.parent, if_pos rfl]
    exact Option.some_ne_none _
  · rw [hplaced.parent, if_neg hne, r.parent, hb, ite_self]
  · rw [hplaced.roots, r.roots] at hb
    exact (List.mem_filter.mp hb).1

theorem Effect.stays (hplaced : t.parent? id ≠ none ∨ id ∈ t.roots) (hputs : e.puts = some id) :
    Effect t t e :=
  .put id rfl (fun _ ↦ rfl) hplaced (fun _ _ hb ↦ hb) (fun _ _ hb ↦ hb) hputs

/-- **What an edit does**, if it is not refused and an element that it creates has no next branch
yet. -/
theorem effect_apply (h : t.Linked) (hfresh : ∀ name element, e = .create name element →
    element.otherwise? = none) (hu : e.apply t = .ok u) : Effect t u e := by
  cases does_apply hu with
  | create name element =>
    refine .loosened ?_ (fun p b hb ↦ ?_) (fun b hb ↦ ?_) (fun _ hb ↦ hb) rfl (by rintro _ _ ⟨⟩)
    · rw [size_create]
      exact Nat.le_succ _
    · rw [otherwise?_create, hfresh name element rfl] at hb
      split at hb
      · cases hb
      · exact hb
    · rwa [parent?_create]
  | setName x name =>
    refine .loosened (Nat.le_of_eq (size_modify ..).symm) (fun p b hb ↦ ?_) (fun b hb ↦ ?_)
      (fun _ hb ↦ hb) rfl (by rintro _ _ ⟨⟩)
    · rwa [otherwise?_congr (element?_modify t x p fun _ ↦ by rfl)] at hb
    · exact (parent?_modify t x b fun _ ↦ by rfl).trans hb
  | keepsRoot hroot => exact .stays (.inr hroot) rfl
  | @addRoot x =>
    have r := released_detached h x
    refine .put x r.size (fun p ↦ otherwise?_congr (element?_detached t x p)) (.inr ?_)
      (fun b _ hb ↦ ?_) (fun b hne hb ↦ ?_) rfl
    · exact List.mem_append_right _ List.mem_cons_self
    · exact (r.parent b).trans (by rw [hb, ite_self])
    · rcases List.mem_append.mp hb with hb | hb
      · rw [r.roots] at hb
        exact (List.mem_filter.mp hb).1
      · exact absurd (List.mem_singleton.mp hb) hne
  | keeps he hmem =>
    refine .stays (.inl ?_) (puts_of_into he)
    rw [h.parent_of_mem hmem]
    exact Option.some_ne_none _
  | moves he hk hl =>
    exact .moved h (lt_of_kind? hk) (lt_of_kind? hl) (e.perm_put _) (puts_of_into he)
  | frees he released hdata =>
    obtain ⟨gone, r⟩ := released h
    exact .of_released r (fun p ↦ otherwise?_congr (hdata p)) he
  | ends hid =>
    refine .loosened (Nat.le_of_eq (size_modify ..).symm) (fun p b hb ↦ ?_) (fun b hb ↦ ?_)
      (fun _ hb ↦ hb) rfl (by rintro _ _ ⟨⟩)
    · rw [otherwise?_withOtherwise hid] at hb
      split at hb
      · cases hb
      · exact hb
    · rwa [parent?_withOtherwise]
  | @branches x b hid hb =>
    have r := released_detached h b
    refine .branched x b ((size_modify ..).trans r.size) (lt_of_kind? hb) (fun p ↦ ?_)
      (fun y ↦ ?_) r.roots rfl
    · rw [otherwise?_withOtherwise (by rw [r.kind, hid]),
        otherwise?_congr (element?_detached t b p)]
    · rw [parent?_withOtherwise, r.parent]
      simp only [beq_iff_eq]
  | copies hu =>
    obtain ⟨hnew, hext⟩ := sprouting_copy hu
    exact .sprouted hext hnew (planted_unfold h t.size h hu).kept.roots rfl (by rintro _ _ ⟨⟩)

/-! ### What follows from the effect -/

theorem Effect.knownBranches (h : Effect t u e) (hknown : t.KnownBranches) : u.KnownBranches := by
  intro p b hb
  cases h with
  | loosened size branch => exact Nat.lt_of_lt_of_le (hknown (branch p b hb)) size
  | put id size branch =>
    rw [branch] at hb
    rw [size]
    exact hknown hb
  | branched owner b' size known branch =>
    rw [branch] at hb
    rw [size]
    split at hb
    · cases hb
      exact known
    · exact hknown hb
  | sprouted hext hnew =>
    by_cases hp : p < t.size
    · rw [hext.branch hp] at hb
      exact Nat.lt_of_lt_of_le (hknown hb) hext.size
    · exact Nat.lt_trans (hnew.branch (Nat.not_lt.mp hp) hb).2.1 (lt_of_otherwise? hb)

theorem soleBranches_of_sprouting (h : t.SoleBranches) (hlinked : t.Linked)
    (hknown : t.KnownBranches) (hext : Extends t u) (hnew : Sprouting t.size u)
    (hroots : u.roots = t.roots) : u.SoleBranches := by
  -- The next branch of an old element is old, and that of a new one is new.
  have hside : ∀ {p b}, u.otherwise? p = some b →
      (p < t.size ∧ b < t.size ∧ t.otherwise? p = some b) ∨ (t.size ≤ p ∧ t.size ≤ b) := by
    intro p b hb
    by_cases hp : p < t.size
    · rw [hext.branch hp] at hb
      exact .inl ⟨hp, hknown hb, hb⟩
    · exact .inr ⟨Nat.not_lt.mp hp, (hnew.branch (Nat.not_lt.mp hp) hb).1⟩
  refine ⟨fun {p b} hb ↦ ?_, fun {p b} hb hmem ↦ ?_, fun {p q b} hb hb' ↦ ?_⟩
  · rcases hside hb with ⟨-, hlt, hb'⟩ | ⟨hp, -⟩
    · rw [hext.parent hlt]
      exact h.parent hb'
    · exact (hnew.branch hp hb).2.2
  · rw [hroots] at hmem
    rcases hside hb with ⟨-, -, hb'⟩ | ⟨-, hle⟩
    · exact h.not_mem_roots hb' hmem
    · exact absurd (hlinked.parent_of_mem_roots hmem).1 (Nat.not_lt.mpr hle)
  · rcases hside hb with ⟨-, hlt, hp⟩ | ⟨hp, hle⟩
    · rcases hside hb' with ⟨-, -, hq⟩ | ⟨-, hle⟩
      · exact h.unique hp hq
      · exact absurd hlt (Nat.not_lt.mpr hle)
    · rcases hside hb' with ⟨-, hlt, -⟩ | ⟨hq, -⟩
      · exact absurd hlt (Nat.not_lt.mpr hle)
      · exact hnew.unique hp hq hb hb'

/-- A next branch comes to stand in another place exactly if the edit gives it one. -/
theorem Effect.soleBranches_iff (h : Effect t u e) (hu : e.apply t = .ok u) (hlinked : t.Linked)
    (hknown : t.KnownBranches) (hsole : t.SoleBranches) : u.SoleBranches ↔ ¬e.Shares t := by
  have hshares : e.Shares t ↔ ∃ c b, t.otherwise? c = some b ∧
      (e.puts = some b ∨ ∃ owner, owner ≠ c ∧ e = .setOtherwise owner (some b)) :=
    and_iff_right ⟨u, hu⟩
  rw [hshares]
  cases h with
  | loosened size branch parent roots hputs hsets =>
    refine iff_of_true ⟨fun hb ↦ parent _ (hsole.parent (branch _ _ hb)),
      fun hb hmem ↦ hsole.not_mem_roots (branch _ _ hb) (roots hmem),
      fun hb hb' ↦ hsole.unique (branch _ _ hb) (branch _ _ hb')⟩ ?_
    rintro ⟨c, b, -, hb | ⟨owner, -, he⟩⟩
    · cases hputs.symm.trans hb
    · exact hsets owner b he
  | put id size branch placed parent roots hputs =>
    constructor
    · rintro hu ⟨c, b, hc, hb | ⟨owner, -, rfl⟩⟩
      · cases hputs.symm.trans hb
        rw [← branch] at hc
        rcases placed with hparent | hmem
        · exact hparent (hu.parent hc)
        · exact hu.not_mem_roots hc hmem
      · cases hputs
    · intro hnot
      have hne : ∀ {p b}, t.otherwise? p = some b → b ≠ id := by
        rintro p b hb rfl
        exact hnot ⟨p, b, hb, .inl hputs⟩
      refine ⟨fun {p b} hb ↦ ?_, fun {p b} hb hmem ↦ ?_, fun {p q b} hb hb' ↦ ?_⟩
      · rw [branch] at hb
        exact parent b (hne hb) (hsole.parent hb)
      · rw [branch] at hb
        exact hsole.not_mem_roots hb (roots b (hne hb) hmem)
      · rw [branch] at hb hb'
        exact hsole.unique hb hb'
  | branched owner b size known branch parent roots hsets =>
    subst hsets
    constructor
    · rintro hu ⟨c, b', hc, hb | ⟨owner', hne, he⟩⟩
      · cases hb
      · obtain ⟨rfl, hb⟩ := Edit.setOtherwise.inj he
        cases hb
        refine hne (hu.unique (b := b) ?_ ?_)
        · rw [branch, if_pos rfl]
        · rw [branch, if_neg hne, hc]
    · intro hnot
      have hne : ∀ {p}, owner ≠ p → t.otherwise? p ≠ some b := fun hp hb ↦
        hnot ⟨_, b, hb, .inr ⟨owner, hp, rfl⟩⟩
      refine ⟨fun {p c} hc ↦ ?_, fun {p c} hc hmem ↦ ?_, fun {p q c} hc hc' ↦ ?_⟩
      · rw [parent]
        split
        · rfl
        · rename_i hcb
          rw [branch] at hc
          split at hc
          · exact absurd (Option.some.inj hc).symm hcb
          · exact hsole.parent hc
      · rw [roots, List.mem_filter, bne_iff_ne] at hmem
        rw [branch] at hc
        split at hc
        · exact hmem.2 (Option.some.inj hc).symm
        · exact hsole.not_mem_roots hc hmem.1
      · rw [branch] at hc hc'
        split at hc
        · rename_i hp
          split at hc'
          · rename_i hq
            exact hp.symm.trans hq
          · rename_i hq
            exact absurd (hc'.trans hc.symm) (hne hq)
        · rename_i hp
          split at hc'
          · exact absurd (hc.trans hc'.symm) (hne hp)
          · exact hsole.unique hc hc'
  | sprouted hext hnew roots hputs hsets =>
    refine iff_of_true (soleBranches_of_sprouting hsole hlinked hknown hext hnew roots) ?_
    rintro ⟨c, b, -, hb | ⟨owner, -, he⟩⟩
    · cases hputs.symm.trans hb
    · exact hsets owner b he

end Edit

/-! ## Histories -/

namespace Tree

variable {t : Tree} {e : Edit}

/-- **One edit** lets an element stand in two places exactly if it gives another place to a next
branch. -/
theorem singlyOwned_edited_iff (h : t.SinglyOwned) (hlinked : t.Linked) (hknown : t.KnownBranches)
    (hfresh : ∀ name element, e = .create name element → element.otherwise? = none) :
    (t.edited e).SinglyOwned ↔ ¬e.Shares t := by
  rw [singlyOwned_iff (hlinked.edited e)]
  rw [singlyOwned_iff hlinked] at h
  rw [Tree.edited]
  cases hu : e.apply t with
  | error r =>
    refine iff_of_true h ?_
    rintro ⟨⟨u, hok⟩, -⟩
    cases hu.symm.trans hok
  | ok u => exact (Edit.effect_apply hlinked hfresh hu).soleBranches_iff hu hlinked hknown h

theorem KnownBranches.edited (h : t.KnownBranches) (hlinked : t.Linked)
    (hfresh : ∀ name element, e = .create name element → element.otherwise? = none) :
    (t.edited e).KnownBranches := by
  rw [Tree.edited]
  cases hu : e.apply t with
  | error r => exact h
  | ok u => exact (Edit.effect_apply hlinked hfresh hu).knownBranches h

/-- No element is created with a next branch. -/
def Fresh (edits : List Edit) : Prop :=
  ∀ name element, Edit.create name element ∈ edits → element.otherwise? = none

theorem knownBranches_built {edits : List Edit} (hfresh : Fresh edits) :
    (built edits).KnownBranches := by
  induction edits using List.reverseRecOn with
  | nil => exact KnownBranches.empty
  | append_singleton past e ih =>
    rw [built_concat]
    refine (ih fun name element hmem ↦ hfresh name element (List.mem_append_left _ hmem)).edited
      (Linked.empty.foldl_edited past) ?_
    rintro name element rfl
    exact hfresh name element (List.mem_append_right _ List.mem_cons_self)

/-- **Places are not shared.** Along a history in which no element is created with a next branch, no
element ever stands in two places exactly as long as no edit gives another place to a next branch.
While this is so, the descendants of the roots are listed without repetition, and the shape has one
entry for each of them. -/
theorem singlyOwned_built_iff (edits : List Edit) (hfresh : Fresh edits) :
    ((∀ past, past <+: edits → (built past).SinglyOwned) ↔
      ∀ past e, past ++ [e] <+: edits → ¬e.Shares (built past)) ∧
    ∀ past, past <+: edits → (built past).SinglyOwned → (built past).Listed := by
  have hpast : ∀ {past}, past <+: edits → Fresh past := fun hpre name element hmem ↦
    hfresh name element (hpre.subset hmem)
  have hedit : ∀ {past e}, past ++ [e] <+: edits → (built past).SinglyOwned →
      ((built (past ++ [e])).SinglyOwned ↔ ¬e.Shares (built past)) := by
    intro past e hpre h
    rw [built_concat]
    refine singlyOwned_edited_iff h (Linked.empty.foldl_edited past)
      (knownBranches_built (hpast ((List.prefix_append past [e]).trans hpre))) ?_
    rintro name element rfl
    exact hfresh name element (hpre.subset (List.mem_append_right _ List.mem_cons_self))
  refine ⟨⟨fun h past e hpre ↦ ?_, fun h past ↦ ?_⟩, fun past hpre h ↦ ?_⟩
  · exact (hedit hpre (h past ((List.prefix_append past [e]).trans hpre))).mp (h _ hpre)
  · induction past using List.reverseRecOn with
    | nil => exact fun _ ↦ (singlyOwned_iff Linked.empty).mpr SoleBranches.empty
    | append_singleton past e ih =>
      intro hpre
      exact (hedit hpre (ih ((List.prefix_append past [e]).trans hpre))).mpr (h past e hpre)
  · exact h.listed (Linked.empty.foldl_edited past) (knownBranches_built (hpast hpre))

/-- A conditional with two further branches, which is copied. -/
def chained : List Edit :=
  [.create [] (.conditionDirective (some []) none), .create [] (.conditionDirective (some []) none),
    .create [] (.conditionDirective none none), .setOtherwise 0 (some 1),
    .setOtherwise 1 (some 2), .addRoot 0, .copy 0, .addRoot 5]

theorem singlyOwned_built_iff_chained : Fresh chained ∧ (built chained).roots = [0, 5] ∧
    (((∀ past, past <+: chained → (built past).SinglyOwned) ↔
      ∀ past e, past ++ [e] <+: chained → ¬e.Shares (built past)) ∧
    ∀ past, past <+: chained → (built past).SinglyOwned → (built past).Listed) := by
  have hfresh : Fresh chained := by
    intro name element hmem
    simp only [chained, List.mem_cons, List.not_mem_nil, Edit.create.injEq, or_false,
      reduceCtorEq] at hmem
    obtain ⟨-, rfl⟩ | ⟨-, rfl⟩ | ⟨-, rfl⟩ := hmem <;> rfl
  exact ⟨hfresh, by decide +kernel, singlyOwned_built_iff chained hfresh⟩

/-- A branch that is the next one of another and becomes a root. -/
def rootedBranch : List Edit :=
  [.create [] (.conditionDirective (some []) none), .create [] (.conditionDirective none none),
    .setOtherwise 0 (some 1), .addRoot 1]

/-- A history may lead to an element that stands in two places. -/
theorem not_forall_singlyOwned_built :
    ¬∀ edits, Fresh edits → (built edits).SinglyOwned := by
  intro h
  have hfresh : Fresh rootedBranch := by
    intro name element hmem
    simp only [rootedBranch, List.mem_cons, List.not_mem_nil, Edit.create.injEq, or_false,
      reduceCtorEq] at hmem
    obtain ⟨-, rfl⟩ | ⟨-, rfl⟩ := hmem <;> rfl
  cases h rootedBranch hfresh (.root 0) (.branch 0) 1 (by decide +kernel) (by decide +kernel)

end Tree

end SharpOutline
