import SharpOutline.Proofs.Block.Counts
import SharpOutline.Proofs.Document.Descent
import SharpOutline.Proofs.Document.Ownership

/-!
# What steps add to a block

Steps are taken from the start of a source text, after each other, after a fault, and in the blocks
that a step opens (`Document.Reached`). A step that opens a block reads all of it. What happens
there does not show in the rows of the block around it, since everything that receives elements
meanwhile is newer than these rows (`Machine.Inside`); only then is the element added that opened
the block.

So what a step has appended to the rows of its block is what it says, and besides the comments that
had waited if it has made elements of them (`Document.Reached.step_appends`). These it never counts.
-/

namespace SharpOutline

open SharpOutline.Tree Drafting

/-! ## Rows that are older -/

/-- All open scopes of the block were created when the tree had `n` elements, or later. -/
def Block.Since (n : Nat) (b : Block) : Prop := ∀ s ∈ b.scopes, n ≤ s.owner

theorem Block.Since.not_mem_places {b : Block} {n o : Nat} (h : b.Since n) (ho : o < n) :
    some o ∉ b.places := by
  intro hmem
  rcases List.mem_cons.mp hmem with hmem | hmem
  · cases hmem
  · obtain ⟨s, hs, heq⟩ := List.mem_map.mp hmem
    have hle := h s hs
    cases heq
    omega

namespace Draft

variable {n : Nat} {d d' : Draft} {step : Step} {ids : List ElementId} {w : Bool}

/-- Nothing was put beneath the first `n` elements, and nothing will be in this block. -/
structure Spares (n : Nat) (d d' : Draft) : Prop where
  size : d.tree.size ≤ d'.tree.size
  since : d'.block.Since n
  listOf_eq : ∀ o < n, d'.tree.listOf o .children = d.tree.listOf o .children

theorem Receives.spares (h : d.Receives d.tree.size ids d') (hn : n ≤ d.tree.size)
    (hd : d.block.Since n) : d.Spares n d' := by
  refine ⟨h.size, fun s hs ↦ hd s (h.scopes ▸ hs), fun o ho ↦ ?_⟩
  have hrow : d'.row (some o) = _ := h.row fun y hy ↦ by
    cases hy
    exact Nat.lt_of_lt_of_le ho hn
  rw [if_neg, List.append_nil] at hrow
  · exact hrow
  · intro howner
    exact hd.not_mem_places ho (howner ▸ Block.ownerOf_mem_places (List.Subset.refl _))

theorem Reports.spares (h : d.Reports w step d') (hn : n ≤ d.tree.size) (hd : d.block.Since n) :
    d.Spares n d' := by
  obtain ⟨p, q, settled, produced, hadds, -⟩ := h
  refine ⟨hadds.size, fun s hs ↦ ?_, fun o ho ↦ ?_⟩
  · rcases hadds.scopes s hs with hs | ⟨hle, -⟩
    · exact hd s hs
    · exact hn.trans hle
  · have hrow : d'.row (some o) = _ := hadds.row fun y hy ↦ by
      cases hy
      exact Nat.lt_of_lt_of_le ho hn
    rw [if_neg, if_neg, List.append_nil, List.append_nil] at hrow
    · exact hrow
    · exact fun hq ↦ hd.not_mem_places ho (hq ▸ hadds.produced_at)
    · exact fun hp ↦ hd.not_mem_places ho (hp ▸ hadds.settled_at)

end Draft

namespace Drafting

variable {d d' : Draft} {around : List Stem} {step : Step} {f : Frame} {e : Fault}

/-! ## The end of a block inside -/

/-- A block that has ended is added to the block around it as one element. -/
theorem leave_produces (h : d.Holds [] (f.stems ++ around)) (hf : Text.Begun f.block.text)
    (hx : leave f d = .ok step d') :
    ∃ e : Draft, e.block = f.block ∧ e.tree.size = d.tree.size ∧
      (∀ o ≠ f.owner, e.tree.listOf o .children = d.tree.listOf o .children) ∧
      e.Produces f.owner step d' := by
  obtain ⟨e, hend, hemit⟩ := leave_eq_ok hx
  obtain ⟨hlinked, hmade, ids, htree⟩ := exists_adopted_of_endBlock h hend
  have hlt : f.owner < d.tree.size := by
    have hmem : ownerStem f.owner f.ending ∈ [] ++ (d.block.stems ++ (f.stems ++ around)) := by
      simp [Frame.stems]
    simpa [head_ownerStem] using h.made.lt_of_mem hmem
  refine ⟨{ e with block := f.block }, rfl, ?_, fun o ho ↦ ?_,
    counts_emitMember _ (holds_of_madeOf_frame hlinked hmade hf) hemit⟩
  · rw [htree, size_adopted]
  · rw [htree, listOf_adopted hlt, if_neg fun hand ↦ ho hand.1]

/-- The tree is made of what is held around, and of whatever was lost before. -/
def Spilled (t : Tree) (around : List Stem) : Prop :=
  t.Linked ∧ ∃ spilled, t.MadeOf (spilled ++ around)

theorem spilled_of_holds {hand : List Stem} (h : d.Holds hand around) : Spilled d.tree around :=
  ⟨h.linked, hand ++ d.block.stems, by rw [List.append_assoc]; exact h.made⟩

theorem Spilled.of_append {t : Tree} {extra : List Stem} (h : Spilled t (extra ++ around)) :
    Spilled t around := by
  obtain ⟨hlinked, spilled, hmade⟩ := h
  exact ⟨hlinked, spilled ++ extra, by rwa [List.append_assoc]⟩

theorem Spilled.holds {t : Tree} {c : Cursor} (h : Spilled t (f.stems ++ around))
    (hf : Text.Begun f.block.text) : ∃ spilled, Draft.Holds ⟨c, t, f.block⟩ spilled around := by
  obtain ⟨hlinked, spilled, hmade⟩ := h
  refine ⟨spilled ++ [ownerStem f.owner f.ending], hlinked, ?_, hf⟩
  simpa [Frame.stems] using hmade

theorem spilled_of_endBlock (h : d.Holds [] (f.stems ++ around))
    (hx : endBlock f d = .error e d') : Spilled d'.tree (f.stems ++ around) := by
  rcases bind_eq_error.mp hx with hx | ⟨ids, d₁, hfinish, hx⟩
  · obtain ⟨spilled, hspilled⟩ := tame_finishBlock.spills h hx
    exact spilled_of_holds hspilled
  · obtain ⟨hlinked, hmade⟩ := holds_finishBlock h hfinish
    have hbears : (ownerStem f.owner f.ending).Bears f.owner := by
      have := (ownerStem f.owner f.ending).bears_head
      rwa [head_ownerStem] at this
    have hput := foldlM_addChild_eq hlinked hmade (by simp [Frame.stems]) hbears
    have hedit := editAll_eq_ok (a := ()).mpr ⟨_, hput, rfl⟩
    rcases bind_eq_error.mp hx with hx | ⟨⟨⟩, d₂, hedited, hx⟩
    · exact absurd hx (ne_error_of_ok hedit)
    · obtain ⟨hlinked, hmade, -⟩ := holds_editAll_of_finishBlock h hfinish hedited
      obtain ⟨c, -, rfl⟩ := read_eq_error hx
      exact ⟨hlinked, [], hmade⟩

theorem exists_holds_of_leave (h : d.Holds [] (f.stems ++ around)) (hf : Text.Begun f.block.text)
    (hx : leave f d = .error e d') : ∃ spilled, d'.Holds spilled around := by
  unfold leave at hx
  split at hx
  · rename_i d₁ hend
    obtain ⟨rfl, rfl⟩ := EStateM.Result.error.inj hx
    exact (spilled_of_endBlock h hend).holds hf
  · rename_i d₁ hend
    obtain ⟨hlinked, hmade⟩ := holds_endBlock h hend
    exact spills_emitMember f.owner (holds_of_madeOf_frame hlinked hmade hf) hx

end Drafting

/-! ## A block inside -/

namespace Machine

variable {m : RegionMarkers} {s s' : Machine} {d : Draft} {step : Step} {around : List Stem}
  {n : Nat} {t : Tree} {e : Fault}

/-- The machine reads a block that was opened when the tree `t` had `n` elements. Whatever has
received an element since is newer. -/
structure Inside (n : Nat) (t : Tree) (around : List Stem) (s : Machine) : Prop where
  holds : s.HoldsAmid around
  size : n ≤ s.draft.tree.size
  since : s.draft.block.Since n
  frames : ∀ f ∈ s.frames, n ≤ f.owner ∧ f.block.Since n
  listOf_eq : ∀ o < n, s.draft.tree.listOf o .children = t.listOf o .children

namespace Inside

theorem moves (h : s.Inside n t around) (hm : Moves m s step s') : s'.Inside n t around := by
  have hholds := h.holds.moves hm
  cases hm with
  | opened ha =>
    obtain ⟨howner, hreceives⟩ := agrees_advance h.holds.draft ha
    have hspares := hreceives.spares h.size h.since
    refine ⟨hholds, h.size.trans hspares.size, by simp [Block.Since], ?_,
      fun o ho ↦ (hspares.listOf_eq o ho).trans (h.listOf_eq o ho)⟩
    rintro f (_ | ⟨_, hf⟩)
    · exact ⟨howner ▸ h.size, hspares.since⟩
    · exact h.frames f hf
  | ended ha hframes =>
    have hspares := (agrees_advance h.holds.draft ha).spares h.size h.since
    exact ⟨hholds, h.size.trans hspares.size, hspares.since, by simp,
      fun o ho ↦ (hspares.listOf_eq o ho).trans (h.listOf_eq o ho)⟩
  | @left f frames d d' step ha hframes hleave =>
    have hspares := (agrees_advance h.holds.draft ha).spares h.size h.since
    have hd := (tame_advance m).tends h.holds.draft ha
    rw [hframes, List.flatMap_cons, List.append_assoc] at hd
    have hf : f ∈ s.frames := by simp [hframes]
    obtain ⟨e, hblock, hsize, hlist, ids, -, -, hreceives⟩ :=
      leave_produces hd (h.holds.text f hf) hleave
    have hn : n ≤ e.tree.size := hsize ▸ h.size.trans hspares.size
    have hspares' := hreceives.spares hn (hblock ▸ (h.frames f hf).2)
    refine ⟨hholds, hn.trans hspares'.size, hspares'.since, fun g hg ↦ h.frames g ?_,
      fun o ho ↦ ?_⟩
    · simp [hframes, hg]
    · -- the element that opened the block is newer as well
      have hne : o ≠ f.owner := Nat.ne_of_lt (Nat.lt_of_lt_of_le ho (h.frames f hf).1)
      rw [hspares'.listOf_eq o ho, hlist o hne, hspares.listOf_eq o ho, h.listOf_eq o ho]
  | stepped ha hstep =>
    have hspares := (agrees_advance h.holds.draft ha).spares h.size h.since
    exact ⟨hholds, h.size.trans hspares.size, hspares.since, h.frames,
      fun o ho ↦ (hspares.listOf_eq o ho).trans (h.listOf_eq o ho)⟩

theorem run (h : s.Inside n t around) (hrun : run m s = .ok () d) : Inside n t around ⟨d, []⟩ :=
  run_induction (fun h hm ↦ h.moves hm) h hrun

end Inside

/-- A fault in a block inside, however deep, loses nothing that is held around. -/
theorem spilled_of_run (h : s.HoldsAmid around) (hrun : run m s = .error e d) :
    Spilled d.tree around := by
  fun_induction run m s with
  | case1 s e' s' hm =>
    obtain ⟨rfl, rfl⟩ := EStateM.Result.error.inj hrun
    rw [tree_base]
    cases stops_of_move hm with
    | stepped ha =>
      obtain ⟨spilled, hspilled⟩ := (tame_advance m).spills h.draft ha
      exact (spilled_of_holds hspilled).of_append
    | @left f frames d d' ha hframes hleave =>
      have hd := (tame_advance m).tends h.draft ha
      rw [hframes, List.flatMap_cons, List.append_assoc] at hd
      obtain ⟨spilled, hspilled⟩ :=
        exists_holds_of_leave hd (h.text f (by simp [hframes])) hleave
      exact (spilled_of_holds hspilled).of_append
  | case2 s s' hm => cases hrun
  | case3 s step s' hm hstep hlt ih => exact ih (h.moves (moves_of_move hm)) hrun

end Machine

/-! ## Steps -/

namespace Drafting

variable {m : RegionMarkers} {d d' : Draft} {step : Step} {around : List Stem} {e : Fault}

theorem inside_of_opened {owner : ElementId} {ending : Ending} (h : d.Holds [] around)
    (ha : advance m d = .ok (.opened owner ending) d') :
    Machine.Inside d.tree.size d'.tree ((Frame.mk owner ending d'.block).stems ++ around)
      ⟨{ d' with block := {} }, []⟩ := by
  have hd := (tame_advance m).tends h ha
  obtain ⟨-, hreceives⟩ := agrees_advance h ha
  exact ⟨⟨⟨hd.linked, hd.made, .nil⟩, by simp⟩, hreceives.size, by simp [Block.Since], by simp,
    fun _ _ ↦ rfl⟩

/-- Reading a block inside does not show in the rows around it. -/
theorem reports_of_opened {owner : ElementId} {ending : Ending} {d₁ d₂ : Draft}
    (h : d.Holds [] around) (ha : advance m d = .ok (.opened owner ending) d₁)
    (hrun : Machine.run m ⟨{ d₁ with block := {} }, []⟩ = .ok () d₂)
    (hleave : leave ⟨owner, ending, d₁.block⟩ d₂ = .ok step d') :
    d.Reports (maySettle d.cursor.peek) step d' ∧ d'.Holds [] around := by
  have hd₁ := (tame_advance m).tends h ha
  obtain ⟨howner, hreceives⟩ := agrees_advance h ha
  have hinside := (inside_of_opened h ha).run hrun
  have hd₂ := hinside.holds.draft
  rw [List.flatMap_nil, List.nil_append] at hd₂
  refine ⟨?_, holds_leave hd₂ hd₁.text hleave⟩
  obtain ⟨e, hblock, hsize, hlist, hproduces⟩ := leave_produces hd₂ hd₁.text hleave
  have hkept : d.Receives d.tree.size [] e := by
    refine .of_listOf (hsize ▸ hinside.size) (hblock ▸ hreceives.scopes) ?_ fun o ho ↦ ?_
    · rw [hblock]
      simpa [Draft.row] using hreceives.row (p := none) (by simp [IsPlaceBefore])
    · have hrow := hreceives.row (p := some o) (by simpa [IsPlaceBefore] using ho)
      rw [hlist o (howner ▸ Nat.ne_of_lt ho), hinside.listOf_eq o ho]
      simpa [Draft.row] using hrow
  exact (hkept.trans_produces hproduces).reports h (Nat.le_of_eq howner.symm)

/-- A step says what it has added to the rows of its block. -/
theorem reports_step (h : d.Holds [] around) (hx : Drafting.step m d = .ok step d') :
    d.Reports (maySettle d.cursor.peek) step d' ∧ d'.Holds [] around := by
  cases ha : advance m d with
  | error e d₁ => exact absurd (step_of_error ha) (by rw [hx]; nofun)
  | ok signal d₁ =>
    cases signal with
    | done s =>
      cases hx.symm.trans (step_of_done ha)
      exact ⟨agrees_advance h ha, (tame_advance m).tends h ha⟩
    | opened owner ending =>
      rw [step_of_opened ha] at hx
      cases hrun : Machine.run m ⟨{ d₁ with block := {} }, []⟩ with
      | error e d₂ =>
        rw [hrun] at hx
        cases hx
      | ok a d₂ =>
        rw [hrun] at hx
        exact reports_of_opened h ha hrun hx

/-- A step that fails loses only what was held in its block. -/
theorem exists_holds_of_step (h : d.Holds [] around) (hx : Drafting.step m d = .error e d') :
    ∃ spilled, d'.Holds spilled around := by
  cases ha : advance m d with
  | error e₁ d₁ =>
    obtain ⟨rfl, rfl⟩ := EStateM.Result.error.inj (hx.symm.trans (step_of_error ha))
    exact (tame_advance m).spills h ha
  | ok signal d₁ =>
    cases signal with
    | done s => exact absurd hx (ne_error_of_ok (step_of_done ha))
    | opened owner ending =>
      have hd₁ := (tame_advance m).tends h ha
      have hinside := inside_of_opened h ha
      rw [step_of_opened ha] at hx
      cases hrun : Machine.run m ⟨{ d₁ with block := {} }, []⟩ with
      | error e₂ d₂ =>
        rw [hrun] at hx
        obtain ⟨rfl, rfl⟩ := EStateM.Result.error.inj hx
        exact (Machine.spilled_of_run hinside.holds hrun).holds hd₁.text
      | ok a d₂ =>
        rw [hrun] at hx
        have hd₂ := (hinside.run hrun).holds.draft
        rw [List.flatMap_nil, List.nil_append] at hd₂
        exact exists_holds_of_leave hd₂ hd₁.text hx

end Drafting

/-! ## Places -/

theorem flatMap_ite_eq {α β : Type} [DecidableEq α] {l : List α} {p : α} (hl : l.Nodup)
    (hp : p ∈ l) (ids : List β) : (l.flatMap fun r ↦ if r = p then ids else []) = ids := by
  induction l with
  | nil => cases hp
  | cons r l ih =>
    obtain ⟨hr, hl⟩ := List.nodup_cons.mp hl
    rw [List.flatMap_cons]
    rcases List.mem_cons.mp hp with rfl | hp
    · rw [if_pos rfl, List.append_right_eq_self, List.flatMap_eq_nil_iff]
      exact fun y hy ↦ if_neg (ne_of_mem_of_not_mem hy hr)
    · rw [if_neg (ne_of_mem_of_not_mem hp hr).symm, List.nil_append, ih hl hp]

namespace Draft

variable {d d' : Draft} {hand around : List Stem} {p q : Option ElementId}
  {settled produced : List ElementId} {w : Bool}

theorem stem_mem_held {s : Scope} (hs : s ∈ d.block.scopes) :
    s.stem ∈ hand ++ (d.block.stems ++ around) :=
  List.mem_append_right _ (List.mem_append_left _ (Block.stem_mem_stems hs))

theorem Holds.isPlaceBefore (h : d.Holds hand around) (hp : p ∈ d.block.places) :
    IsPlaceBefore d.tree.size p := by
  rintro o rfl
  obtain ⟨s, hs, heq⟩ := List.mem_map.mp ((List.mem_cons.mp hp).resolve_left nofun)
  cases heq
  have hmem : s.stem ∈ hand ++ (d.block.stems ++ around) := stem_mem_held hs
  exact h.made.lt_of_reached (h.made.lt_of_mem hmem) (s.bears_owner (h.made.fits hmem))

theorem Holds.nodup_places (h : d.Holds hand around) : d.block.places.Nodup := by
  have hheads : (d.block.scopes.map fun s ↦ s.stem.head).Nodup := by
    have hnodup := h.made.forest.nodup
    simp only [Block.stems, List.map_append, List.map_map, List.nodup_append] at hnodup
    exact hnodup.2.1.1.2.1.2.1.1
  refine List.nodup_cons.mpr ⟨by simp, ?_⟩
  refine List.pairwise_map.mpr ((List.pairwise_map.mp hheads).imp_of_mem ?_)
  -- each owner hangs from the stem of its own scope
  intro s s' hs hs' hne heq
  have howner : s.owner = s'.owner := Option.some.inj heq
  refine hne (h.made.forest.head_unique (List.mem_map_of_mem (stem_mem_held hs))
    (List.mem_map_of_mem (stem_mem_held hs')) (s.bears_owner (h.made.fits (stem_mem_held hs))) ?_)
  rw [howner]
  exact s'.bears_owner (h.made.fits (stem_mem_held hs'))

theorem Holds.not_mem_row (h : d.Holds hand around) {c : ElementId} (hc : c ∈ d.block.comments)
    (p : Option ElementId) : c ∉ d.row p := by
  have hmem : Stem.note c ∈ hand ++ (d.block.stems ++ around) := by simp [Block.stems, hc]
  cases p with
  | none =>
    intro he
    have hwhole : Stem.whole c ∈ hand ++ (d.block.stems ++ around) := by
      simp only [Block.stems, List.mem_append, List.mem_map]
      exact .inr (.inl (.inr (.inr (.inr ⟨c, he, rfl⟩))))
    have hrest := (List.mem_erase_of_ne (a := Stem.whole c) (b := .note c) nofun).mpr hwhole
    exact (h.made.perm (List.perm_cons_erase hmem)).head_ne hrest rfl
  | some o => exact h.made.not_mem_listOf hmem o .children

/-- What has been appended to the rows of a block, in any order. No row has lost anything, and a
scope that was opened has nothing in its row. -/
structure Appends (d : Draft) (ids : List ElementId) (d' : Draft) : Prop where
  grows : ∀ p ∈ d.block.places, d.row p <+: d'.row p
  rows : (d.block.places.flatMap d'.row).Perm (d.block.places.flatMap d.row ++ ids)
  opened : ∀ s ∈ d'.block.scopes, s ∉ d.block.scopes → d'.row (some s.owner) = []

theorem Adds.appends (h : d.Adds w p q settled produced d') (hd : d.Holds hand around) :
    d.Appends (settled ++ produced) d' := by
  refine ⟨fun r hr ↦ ?_, ?_, fun s hs hnew ↦ ((h.scopes s hs).resolve_left hnew).2⟩
  · rw [h.row (hd.isPlaceBefore hr)]
    exact List.prefix_append ..
  · have hrows : d.block.places.flatMap d'.row = d.block.places.flatMap fun r ↦ d.row r ++
        ((if r = p then settled else []) ++ if r = q then produced else []) :=
      List.flatMap_congr fun r hr ↦ h.row (hd.isPlaceBefore hr)
    rw [hrows]
    refine (List.flatMap_append_perm ..).symm.trans (.append_left _ ?_)
    refine (List.flatMap_append_perm ..).symm.trans (.of_eq ?_)
    rw [flatMap_ite_eq hd.nodup_places h.settled_at, flatMap_ite_eq hd.nodup_places h.produced_at]

/-- The comments that had waited have settled if they stand in a row now. -/
theorem Adds.settled_eq_nil_iff (h : d.Adds w p q settled produced d') (hd : d.Holds hand around) :
    settled = [] ↔ ∀ c ∈ d.block.comments, ∀ r ∈ d.block.places, c ∉ d'.row r := by
  constructor
  · rintro rfl c hc r hr
    rw [h.row (hd.isPlaceBefore hr), ite_self, List.nil_append, List.mem_append]
    rintro (hrow | hproduced)
    · exact hd.not_mem_row hc r hrow
    · split at hproduced
      · exact h.apart c hproduced hc
      · cases hproduced
  · intro hnone
    rcases h.waited with hnil | ⟨-, rfl⟩
    · exact hnil
    · refine List.eq_nil_iff_forall_not_mem.mpr fun c hc ↦ hnone c hc p h.settled_at ?_
      rw [h.row (hd.isPlaceBefore h.settled_at), if_pos rfl]
      simp [hc]

end Draft

/-! ## Where steps lead -/

namespace Document

variable {m : RegionMarkers} {source : Text} {d d' : Draft} {step : Step}

/-- What is reached from the start of a source text by steps. A step that has failed may be followed
by others, and steps may be taken in a new block, in particular in one that an element opens. -/
inductive Reached (m : RegionMarkers) (source : Text) : Draft → Prop
  | start : Reached m source (start source)
  | stepped {d d' : Draft} {step : Step} (h : Reached m source d)
      (hstep : Drafting.step m d = .ok step d') : Reached m source d'
  | failed {d d' : Draft} {e : Fault} (h : Reached m source d)
      (hstep : Drafting.step m d = .error e d') : Reached m source d'
  | opened {d d' : Draft} {owner : ElementId} {ending : Ending} (h : Reached m source d)
      (hopen : Drafting.advance m d = .ok (.opened owner ending) d') :
      Reached m source { d' with block := {} }
  | anew {d : Draft} (h : Reached m source d) : Reached m source { d with block := {} }

namespace Reached

theorem holds (h : Reached m source d) : ∃ around, d.Holds [] around := by
  induction h with
  | start => exact ⟨[], by simpa using (holds_start source).draft⟩
  | stepped h hstep ih =>
    obtain ⟨around, hd⟩ := ih
    exact ⟨around, (reports_step hd hstep).2⟩
  | failed h hstep ih =>
    obtain ⟨around, hd⟩ := ih
    obtain ⟨spilled, hspilled⟩ := exists_holds_of_step hd hstep
    exact ⟨spilled ++ around, Draft.Holds.aside_iff.mp hspilled⟩
  | opened h hopen ih =>
    obtain ⟨around, hd⟩ := ih
    exact ⟨_, by simpa using (inside_of_opened hd hopen).holds.draft⟩
  | anew h ih =>
    obtain ⟨around, hd⟩ := ih
    exact ⟨_, hd.linked, hd.made, .nil⟩

/-- **Steps count what they add, but not comments that have waited.** What a step has appended to
the rows of its block are as many elements as it says, and before them the comments that had waited,
if these stand in a row now. That happens only where a directive, a comment or an attribute
starts. -/
theorem step_appends (h : Reached m source d) (hstep : Drafting.step m d = .ok step d') :
    ∃ settled produced, d.Appends (settled ++ produced) d' ∧ produced.length = step.count ∧
      (∀ x ∈ produced, x ∉ d.block.comments) ∧
      (settled = [] ∨ maySettle d.cursor.peek = true ∧ settled = d.block.comments) ∧
      (settled = [] ↔ ∀ c ∈ d.block.comments, ∀ p ∈ d.block.places, c ∉ d'.row p) := by
  obtain ⟨around, hd⟩ := h.holds
  obtain ⟨⟨p, q, settled, produced, hadds, hcount⟩, -⟩ := reports_step hd hstep
  exact ⟨settled, produced, hadds.appends hd, hcount, hadds.apart, hadds.waited,
    hadds.settled_eq_nil_iff hd⟩

/-- A source text with a comment before an attribute that stands alone. -/
def assemblySource : Text := "// c\n[assembly: A]\n".toList

/-- What a step answers and leaves, if it succeeds. -/
def stepped? (m : RegionMarkers) (d : Draft) : Option (Step × Draft) :=
  match Drafting.step m d with
  | .ok step d' => some (step, d')
  | .error _ _ => none

theorem stepped?_eq_some {r : Step × Draft} (h : stepped? m d = some r) :
    Drafting.step m d = .ok r.1 r.2 := by
  unfold stepped? at h
  split at h
  · rename_i hstep
    cases h
    exact hstep
  · cases h

/-- The second step reads the attribute. It appends two elements and counts one. -/
theorem exists_step_assemblySource : ∃ m d d', markers {} = .ok m ∧
    Reached m assemblySource d ∧ Drafting.step m d = .ok (.produced 1) d' ∧
    d.block.comments.length = 1 ∧ (d.block.places.flatMap d.row).length = 0 ∧
    (d.block.places.flatMap d'.row).length = 2 := by
  have hsource : ((markers {}).toOption.bind fun m ↦
      (stepped? m (Document.start assemblySource)).bind fun r ↦ (stepped? m r.2).map fun r' ↦
        (r'.1, r.2.block.comments.length, (r.2.block.places.flatMap r.2.row).length,
          (r.2.block.places.flatMap r'.2.row).length)) = some (.produced 1, 1, 0, 2) := by
    decide +kernel
  obtain ⟨m, hm, hsource⟩ := Option.bind_eq_some_iff.mp hsource
  obtain ⟨r, hr, hsource⟩ := Option.bind_eq_some_iff.mp hsource
  obtain ⟨r', hr', heq⟩ := Option.map_eq_some_iff.mp hsource
  obtain ⟨hstep, hcomments, hbefore, hafter⟩ : r'.1 = .produced 1 ∧ _ ∧ _ ∧ _ := by
    simpa only [Prod.mk.injEq] using heq
  refine ⟨m, r.2, r'.2, toOption_eq_some.mp hm, .stepped .start (stepped?_eq_some hr), ?_,
    hcomments, hbefore, hafter⟩
  rw [stepped?_eq_some hr', hstep]

theorem step_appends_assemblySource : ∃ m d d', Reached m assemblySource d ∧
    Drafting.step m d = .ok (.produced 1) d' ∧ d.block.comments.length = 1 ∧
    ∃ settled produced, d.Appends (settled ++ produced) d' ∧ produced.length = 1 ∧
      settled = d.block.comments := by
  obtain ⟨m, d, d', -, hreached, hstep, hcomments, hbefore, hafter⟩ := exists_step_assemblySource
  obtain ⟨settled, produced, happends, hcount, -, hsettled, -⟩ := step_appends hreached hstep
  refine ⟨m, d, d', hreached, hstep, hcomments, settled, produced, happends, hcount, ?_⟩
  rcases hsettled with rfl | ⟨-, hsettled⟩
  · -- two elements are more than the one that was counted
    have hlength := happends.rows.length_eq
    rw [List.nil_append, List.length_append, hbefore, hafter, hcount] at hlength
    cases hlength
  · exact hsettled

/-- A step may append more elements than it counts. -/
theorem step_count_ne_assemblySource : ¬∀ m source d step d', Reached m source d →
    Drafting.step m d = .ok step d' → (d.block.places.flatMap d'.row).length =
      (d.block.places.flatMap d.row).length + step.count := by
  intro h
  obtain ⟨m, d, d', -, hreached, hstep, -, hbefore, hafter⟩ := exists_step_assemblySource
  have heq := h m assemblySource d _ d' hreached hstep
  rw [hbefore, hafter] at heq
  cases heq

end Reached

end Document

end SharpOutline
