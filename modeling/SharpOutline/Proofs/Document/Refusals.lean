import SharpOutline.Proofs.Document.Waiting

/-!
# Edits that are refused while a document is read

The element that opened a block is a declaration, so at the end of the block it may get what waits
for it around the block. The blocks that wait know of what kind their elements are, and elements
keep their kinds (`Machine.Sorted`). So the faults of a run of the machine are foreseen, and of all
the reasons to refuse an edit a source text can bring about only three
(`Document.refusal_parseWith`).
-/

namespace SharpOutline

open SharpOutline.Tree Drafting

/-! ## The end of a block -/

namespace Drafting

variable {f : Frame} {d d' : Draft} {around : List Stem} {e : Fault}

theorem bears_ownerStem (owner : ElementId) (ending : Ending) :
    (ownerStem owner ending).Bears owner := by
  have hbears := (ownerStem owner ending).bears_head
  rwa [head_ownerStem] at hbears

theorem foreseen_endBlock (h : d.Holds [] (f.stems ++ around)) (hsorted : d.block.Sorted d.tree)
    (hx : endBlock f d = .error e d') : e.Foreseen := by
  obtain hx | ⟨ids, d₁, hfinish, hx⟩ := bind_eq_error.mp hx
  · exact ((tame_finishBlock d).lost h hx).2 hsorted
  obtain ⟨hlinked, hmade⟩ := holds_finishBlock h hfinish
  obtain hx | ⟨⟨⟩, d₂, hedit, hx⟩ := bind_eq_error.mp hx
  · -- The owner is a stem apart from those of the block, so these can be put beneath it.
    refine absurd hx (ne_error_of_ok (editAll_eq_ok (a := ()).mpr ⟨_,
      foldlM_addChild_eq hlinked hmade (r := ownerStem f.owner f.ending) ?_ (bears_ownerStem _ _),
      rfl⟩))
    exact List.mem_append_left _ List.mem_cons_self
  · unfold Drafting.read at hx
    split at hx
    · cases hx
    · rename_i hread
      cases hx
      exact (tidy_readEnding f.ending).foreseen hread

/-- The block around goes on with the element that opened the block. -/
theorem tame_resume (h : d.Holds [] (f.stems ++ around)) (htext : Text.Begun f.block.text)
    (hframe : f.block.Sorted d.tree) (howner : d.tree.Declares f.owner)
    (hend : endBlock f d = .ok () d') :
    Draft.Holds { d' with block := f.block } [.whole f.owner] around ∧ f.block.Sorted d'.tree ∧
      TameAt (emitMember f.owner) [.whole f.owner] (fun _ ↦ []) { d' with block := f.block } := by
  have hspares : Spares 0 d.tree d'.tree := spares_endBlock hend
  refine ⟨?_, hframe.mono hspares (List.Subset.refl _) (List.Subset.refl _),
    tameAt_emitMember (howner.spares hspares)⟩
  obtain ⟨hlinked, hmade⟩ := holds_endBlock h hend
  have hheld : Draft.Holds { d' with block := f.block } [ownerStem f.owner f.ending] around :=
    ⟨hlinked, hmade, htext⟩
  have hwhole := hheld.weaken
  rwa [head_ownerStem] at hwhole

theorem tame_leave (h : d.Holds [] (f.stems ++ around)) (htext : Text.Begun f.block.text)
    (hsorted : d.block.Sorted d.tree) (hframe : f.block.Sorted d.tree)
    (howner : d.tree.Declares f.owner) :
    (∀ step d', leave f d = .ok step d' → d'.block.Sorted d'.tree ∧ Spares 0 d.tree d'.tree) ∧
      ∀ e d', leave f d = .error e d' → e.Foreseen := by
  constructor
  · intro step d' hx
    obtain ⟨d₁, hend, hemit⟩ := leave_eq_ok hx
    obtain ⟨hholds, hsorted₁, htame⟩ := tame_resume h htext hframe howner hend
    have hspares : Spares 0 d.tree d₁.tree := spares_endBlock hend
    obtain ⟨ids, hgains⟩ :=
      (announces_emitMember f.owner hemit).gains (Nat.zero_le _) (Nat.zero_le _)
    exact ⟨(htame.kept hholds hemit).2 hsorted₁, hspares.trans hgains.spares⟩
  · intro e d' hx
    unfold leave at hx
    split at hx
    · rename_i hend
      cases hx
      exact foreseen_endBlock h hsorted hend
    · rename_i d₁ hend
      obtain ⟨hholds, hsorted₁, htame⟩ := tame_resume h htext hframe howner hend
      exact (htame.lost hholds hx).2 hsorted₁

end Drafting

/-! ## The machine -/

namespace Machine

variable {m : RegionMarkers} {s s' : Machine} {d : Draft} {step : Step} {e : Fault}

/-- All blocks know of what kind their elements are, and declarations have opened them. -/
structure Sorted (s : Machine) : Prop where
  block : s.draft.block.Sorted s.draft.tree
  frames : ∀ f ∈ s.frames, f.block.Sorted s.draft.tree ∧ s.draft.tree.Declares f.owner

theorem Sorted.keep {frames : List Frame} (h : s.Sorted) (hframes : frames ⊆ s.frames) {n : Nat}
    (hspares : Spares n s.draft.tree d.tree) :
    ∀ f ∈ frames, f.block.Sorted d.tree ∧ d.tree.Declares f.owner := by
  intro f hf
  obtain ⟨hblock, howner⟩ := h.frames f (hframes hf)
  exact ⟨hblock.mono hspares (List.Subset.refl _) (List.Subset.refl _), howner.spares hspares⟩

theorem Sorted.tame_leave {f : Frame} {frames : List Frame} (h : s.Sorted) (hholds : s.Holds)
    (hframes : s.frames = f :: frames) :
    (∀ step d', leave f s.draft = .ok step d' →
      d'.block.Sorted d'.tree ∧ Spares 0 s.draft.tree d'.tree) ∧
        ∀ e d', leave f s.draft = .error e d' → e.Foreseen := by
  have hmem : f ∈ s.frames := by simp [hframes]
  obtain ⟨hframe, howner⟩ := h.frames f hmem
  have hdraft := hholds.draft
  rw [hframes, List.flatMap_cons] at hdraft
  exact Drafting.tame_leave hdraft (hholds.text f hmem) h.block hframe howner

/-- **One move** keeps what is known. -/
theorem Sorted.moves (h : s.Sorted) (hholds : s.Holds) (hm : Moves m s step s') : s'.Sorted := by
  cases hm with
  | @opened owner ending d ha =>
    have hturn := turn_advance ha nofun
    have hframes := h.keep (List.Subset.refl _) hturn.spares
    refine ⟨.empty _, ?_⟩
    rintro f (_ | ⟨_, hf⟩)
    · refine ⟨((tame_advance m _).kept hholds.draft ha).2 h.block, ?_⟩
      cases hturn with
      | opened ho _ hnew =>
        obtain rfl : owner = s.draft.tree.size := Option.some.inj (Option.some.inj ho)
        obtain ⟨n, hn, hkind, -⟩ := hnew
        exact ⟨n.kind, kind?_of_get? hn, hkind⟩
      | wrote ho | held ho | member ho | other ho => cases ho  -- no block is opened
    · exact hframes f hf
  | ended ha hframes => exact ⟨((tame_advance m _).kept hholds.draft ha).2 h.block, by simp⟩
  | @left f frames d d' step ha hframes hleave =>
    obtain ⟨-, rfl⟩ := advance_eq_finished ha
    obtain ⟨hblock, hspares⟩ := (h.tame_leave hholds hframes).1 step d' hleave
    exact ⟨hblock, h.keep (by rw [hframes]; exact List.subset_cons_self _ _) hspares⟩
  | stepped ha hstep =>
    have hspares := (turn_advance ha fun hdone ↦ hstep (Signal.done.inj hdone)).spares
    exact ⟨((tame_advance m _).kept hholds.draft ha).2 h.block,
      h.keep (List.Subset.refl _) hspares⟩

/-- A move meets only foreseen faults. -/
theorem Sorted.foreseen_stops (h : s.Sorted) (hholds : s.Holds) (hm : Stops m s e s') :
    e.Foreseen := by
  cases hm with
  | stepped ha => exact ((tame_advance m _).lost hholds.draft ha).2 h.block
  | @left f frames d d' ha hframes hleave =>
    obtain ⟨-, rfl⟩ := advance_eq_finished ha
    exact (h.tame_leave hholds hframes).2 e d' hleave

/-- **A run** meets only foreseen faults. -/
theorem foreseen_run (h : s.Sorted) (hholds : s.Holds) (hrun : run m s = .error e d) :
    e.Foreseen := by
  fun_induction run m s with
  | case1 s e' s' hm =>
    cases hrun
    exact h.foreseen_stops hholds (stops_of_move hm)
  | case2 s s' hm => cases hrun
  | case3 s step s' hm hstep hlt ih =>
    have hmoves := moves_of_move hm
    exact ih (h.moves hholds hmoves) (hholds.moves hmoves) hrun

end Machine

/-! ## Documents -/

namespace Document

variable {m : RegionMarkers} {source : Text} {d : Draft} {e : Fault}

theorem sorted_start (source : Text) : Machine.Sorted ⟨start source, []⟩ := ⟨.empty _, by simp⟩

/-- Reading a document meets only foreseen faults: what is left when the outermost block has ended
can become the roots. -/
theorem foreseen_read (h : read m (start source) = .error e d) : e.Foreseen := by
  obtain h | ⟨ids, d₁, hblock, h⟩ := bind_eq_error.mp h
  · unfold readBlock at h
    split at h
    · rename_i hrun
      cases h
      exact Machine.foreseen_run (sorted_start source) (holds_start source) hrun
    · rename_i d₂ hrun
      obtain ⟨hholds, hsorted⟩ := Machine.run_induction (P := fun s ↦ s.Holds ∧ s.Sorted)
        (fun h hm ↦ ⟨h.1.moves hm, h.2.moves h.1 hm⟩) ⟨holds_start source, sorted_start source⟩ hrun
      split at h
      · rename_i hfinish
        cases h
        exact ((tame_finishBlock _).lost hholds.draft hfinish).2 hsorted.block
      · cases h
  · obtain ⟨d₂, e₂, hrun, hfinish, rfl⟩ := readBlock_eq_ok.mp hblock
    obtain h | ⟨c, d₃, hpeek, h⟩ := bind_eq_error.mp h
    · cases h
    cases hpeek
    split at h
    · cases h
      trivial
    · have hroots := foldlM_addRoot_of_madeOf (madeOf_of_run hrun hfinish).2
      exact absurd h (ne_error_of_ok (editAll_eq_ok (a := ()).mpr ⟨_, hroots, rfl⟩))

theorem foreseen_markers {s : MarkerSettings} {p : ParseError} (h : markers s = .error p) :
    p.fault.Foreseen := by
  have hpattern (t : Text) : Foreseeable (RegionMarkers.pattern Pattern.engine t) := by
    unfold RegionMarkers.pattern
    split
    · exact foreseeable_ok _
    · exact foreseeable_error trivial
  have hsettings : Foreseeable (RegionMarkers.ofSettings Pattern.engine s) :=
    (hpattern _).bind fun _ ↦ (hpattern _).bind fun _ ↦ foreseeable_ok _
  unfold markers at h
  split at h
  · cases h
  · rename_i hf
    cases h
    exact hsettings hf

theorem foreseen_parse {p : ParseError} (h : parse m source = .error p) : p.fault.Foreseen := by
  unfold parse at h
  split at h
  · cases h
  · rename_i hread
    cases h
    exact foreseen_read hread

/-- **Refusals that a source text can bring about.** Whatever the source text is and however regions
are marked, an edit is refused while the text is read only because an attribute is to be applied to
a namespace or to a using directive, or because a constraint follows the constructor constraint. No
element is put beneath itself, none is of another kind than expected, none gets comments that it
cannot have, and none is unknown. -/
theorem refusal_parseWith {m : RegionMarkers} {s : MarkerSettings} {source : Text} {p : ParseError}
    {r : Refusal} (h : parse m source = .error p ∨ parseWith s source = .error p)
    (hr : p.fault = .refused r) :
    r = .notAttributable .nameSpace ∨ r = .notAttributable .usingDirective ∨
      ∃ parameter, r = .constructorConstraintNotLast parameter := by
  have hforeseen : p.fault.Foreseen := by
    rcases h with h | h
    · exact foreseen_parse h
    · unfold parseWith at h
      cases hm : markers s with
      | error p' =>
        rw [hm] at h
        cases h
        exact foreseen_markers hm
      | ok m =>
        rw [hm] at h
        exact foreseen_parse (m := m) h
  rw [hr] at hforeseen
  exact hforeseen

/-- The reason for which an edit is refused while the text is read. -/
def refusal? (s : MarkerSettings) (source : Text) : Option Refusal :=
  match parseWith s source with
  | .error ⟨.refused r, _⟩ => some r
  | _ => none

theorem refusal?_eq_some_iff {s : MarkerSettings} {source : Text} {r : Refusal} :
    refusal? s source = some r ↔ ∃ p, parseWith s source = .error p ∧ p.fault = .refused r := by
  unfold refusal?
  cases parseWith s source with
  | ok t => simp
  | error p =>
    obtain ⟨_ | _, _⟩ := p
    all_goals simp

theorem refusals_reached :
    refusal? {} "[A] namespace N \x7b \x7d".toList = some (.notAttributable .nameSpace) ∧
      refusal? {} "[A] using B;".toList = some (.notAttributable .usingDirective) ∧
      refusal? {} "class C<T> where T : new(), D \x7b \x7d".toList =
        some (.constructorConstraintNotLast "T".toList) := by
  decide +kernel

theorem refusal_parseWith_attributed : ∃ p r,
    parseWith {} "[A] namespace N \x7b \x7d".toList = .error p ∧ p.fault = .refused r ∧
      (r = .notAttributable .nameSpace ∨ r = .notAttributable .usingDirective ∨
        ∃ parameter, r = .constructorConstraintNotLast parameter) := by
  obtain ⟨p, hp, hr⟩ := refusal?_eq_some_iff.mp refusals_reached.1
  exact ⟨p, _, hp, hr, refusal_parseWith (m := ⟨fun _ ↦ none, fun _ ↦ none⟩) (.inr hp) hr⟩

end Document

end SharpOutline
