import SharpOutline.Proofs.Block.Reactions
import SharpOutline.Proofs.Block.PlacedSteps

/-!
# Runs inside a longer text

A move of the machine in a text alone is a move of the machine in a longer text, as long as
something is left of the text or nothing follows it there (`Machine.Placed.moves`). The blocks that
wait have their numbers moved as well; only the outermost one had elements before.
-/

namespace SharpOutline

open Pairing Drafting

namespace Drafting

variable {w : Placement} {v : Text} {prior : List ElementId} {m : RegionMarkers}

/-! ## Characters -/

variable {c : Char} {d d' : Draft} {signal : Signal}

/-- The end of a line is a blank, whatever follows. -/
theorem still_react_newline : (w.pairing prior).Still (Signal.shift w.before.size)
    (react m '\n') (react m '\n') :=
  still_block.bind fun _ ↦ still_blank.bind fun step ↦
    still_pure _ (Signal.shift w.before.size) (.done step)

theorem passes_advance {D : Pairing Draft} {t : Text} (ht : d.cursor.rest = c :: t)
    (hc : endsBlock c = false)
    (h : (w.pairing prior).Passes D (react m c) { d with cursor := d.cursor.advance } signal d') :
    (w.pairing prior).Passes D (advance m) d signal d' := by
  intro e he
  have hrest : e.cursor.rest = c :: (t ++ w.after) := by rw [he.rest, ht, List.cons_append]
  have hpeek : e.cursor.peek = c := by
    rw [Cursor.peek, hrest]
    rfl
  have hplaces : w.Places prior { d with cursor := d.cursor.advance }
      { e with cursor := e.cursor.advance } := by
    refine ⟨?_, he.tree, he.block⟩
    simp only [Cursor.rest_advance, hrest, ht, List.drop_one, List.tail_cons]
  obtain ⟨e', he', hpairs⟩ := h _ hplaces
  refine ⟨e', ?_, hpairs⟩
  rw [advance, hpeek, hc, if_neg Bool.false_ne_true]
  exact he'

/-- If an opening brace is next, what it starts is mirrored, or nothing is left of the text. -/
def OpensIn (w : Placement) (v : Text) (m : RegionMarkers) (d : Draft) : Prop :=
  d.cursor.peek = '\x7b' → ∀ ⦃prior signal d'⦄,
    react m '\x7b' { d with cursor := d.cursor.advance } = .ok signal d' →
      (w.pairing prior).Reaches ((w.followed v).pairing prior) (react m '\x7b')
        { d with cursor := d.cursor.advance } (signal.shift w.before.size) d'

theorem ready_advance {t : Text} (ht : d.cursor.rest = c :: t) (hc : c ≠ '\n')
    (h : Ready w.after v d.cursor.rest) :
    Ready w.after v d.cursor.advance.rest := by
  rw [ht] at h
  rw [Cursor.rest_advance, ht]
  exact h.tail hc

theorem opensIn_of_quiet (hquiet : w.Quiet)
    (h : Ready w.after (w.after.dropWhile isBlank) d.cursor.rest) :
    OpensIn w (w.after.dropWhile isBlank) m d := by
  intro hpeek prior signal d' hd
  cases ht : d.cursor.rest with
  | nil =>
    rw [Cursor.peek, ht] at hpeek
    exact absurd hpeek (by decide)
  | cons c t =>
    obtain rfl : c = '\x7b' := by rw [← hpeek, Cursor.peek, ht]; rfl
    exact (last_react_brace hquiet m).reaches hd (ready_advance ht (by decide) h)

/-- **One character** of the text alone and of the longer text. -/
theorem reaches_advance (h : advance m d = .ok signal d') (hstart : Ready w.after v d.cursor.rest)
    (hclear : w.after = [] ∨ d.cursor.rest ≠ []) (hopens : OpensIn w v m d) :
    (w.pairing prior).Reaches ((w.followed v).pairing prior) (advance m) d
      (signal.shift w.before.size) d' := by
  rw [advance] at h
  split at h
  · rename_i hend
    cases h
    refine .inl fun e he ↦ ⟨e, if_pos ?_, he⟩
    rw [Cursor.peek, he.rest]
    rcases hclear with hafter | hclear
    · rwa [hafter, List.append_nil]
    · rwa [ahead_append w.after hclear]
  · rename_i hend
    obtain ⟨c, t, ht⟩ : ∃ c t, d.cursor.rest = c :: t := by
      refine List.exists_cons_of_ne_nil fun hnil ↦ hend ?_
      rw [Cursor.peek, hnil]
      rfl
    have hpeek : d.cursor.peek = c := by
      rw [Cursor.peek, ht]
      rfl
    rw [hpeek] at h hend
    have hc : endsBlock c = false := by simpa using hend
    refine Or.imp (passes_advance ht hc) (And.imp_right (passes_advance ht hc)) ?_
    -- Nothing may be left behind the end of a line, but a blank does not look there.
    by_cases hnewline : c = '\n'
    · subst hnewline
      exact .inl (still_react_newline h).2
    by_cases hbrace : c = '\x7b'
    · subst hbrace
      exact hopens hpeek h
    · exact (last_react m hbrace).reaches h (ready_advance ht hnewline hstart)

end Drafting

/-! ## Blocks inside others -/

/-- The frame with all numbers in it moved, behind elements that its block had before. -/
def Frame.shift (k : Nat) (prior : List ElementId) (f : Frame) : Frame :=
  ⟨k + f.owner, f.ending, f.block.shift k prior⟩

namespace Drafting

variable {w : Placement} {v : Text} {prior : List ElementId}

theorem firm_endBlock (w : Placement) (v : Text) (prior : List ElementId) (f : Frame) :
    w.Firm v [] Ready Any id (endBlock f) (endBlock (f.shift w.before.size prior)) :=
  still_finishBlock.bind_steady fun ids ↦
    (still_editAll (fun _ _ _ ↦ Tree.append_addChild w.rootless) ids).bind_steady fun _ ↦
      steady_read (Reading.firm_readEnding f.ending)

/-- A block inside another one had no elements before, and the one around it goes on with those that
it had. -/
theorem leave_placed {f : Frame} {d d' e : Draft} {step : Step} (h : leave f d = .ok step d')
    (hstart : Ready w.after v d.cursor.rest) (he : w.Places [] d e) :
    ∃ e', leave (f.shift w.before.size prior) e = .ok step e' ∧
      (w.Places prior d' e' ∨ d'.cursor.rest = [] ∧ (w.followed v).Places prior d' e') := by
  obtain ⟨d₁, hend, hemit⟩ := leave_eq_ok h
  obtain ⟨hm, hready⟩ := (firm_endBlock w v prior f).mirrors hend hstart
  obtain ⟨e₁, hend', he₁⟩ := hm e he
  -- The block that ended had no elements before, while the one around it may have had some.
  have hplaces : w.Places prior { d₁ with block := f.block }
      { e₁ with block := f.block.shift w.before.size prior } := ⟨he₁.rest, he₁.tree, rfl⟩
  have hleave : ∀ {e'}, emitMember (w.shift f.owner)
      { e₁ with block := f.block.shift w.before.size prior } = .ok step e' →
        leave (f.shift w.before.size prior) e = .ok step e' := by
    intro e' he'
    rw [leave, hend']
    exact he'
  have hemits : w.Last v prior Ready Any id (emitMember f.owner) _ := last_emitMember f.owner
  rcases hemits.reaches hemit hready with hm | ⟨hnil, hm⟩
  · obtain ⟨e', he', hpairs⟩ := hm _ hplaces
    exact ⟨e', hleave he', .inl hpairs⟩
  · obtain ⟨e', he', hpairs⟩ := hm _ hplaces
    exact ⟨e', hleave he', .inr ⟨hnil, hpairs⟩⟩

end Drafting

namespace Machine

variable {w : Placement} {prior : List ElementId} {m : RegionMarkers} {s s' t : Machine}
  {step : Step}

/-- The elements that the innermost block had before: none, unless it is the outermost one. -/
def innerPrior (prior : List ElementId) : List Frame → List ElementId
  | [] => prior
  | _ :: _ => []

/-- The waiting blocks with their numbers moved; the outermost one had elements before. -/
def shiftFrames (k : Nat) (prior : List ElementId) : List Frame → List Frame
  | [] => []
  | f :: fs => f.shift k (innerPrior prior fs) :: shiftFrames k prior fs

/-- A machine of the text alone, and one of the longer text. -/
structure Placed (w : Placement) (prior : List ElementId) (s t : Machine) : Prop where
  draft : w.Places (innerPrior prior s.frames) s.draft t.draft
  frames : t.frames = shiftFrames w.before.size prior s.frames

/-- The block of an element starts in both texts, and nothing was in it before. -/
theorem placed_opened {d e : Draft} {fs fs' : List Frame} (h : w.Places (innerPrior prior fs) d e)
    (hframes : fs' = shiftFrames w.before.size prior fs) (owner : ElementId) (ending : Ending) :
    Placed w prior ⟨{ d with block := {} }, ⟨owner, ending, d.block⟩ :: fs⟩
      ⟨{ e with block := {} }, ⟨w.before.size + owner, ending, e.block⟩ :: fs'⟩ := by
  refine ⟨⟨h.rest, h.tree, rfl⟩, ?_⟩
  rw [h.block, hframes]
  rfl

/-- **One move** of the machine in the text alone is one in the longer text. If it leaves nothing of
the text, something behind it may have been passed. -/
theorem Placed.moves {v : Text} (h : Placed w prior s t) (hm : Moves m s step s')
    (hstart : Ready w.after v s.draft.cursor.rest)
    (hclear : w.after = [] ∨ s.draft.cursor.rest ≠ []) (hopens : Drafting.OpensIn w v m s.draft) :
    ∃ t', Moves m t step t' ∧ (Placed w prior s' t' ∨
      s'.draft.cursor.rest = [] ∧ Placed (w.followed v) prior s' t') := by
  have hreach {signal : Signal} {d : Draft} (hd : advance m s.draft = .ok signal d) :
      ∃ e, advance m t.draft = .ok (signal.shift w.before.size) e ∧
        (w.Places (innerPrior prior s.frames) d e ∨
          d.cursor.rest = [] ∧ (w.followed v).Places (innerPrior prior s.frames) d e) := by
    rcases reaches_advance hd hstart hclear hopens with hm | ⟨hrest, hm⟩
    · obtain ⟨e, he, hpairs⟩ := hm _ h.draft
      exact ⟨e, he, .inl hpairs⟩
    · obtain ⟨e, he, hpairs⟩ := hm _ h.draft
      exact ⟨e, he, .inr ⟨hrest, hpairs⟩⟩
  cases hm with
  | @opened owner ending d ha =>
    obtain ⟨e, he, hplaces⟩ := hreach ha
    refine ⟨_, .opened he, hplaces.imp (fun hp ↦ ?_) (And.imp_right fun hp ↦ ?_)⟩
    · exact placed_opened hp h.frames owner ending
    · exact placed_opened hp h.frames owner ending
  | @ended d ha hframes =>
    obtain ⟨e, he, hplaces⟩ := hreach ha
    rw [hframes] at hplaces
    refine ⟨_, .ended he (by rw [h.frames, hframes]; rfl), ?_⟩
    exact hplaces.imp (fun hp ↦ ⟨hp, rfl⟩) (And.imp_right fun hp ↦ ⟨hp, rfl⟩)
  | @left f frames d d' step ha hframes hleave =>
    obtain ⟨e, he, -⟩ := hreach ha
    -- The end of a block has not been passed yet, so the drafts are those from before.
    obtain ⟨-, rfl⟩ := advance_eq_finished ha
    obtain ⟨-, rfl⟩ := advance_eq_finished he
    have hdraft := h.draft
    have hframes' := h.frames
    rw [hframes] at hdraft hframes'
    obtain ⟨e', hleave', hplaces⟩ := leave_placed hleave hstart hdraft
    refine ⟨_, .left he hframes' hleave', ?_⟩
    exact hplaces.imp (fun hp ↦ ⟨hp, rfl⟩) (And.imp_right fun hp ↦ ⟨hp, rfl⟩)
  | @stepped d step ha hstep =>
    obtain ⟨e, he, hplaces⟩ := hreach ha
    refine ⟨_, .stepped he hstep, ?_⟩
    exact hplaces.imp (fun hp ↦ ⟨hp, h.frames⟩) (And.imp_right fun hp ↦ ⟨hp, h.frames⟩)

/-! ## Runs -/

variable {d : Draft}

theorem Moves.rest_suffix (h : Moves m s step s') :
    s'.draft.cursor.rest <:+ s.draft.cursor.rest := by
  have hadvance {signal : Signal} {d : Draft} (hd : advance m s.draft = .ok signal d) :
      d.cursor.rest <:+ s.draft.cursor.rest := by
    by_cases hend : endsBlock s.draft.cursor.peek = true
    · rw [advance, if_pos hend] at hd
      rw [← (EStateM.Result.ok.inj hd).2]
    · obtain ⟨-, n, hn⟩ := advance_passes (m := m) (by simpa using hend)
      rw [hd] at hn
      rw [show d.cursor = s.draft.cursor.skip (n + 1) from hn, Cursor.rest_skip]
      exact List.drop_suffix (n + 1) _
  cases h with
  | opened ha => exact (hadvance ha :)
  | ended ha hframes | stepped ha hstep => exact hadvance ha
  | @left f frames d d' step ha hframes hleave =>
    obtain ⟨n, hn⟩ := forward_leave f d
    rw [hleave] at hn
    rw [show d'.cursor = d.cursor.skip n from hn, Cursor.rest_skip]
    exact (List.drop_suffix n _).trans (hadvance ha)

/-- Where the outermost block has ended nothing has been done. -/
theorem Moves.eq_of_finished (h : Moves m s .finished s') :
    endsBlock s.draft.cursor.peek = true ∧ s' = s := by
  cases h with
  | @ended d ha hframes =>
    obtain ⟨hend, rfl⟩ := advance_eq_finished ha
    exact ⟨hend, by rw [← hframes]⟩
  | left ha hframes hleave =>
    obtain ⟨e, -, hemit⟩ := leave_eq_ok hleave
    exact absurd rfl (emitMember_ne_finished hemit)
  | stepped ha hstep => exact absurd rfl hstep

theorem Moves.run_eq (h : Moves m s step s') : run m s = run m s' := by
  by_cases hstep : step = .finished
  · subst hstep
    rw [h.eq_of_finished.2]
  · exact run_of_move step h.move hstep

theorem endsBlock_of_run (h : run m s = .ok () d) : endsBlock d.cursor.peek = true := by
  fun_induction run m s with
  | case1 s e s' hm => cases h
  | case2 s s' hm =>
    obtain ⟨hend, rfl⟩ := (moves_of_move hm).eq_of_finished
    cases h
    exact hend
  | case3 s step s' hm hstep hlt ih => exact ih h

/-- **One move with nothing behind the text** is one in the longer text. -/
theorem Placed.moves_alone (h : Placed w prior s t) (hafter : w.after = [])
    (hm : Moves m s step s') : ∃ t', Moves m t step t' ∧ Placed w prior s' t' := by
  have hquiet : w.Quiet := by
    rw [Placement.Quiet, hafter]
    exact nofun
  have htrimmed : w.trimmed = w := by
    rw [Placement.trimmed, hafter]
    cases w
    exact congrArg _ hafter.symm
  have hready : Ready w.after (w.after.dropWhile isBlank) s.draft.cursor.rest :=
    .inl (.inl hafter)
  obtain ⟨t', hm', hplaced⟩ := h.moves hm hready (.inl hafter)
    (opensIn_of_quiet hquiet hready)
  rw [show w.followed _ = w from htrimmed] at hplaced
  exact ⟨t', hm', hplaced.elim id And.right⟩

/-- A run is one of the longer text if each of its moves is, and the longer text ends there too. -/
theorem Placed.run_of_moves {I : Machine → Prop}
    (hmoves : ∀ {s t s' step}, I s → Placed w prior s t → Moves m s step s' →
      I s' ∧ ∃ t', Moves m t step t' ∧ Placed w prior s' t')
    (hend : I ⟨d, []⟩ → endsBlock (ahead (d.cursor.rest ++ w.after)) = true)
    (h : Placed w prior s t) (hs : I s) (hrun : Machine.run m s = .ok () d) :
    ∃ e, Machine.run m t = .ok () e ∧ w.Places prior d e := by
  have hlast : I ⟨d, []⟩ ∧
      ∃ t', Placed w prior ⟨d, []⟩ t' ∧ Machine.run m t = Machine.run m t' := by
    refine run_induction (P := fun s ↦ I s ∧
      ∃ t', Placed w prior s t' ∧ Machine.run m t = Machine.run m t') ?_ ⟨hs, t, h, rfl⟩ hrun
    rintro s s' step ⟨hs, t', ht', hrun'⟩ hm
    obtain ⟨hs', t'', hm', hplaced⟩ := hmoves hs ht' hm
    exact ⟨hs', t'', hplaced, hrun'.trans hm'.run_eq⟩
  obtain ⟨hd, ⟨e, fs⟩, hplaced, hrun'⟩ := hlast
  obtain rfl : fs = [] := hplaced.frames
  refine ⟨e, hrun'.trans (run_of_end ?_), hplaced.draft⟩
  rw [Cursor.peek, hplaced.draft.rest]
  exact hend hd

/-- **A run with nothing behind it.** If nothing follows the text, all of its run is one of the
longer text. -/
theorem Placed.run (h : Placed w prior s t) (hafter : w.after = [])
    (hrun : Machine.run m s = .ok () d) :
    ∃ e, Machine.run m t = .ok () e ∧ w.Places prior d e := by
  refine h.run_of_moves (I := fun _ ↦ True) (fun _ hplaced hm ↦ ?_) (fun _ ↦ ?_) trivial hrun
  · exact ⟨trivial, hplaced.moves_alone hafter hm⟩
  · rw [hafter, List.append_nil]
    exact endsBlock_of_run hrun

/-- What a run leaves to be read was left before. -/
theorem rest_suffix_of_run (h : run m s = .ok () d) : d.cursor.rest <:+ s.draft.cursor.rest :=
  run_induction (P := fun s' ↦ s'.draft.cursor.rest <:+ s.draft.cursor.rest)
    (fun hsuffix hm ↦ hm.rest_suffix.trans hsuffix) List.suffix_rfl h

/-- A run that does not end at a brace has come to the end of its text or to an end mark in it. -/
theorem rest_of_run (h : run m s = .ok () d) (hbrace : d.cursor.peek ≠ '\x7d') :
    d.cursor.rest = [] ∨ d.cursor.rest.head? = some endMark := by
  have hend := endsBlock_of_run h
  rw [endsBlock, Bool.or_eq_true, beq_iff_eq, beq_iff_eq] at hend
  have hmark : ahead d.cursor.rest = endMark := hend.resolve_right hbrace
  cases hrest : d.cursor.rest with
  | nil => exact .inl rfl
  | cons c u =>
    rw [hrest] at hmark
    exact .inr (congrArg some hmark)

/-- **A run to the end of a text.** If the text ends with a line, the longer text is read in the
same way until nothing of the text is left. What moves keep is true there. -/
theorem Placed.run_to_end {I : Machine → Prop}
    (hmoves : ∀ {s s' step}, I s → Moves m s step s' → I s')
    (hquiet : w.Quiet) (hrun : Machine.run m s = .ok () d) (hend : d.cursor.rest = [])
    (h : Placed w prior s t) (hline : Text.LineEnded s.draft.cursor.rest) (hs : I s) :
    ∃ s' t', s'.draft.cursor.rest = [] ∧ I s' ∧ Machine.run m s' = .ok () d ∧
      Machine.run m t = Machine.run m t' ∧
        (Placed w prior s' t' ∨ Placed w.trimmed prior s' t') := by
  by_cases hclear : s.draft.cursor.rest = []
  · exact ⟨s, t, hclear, hs, hrun, rfl, .inl h⟩
  fun_induction Machine.run m s generalizing t with
  | case1 s e s' hm => cases hrun
  | case2 s s' hm =>
    -- The block cannot have ended before the end of the text.
    obtain ⟨-, rfl⟩ := (moves_of_move hm).eq_of_finished
    cases hrun
    exact absurd hend hclear
  | case3 s step s' hm hstep hlt ih =>
    have hm := moves_of_move hm
    have hready : Ready w.after (w.after.dropWhile isBlank) s.draft.cursor.rest :=
      .inr ⟨hline, hclear⟩
    obtain ⟨t', hm', hplaced⟩ := h.moves hm hready (.inr hclear)
      (opensIn_of_quiet hquiet hready)
    rcases hplaced with hplaced | ⟨hrest, hplaced⟩
    · by_cases hclear' : s'.draft.cursor.rest = []
      · exact ⟨s', t', hclear', hmoves hs hm, hrun, hm'.run_eq, .inl hplaced⟩
      · obtain ⟨s'', t'', hrest, hs'', hrun'', heq, hplaced''⟩ := ih hrun hplaced
          (hline.of_suffix hm.rest_suffix) (hmoves hs hm) hclear'
        exact ⟨s'', t'', hrest, hs'', hrun'', hm'.run_eq.trans heq, hplaced''⟩
    · exact ⟨s', t', hrest, hmoves hs hm, hrun, hm'.run_eq, .inr hplaced⟩

end Machine

end SharpOutline
