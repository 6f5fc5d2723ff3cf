import SharpOutline.Proofs.Block.Reactions
import SharpOutline.Proofs.Lexeme.Loops

/-!
# Reading blocks by descent

The machine keeps the blocks that wait on a stack. Without a stack, a step that opens a block has to
read this block before it goes on, and to read a block is to take steps until it ends. Nothing in
this form keeps the reading from going on for ever, so what steps and blocks come to by descent is a
relation (`Drafting.StepsTo`, `Drafting.ReadsTo`): there is an outcome only if the descent ends. It
always does, and with the outcome of the machine. A step that does not find the end of its block
passes a character (`Drafting.Progress`), so the next step starts further on, and so does a block
that the step opens.
-/

namespace SharpOutline

/-! ## The machine with a block around it -/

namespace Machine

open Drafting

variable {m : RegionMarkers} {s s' : Machine} {d d' : Draft} {step : Step} {e : Fault} {f : Frame}

/-- The machine with one more block around all others. -/
def under (s : Machine) (f : Frame) : Machine := ⟨s.draft, s.frames ++ [f]⟩

theorem frames_under_ne_nil (s : Machine) (f : Frame) : (s.under f).frames ≠ [] := by
  simp [under]

theorem base_under (s : Machine) (f : Frame) :
    (s.under f).base = { s.base with block := f.block } := by
  have hlast : (s.under f).base = { s.draft with block := f.block } := by
    simp [base, under]
  rw [hlast]
  unfold base
  split <;> rfl

/-- A move of the blocks inside does not depend on what is around them, unless they have ended. -/
theorem Moves.under (h : Moves m s step s') (hstep : step ≠ .finished) (f : Frame) :
    Moves m (s.under f) step (s'.under f) := by
  cases h with
  | opened h => exact .opened h
  | ended h hframes => exact absurd rfl hstep
  | left h hframes hleave => exact .left h (by simp [Machine.under, hframes]) hleave
  | stepped h hstep => exact .stepped h hstep

theorem Stops.under (h : Stops m s e s') (f : Frame) : Stops m (s.under f) e (s'.under f) := by
  cases h with
  | stepped h => exact .stepped h
  | left h hframes hleave => exact .left h (by simp [Machine.under, hframes]) hleave

/-! ## Steps of the outermost block -/

theorem settle_of_error (h : s.move m = .error e s') : settle m s = .error e s'.base := by
  rw [settle]
  split
  · rename_i hm
    cases h.symm.trans hm
    rfl
  · rename_i hm
    cases h.symm.trans hm

theorem settle_of_done (h : s.move m = .ok step s') (hs : s'.frames = []) :
    settle m s = .ok step s'.draft := by
  rw [settle]
  split
  · rename_i hm
    cases h.symm.trans hm
  · rename_i hm
    cases h.symm.trans hm
    rw [dif_pos hs]

theorem settle_of_move (h : s.move m = .ok step s') (hs : s'.frames ≠ []) :
    settle m s = settle m s' := by
  rw [settle]
  split
  · rename_i hm
    cases h.symm.trans hm
  · rename_i hm
    cases h.symm.trans hm
    rw [dif_neg hs]

/-- What becomes of a step when the block that it has opened has been read. -/
def resume (f : Frame) : EStateM.Result Fault Draft Unit → EStateM.Result Fault Draft Step
  | .error e d => .error e { d with block := f.block }
  | .ok _ d => leave f d

/-- **A block inside** is read as if it were the outermost one, and then the block around it goes
on. -/
theorem settle_under (s : Machine) (f : Frame) : settle m (s.under f) = resume f (run m s) := by
  fun_induction run m s with
  | case1 s e s' hm =>
    rw [settle_of_error ((stops_of_move hm).under f).move, base_under]
    rfl
  | case2 s s' hm =>
    -- The blocks inside have ended, and the end of the last one is read in the block around.
    cases moves_of_move hm with
    | @ended d ha hframes =>
      have hunder : (s.under f).frames = [f] := by simp [under, hframes]
      cases hleave : leave f d with
      | error e d' =>
        rw [settle_of_error (Stops.left (s := s.under f) ha hunder hleave).move, resume, hleave]
        rfl
      | ok step d' =>
        rw [settle_of_done (Moves.left (s := s.under f) ha hunder hleave).move rfl, resume, hleave]
    | left ha hframes hleave =>
      obtain ⟨d₁, -, hemit⟩ := leave_eq_ok hleave
      exact absurd rfl (emitMember_ne_finished hemit)
    | stepped ha hstep => exact absurd rfl hstep
  | case3 s step s' hm hstep hlt ih =>
    have hmove := ((moves_of_move hm).under hstep f).move
    rw [settle_of_move hmove (frames_under_ne_nil s' f), ih]

theorem run_of_error (h : s.move m = .error e s') : run m s = .error e s'.base := by
  rw [run]
  split
  · rename_i hm
    cases h.symm.trans hm
    rfl
  · rename_i hm
    cases h.symm.trans hm

theorem run_of_finished (h : s.move m = .ok .finished s') : run m s = .ok () s'.draft := by
  rw [run]
  split
  · rename_i hm
    cases h.symm.trans hm
  · rename_i hm
    cases h.symm.trans hm
    rw [dif_pos rfl]

/-- What becomes of a run after a step of the outermost block. -/
def carryOn (m : RegionMarkers) :
    EStateM.Result Fault Draft Step → EStateM.Result Fault Draft Unit
  | .error e d => .error e d
  | .ok step d => if step = .finished then .ok () d else run m ⟨d, []⟩

/-- A run goes step by step. -/
theorem run_eq_settle (s : Machine) : run m s = carryOn m (settle m s) := by
  fun_induction settle m s with
  | case1 s e s' hm => exact run_of_error hm
  | case2 s step s' hm hs =>
    by_cases hstep : step = .finished
    · subst hstep
      exact run_of_finished hm
    · rw [run_of_move step hm hstep, carryOn, if_neg hstep, ← hs]
  | case3 s step s' hm hs hlt ih =>
    have hstep : step ≠ .finished := by
      rintro rfl
      exact hs (moves_of_move hm).frames_eq_nil
    rw [← ih, run_of_move step hm hstep]

/-! ## The cursor -/

theorem forward_advance (m : RegionMarkers) : Forward (Drafting.advance m) := by
  intro d
  by_cases hend : endsBlock d.cursor.peek = true
  · exact ⟨0, by rw [Drafting.advance, if_pos hend]; rfl⟩
  · obtain ⟨-, n, hn⟩ := advance_passes (m := m) (Bool.not_eq_true _ ▸ hend)
    exact ⟨n + 1, hn⟩

theorem forward_move (s : Machine) :
    ∃ n, (finalState (s.move m)).draft.cursor = s.draft.cursor.skip n := by
  obtain ⟨n, hn⟩ := forward_advance m s.draft
  -- The end of a block is passed after what the block has passed.
  have hleft {f : Frame} {d : Draft} (ha : Drafting.advance m s.draft = .ok (.done .finished) d) :
      ∃ n, (finalState (leave f d)).cursor = s.draft.cursor.skip n := by
    obtain ⟨k, hk⟩ := forward_leave f d
    rw [ha] at hn
    rw [show d.cursor = s.draft.cursor.skip n from hn, Cursor.skip_skip] at hk
    exact ⟨n + k, hk⟩
  cases hm : s.move m with
  | error e s' =>
    cases stops_of_move hm with
    | stepped ha => exact ⟨n, by rwa [ha] at hn⟩
    | left ha hframes hleave =>
      obtain ⟨k, hk⟩ := hleft ha
      exact ⟨k, by rwa [hleave] at hk⟩
  | ok step s' =>
    cases moves_of_move hm with
    | opened ha => exact ⟨n, by rwa [ha] at hn⟩
    | ended ha hframes => exact ⟨n, by rwa [ha] at hn⟩
    | left ha hframes hleave =>
      obtain ⟨k, hk⟩ := hleft ha
      exact ⟨k, by rwa [hleave] at hk⟩
    | stepped ha hstep => exact ⟨n, by rwa [ha] at hn⟩

theorem cursor_base (s : Machine) : s.base.cursor = s.draft.cursor := by
  unfold base
  split <;> rfl

theorem forward_run (s : Machine) :
    ∃ n, (finalState (run m s)).cursor = s.draft.cursor.skip n := by
  fun_induction run m s with
  | case1 s e s' hm =>
    obtain ⟨n, hn⟩ := forward_move (m := m) s
    rw [hm] at hn
    exact ⟨n, (cursor_base s').trans hn⟩
  | case2 s s' hm =>
    obtain ⟨n, hn⟩ := forward_move (m := m) s
    rw [hm] at hn
    exact ⟨n, hn⟩
  | case3 s step s' hm hstep hlt ih =>
    obtain ⟨n, hn⟩ := forward_move (m := m) s
    obtain ⟨k, hk⟩ := ih
    rw [hm] at hn
    replace hn : s'.draft.cursor = s.draft.cursor.skip n := hn
    rw [hn, Cursor.skip_skip] at hk
    exact ⟨n + k, hk⟩

theorem forward_resume (f : Frame) (r : EStateM.Result Fault Draft Unit) :
    ∃ n, (finalState (resume f r)).cursor = (finalState r).cursor.skip n := by
  cases r with
  | error e d => exact ⟨0, rfl⟩
  | ok _ d => exact forward_leave f d

end Machine

namespace Drafting

open Machine

variable {m : RegionMarkers} {d d' : Draft} {e : Fault}

/-! ## Steps -/

variable {owner head : ElementId} {ending : Ending}

theorem step_of_done {step : Step} (h : advance m d = .ok (.done step) d') :
    Drafting.step m d = .ok step d' := by
  have hmove : Machine.move m ⟨d, []⟩ = .ok step ⟨d', []⟩ := by
    rw [move, h]
    cases step with
    | more | produced n | finished => rfl
  exact settle_of_done hmove rfl

theorem step_of_error (h : advance m d = .error e d') : step m d = .error e d' := by
  have hmove : Machine.move m ⟨d, []⟩ = .error e ⟨d', []⟩ := by rw [move, h]
  exact settle_of_error hmove

/-- A step that opens a block reads this block, and then goes on in its own. -/
theorem step_of_opened (h : advance m d = .ok (.opened owner ending) d') :
    step m d = resume ⟨owner, ending, d'.block⟩ (run m ⟨{ d' with block := {} }, []⟩) := by
  have hmove : Machine.move m ⟨d, []⟩ =
      .ok .more (Machine.under ⟨{ d' with block := {} }, []⟩ ⟨owner, ending, d'.block⟩) := by
    rw [move, h]
    rfl
  exact (settle_of_move hmove (frames_under_ne_nil _ _)).trans (settle_under _ _)

/-- A step that finds the end of its block changes nothing at all; every other step, whether it
succeeds or not, has passed at least one character. -/
structure Progress (m : RegionMarkers) (d : Draft) : Prop where
  finished : ∀ d', step m d = .ok .finished d' → d' = d
  passes : (∀ d', step m d ≠ .ok .finished d') →
    ∃ n, 0 < n ∧ n ≤ d.cursor.remaining ∧ (finalState (step m d)).cursor = d.cursor.skip n

theorem step_eq_finished : step m d = .ok .finished d' ↔
    endsBlock d.cursor.peek = true ∧ d' = d := by
  constructor
  · intro h
    cases ha : advance m d with
    | error e d₁ => cases (step_of_error ha).symm.trans h
    | ok signal d₁ =>
      cases signal with
      | done s =>
        cases (step_of_done ha).symm.trans h
        exact advance_eq_finished ha
      | opened owner ending =>
        rw [step_of_opened ha] at h
        unfold resume at h
        split at h
        · cases h
        · obtain ⟨d₂, -, hemit⟩ := leave_eq_ok h
          exact absurd rfl (emitMember_ne_finished hemit)
  · rintro ⟨hend, rfl⟩
    exact step_of_done (by rw [advance, if_pos hend])

theorem step_passes (h : endsBlock d.cursor.peek = false) :
    ∃ n, (finalState (step m d)).cursor = d.cursor.skip (n + 1) := by
  obtain ⟨-, n, hn⟩ := advance_passes (m := m) h
  cases ha : advance m d with
  | error e d₁ =>
    rw [ha] at hn
    exact ⟨n, by rw [step_of_error ha]; exact hn⟩
  | ok signal d₁ =>
    rw [ha] at hn
    replace hn : d₁.cursor = d.cursor.skip (n + 1) := hn
    cases signal with
    | done s => exact ⟨n, by rw [step_of_done ha]; exact hn⟩
    | opened owner ending =>
      -- `n + 1` characters before the block inside, `k` in it and `l` at its end.
      obtain ⟨k, hk⟩ := forward_run (m := m) ⟨{ d₁ with block := {} }, []⟩
      obtain ⟨l, hl⟩ := forward_resume ⟨owner, ending, d₁.block⟩
        (run m ⟨{ d₁ with block := {} }, []⟩)
      refine ⟨n + (k + l), ?_⟩
      rw [step_of_opened ha, hl, hk, hn, Cursor.skip_skip, Cursor.skip_skip]
      congr 1
      omega

theorem progress (m : RegionMarkers) (d : Draft) : Progress m d := by
  refine ⟨fun d' h ↦ (step_eq_finished.mp h).2, fun hnot ↦ ?_⟩
  have hend : endsBlock d.cursor.peek = false := by
    by_contra hend
    exact hnot d (step_eq_finished.mpr ⟨by simpa using hend, rfl⟩)
  obtain ⟨hne, -⟩ := advance_passes (m := m) hend
  obtain ⟨n, hn⟩ := step_passes (m := m) hend
  have hpos : 0 < d.cursor.remaining := List.length_pos_iff.mpr hne
  refine ⟨min (n + 1) d.cursor.remaining, by omega, by omega, ?_⟩
  rw [hn, Cursor.skip_min]

theorem remaining_step_lt (hs : ∀ d', step m d ≠ .ok .finished d') :
    (finalState (step m d)).cursor.remaining < d.cursor.remaining := by
  obtain ⟨n, hpos, hle, hn⟩ := (progress m d).passes hs
  rw [hn, Cursor.remaining, Cursor.rest_skip, List.length_drop]
  unfold Cursor.remaining at hle ⊢
  omega

/-- A block inside starts further on. -/
theorem remaining_opened_lt (h : advance m d = .ok (.opened owner ending) d') :
    d'.cursor.remaining < d.cursor.remaining := by
  have hend : endsBlock d.cursor.peek = false := by
    by_contra hend
    rw [advance, if_pos (by simpa using hend)] at h
    cases h
  obtain ⟨hne, n, hn⟩ := advance_passes (m := m) hend
  rw [h] at hn
  replace hn : d'.cursor = d.cursor.skip (n + 1) := hn
  rw [hn]
  exact length_rest_skip_succ hne n

/-! ## The loops of a block -/

/-- A pass over a further attribute of a list. -/
def attributePass (head : ElementId) (_ : Unit) : Drafting (Unit ⊕ Unit) := do
  let more ← read Reading.attributeSeparator
  if more then do
    let a ← read (Reading.attributeUse false)
    let id ← create a.name (.attributeUse a.data)
    edit fun t ↦ t.addChild head id
    return .inl ()
  else return .inr ()

theorem remaining_attributeSeparator_lt {c c' : Cursor}
    (h : Reading.attributeSeparator c = .ok true c') : c'.remaining < c.remaining := by
  change (if c.skipBlanks.peek = ',' then _ else _ : Reading Bool) c.skipBlanks = _ at h
  split at h
  · rename_i hcomma
    cases h
    have hne : c.skipBlanks.rest ≠ [] := peek_ne_endMark (by rw [hcomma]; decide)
    exact (length_rest_skip_succ hne 0).trans_le (Cursor.remaining_skip_le _ c)
  · split at h
    · obtain ⟨hfalse, -⟩ := EStateM.Result.ok.inj h
      cases hfalse
    · split at h
      · cases h
      · cases h

theorem remaining_attributePass_lt {a : Unit} (h : attributePass head a d = .ok (.inl ()) d') :
    d'.cursor.remaining < d.cursor.remaining := by
  obtain ⟨more, d₁, hmore, h⟩ := bind_eq_ok.mp h
  obtain ⟨c, hc, rfl⟩ := read_eq_ok hmore
  cases more with
  | false =>
    obtain ⟨hfalse, -⟩ := EStateM.Result.ok.inj h
    cases hfalse
  | true =>
    obtain ⟨a, d₂, hread, h⟩ := bind_eq_ok.mp h
    obtain ⟨c₂, hc₂, rfl⟩ := read_eq_ok hread
    replace h := of_create_bind h
    obtain ⟨⟨⟩, d₄, hedit, h⟩ := bind_eq_ok.mp h
    obtain ⟨t, -, rfl⟩ := edit_eq_ok.mp hedit
    cases h
    obtain ⟨n, hn⟩ := (Reading.tidy_attributeUse false).forward c
    rw [hc₂] at hn
    obtain rfl : c₂ = c.skip n := hn
    exact (Cursor.remaining_skip_le n c).trans_lt (remaining_attributeSeparator_lt hc)

theorem furtherAttributes_succ (head : ElementId) (n : Nat) : furtherAttributes head (n + 1) =
    attributePass head () >>= Sum.elim (fun _ ↦ furtherAttributes head n) pure := by
  rw [furtherAttributes, attributePass, bind_assoc]
  refine bind_congr fun more ↦ ?_
  cases more with
  | false => rfl
  | true => simp only [if_true, bind_assoc, pure_bind, Sum.elim_inl]

theorem furtherAttributes_eq {n k : Nat} (hn : d.cursor.remaining < n)
    (hk : d.cursor.remaining < k) : furtherAttributes head n d = furtherAttributes head k d := by
  induction n generalizing k d with
  | zero => exact absurd hn (Nat.not_lt_zero _)
  | succ n ih =>
    cases k with
    | zero => exact absurd hk (Nat.not_lt_zero _)
    | succ k =>
      rw [furtherAttributes_succ, furtherAttributes_succ]
      simp only [bind, EStateM.bind]
      cases hpass : attributePass head () d with
      | error e d' => rfl
      | ok r d' =>
        cases r with
        | inl a =>
          have hlt := remaining_attributePass_lt hpass
          exact ih (by omega) (by omega)
        | inr a => rfl

/-- The limit on further attributes is never met. -/
theorem isLoop_attributes (head : ElementId) : IsLoop (fun d ↦ d.cursor.remaining)
    (attributePass head) () fun d ↦ furtherAttributes head (d.cursor.remaining + 1) d := by
  refine isLoop_of_follows
    (f := fun _ d ↦ furtherAttributes head (d.cursor.remaining + 1) d) (fun a d ↦ ?_) ()
  have hfurther : furtherAttributes head (d.cursor.remaining + 1) d = _ :=
    congrFun (furtherAttributes_succ head d.cursor.remaining) d
  simp only [bind, EStateM.bind] at hfurther
  -- The rest of the list has the limit of this pass, which is as good as its own.
  cases hpass : attributePass head () d with
  | error e d' =>
    rw [hpass] at hfurther
    exact .fault hpass hfurther
  | ok r d' =>
    rw [hpass] at hfurther
    cases r with
    | inl b =>
      have hlt := remaining_attributePass_lt hpass
      exact .again hpass hlt (hfurther.trans (furtherAttributes_eq (by omega) (by omega)))
    | inr b => exact .left hpass hfurther

/-- A pass over a step of a block. -/
def blockPass (m : RegionMarkers) (_ : Unit) : Drafting (Unit ⊕ Unit) := do
  let s ← step m
  if s = .finished then return .inr () else return .inl ()

/-- A block is read step by step. -/
theorem run_eq_step (m : RegionMarkers) (d : Draft) :
    run m ⟨d, []⟩ = carryOn m (step m d) := run_eq_settle ⟨d, []⟩

theorem isLoop_run (m : RegionMarkers) :
    IsLoop (fun d ↦ d.cursor.remaining) (blockPass m) () fun d ↦ run m ⟨d, []⟩ := by
  refine isLoop_of_follows (f := fun _ d ↦ run m ⟨d, []⟩) (fun a d ↦ ?_) ()
  have hrun := run_eq_step m d
  cases hstep : step m d with
  | error e d' =>
    rw [hstep] at hrun
    exact .fault (by simp only [blockPass, bind, EStateM.bind, hstep]) hrun
  | ok s d' =>
    rw [hstep] at hrun
    by_cases hs : s = .finished
    · simp only [carryOn, if_pos hs] at hrun
      refine .left (b := ()) ?_ hrun
      simp only [blockPass, bind, EStateM.bind, hstep, if_pos hs]
      rfl
    · simp only [carryOn, if_neg hs] at hrun
      have hpass : blockPass m a d = .ok (.inl ()) d' := by
        simp only [blockPass, bind, EStateM.bind, hstep, if_neg hs]
        rfl
      have hlt := remaining_step_lt (m := m) (d := d) (by rw [hstep]; rintro d' ⟨⟩; exact hs rfl)
      rw [hstep] at hlt
      exact .again hpass hlt hrun

/-- What is read in a block in more than one go is read by loops that end. -/
structure LoopsEnd (m : RegionMarkers) : Prop where
  attributes : ∃ further : ElementId → Drafting Unit,
    (∀ head, IsLoop (fun d ↦ d.cursor.remaining) (attributePass head) () (further head)) ∧
      attributeList = do
        let a ← read (Reading.attributeUse true)
        let head ← create a.name (.attributeUse a.data)
        further head
        return (head, a.data.target)
  block : IsLoop (fun d ↦ d.cursor.remaining) (blockPass m) () fun d ↦ run m ⟨d, []⟩

theorem loopsEnd (m : RegionMarkers) : LoopsEnd m :=
  ⟨⟨_, isLoop_attributes, rfl⟩, isLoop_run m⟩

/-! ## Descent -/

mutual

/-- What a step comes to by descent. -/
inductive StepsTo (m : RegionMarkers) : Draft → EStateM.Result Fault Draft Step → Prop
  | fault {d d' : Draft} {e : Fault} (h : advance m d = .error e d') : StepsTo m d (.error e d')
  | done {d d' : Draft} {step : Step} (h : advance m d = .ok (.done step) d') :
    StepsTo m d (.ok step d')
  /-- The block that has been opened is read before the step goes on. -/
  | nested {d d' : Draft} {owner : ElementId} {ending : Ending}
    {r : EStateM.Result Fault Draft Unit} (h : advance m d = .ok (.opened owner ending) d')
    (hr : ReadsTo m { d' with block := {} } r) : StepsTo m d (resume ⟨owner, ending, d'.block⟩ r)

/-- What the steps of a block come to by descent. -/
inductive ReadsTo (m : RegionMarkers) : Draft → EStateM.Result Fault Draft Unit → Prop
  | fault {d d' : Draft} {e : Fault} (h : StepsTo m d (.error e d')) : ReadsTo m d (.error e d')
  | ended {d d' : Draft} (h : StepsTo m d (.ok .finished d')) : ReadsTo m d (.ok () d')
  | again {d d' : Draft} {step : Step} {r : EStateM.Result Fault Draft Unit}
    (h : StepsTo m d (.ok step d')) (hstep : step ≠ .finished) (hr : ReadsTo m d' r) :
    ReadsTo m d r

end

/-- Descent ends: every block inside starts further on, and so does every further step. -/
theorem exists_descent (m : RegionMarkers) (d : Draft) :
    StepsTo m d (step m d) ∧ ReadsTo m d (run m ⟨d, []⟩) := by
  -- One induction for both: the block inside and the next step have less left than this step.
  induction hn : d.cursor.remaining using Nat.strong_induction_on generalizing d with
  | _ n ih =>
    have hstep : StepsTo m d (step m d) := by
      cases ha : advance m d with
      | error e d' => exact step_of_error ha ▸ .fault ha
      | ok signal d' =>
        cases signal with
        | done s => exact step_of_done ha ▸ .done ha
        | opened owner ending =>
          rw [step_of_opened ha]
          have hlt := hn ▸ remaining_opened_lt ha
          exact .nested ha (ih _ hlt { d' with block := {} } rfl).2
    refine ⟨hstep, ?_⟩
    have hrun := run_eq_step m d
    cases hs : step m d with
    | error e d' =>
      rw [hs] at hstep hrun
      exact hrun ▸ .fault hstep
    | ok s d' =>
      rw [hs] at hstep hrun
      by_cases hfinished : s = .finished
      · subst hfinished
        exact hrun ▸ .ended hstep
      · simp only [carryOn, if_neg hfinished] at hrun
        have hlt := remaining_step_lt (m := m) (d := d)
          (by rw [hs]; rintro d' ⟨⟩; exact hfinished rfl)
        rw [hs, hn] at hlt
        rw [hrun]
        exact .again hstep hfinished (ih _ hlt d' rfl).2

mutual

theorem StepsTo.eq_step {r : EStateM.Result Fault Draft Step} :
    ∀ {d : Draft}, StepsTo m d r → r = step m d
  | _, .fault h => (step_of_error h).symm
  | _, .done h => (step_of_done h).symm
  | _, .nested h hr => by rw [step_of_opened h, hr.eq_run]

theorem ReadsTo.eq_run {r : EStateM.Result Fault Draft Unit} :
    ∀ {d : Draft}, ReadsTo m d r → r = run m ⟨d, []⟩
  | _, .fault h => by rw [run_eq_step, ← h.eq_step, carryOn]
  | _, .ended h => by rw [run_eq_step, ← h.eq_step]; rfl
  | _, .again h hstep hr => by
    rw [run_eq_step, ← h.eq_step, carryOn, if_neg hstep]
    exact hr.eq_run

end

/-- What a step comes to by descent is what the machine does. -/
theorem stepsTo_iff {r : EStateM.Result Fault Draft Step} : StepsTo m d r ↔ r = step m d := by
  constructor
  · exact StepsTo.eq_step
  · rintro rfl
    exact (exists_descent m d).1

end Drafting

/-! ## Documents -/

namespace Document

open Drafting hiding read
open Machine

/-- Makes the elements of the outermost block the roots of the tree. -/
def plant (roots : List ElementId) : Drafting Unit := do
  let c ← Drafting.read Reading.peek
  if c = '\x7d' then throw (.unexpectedCharacter '\x7d')
  else editAll (fun id t ↦ t.addRoot id) roots

/-- What becomes of a document whose outermost block has been read. -/
def conclude : EStateM.Result Fault Draft Unit → Except ParseError Tree
  | .error e d => .error ⟨e, d.cursor.position⟩
  | .ok _ d =>
    match finishBlock d with
    | .error e d => .error ⟨e, d.cursor.position⟩
    | .ok roots d =>
      match plant roots { d with block := {} } with
      | .error e d => .error ⟨e, d.cursor.position⟩
      | .ok _ d => .ok d.tree

theorem parse_eq_conclude (m : RegionMarkers) (source : Text) :
    parse m source = conclude (run m ⟨start source, []⟩) := by
  have hread : read m = readBlock m >>= plant := rfl
  have hstart : { start source with block := {} } = start source := rfl
  have hblock : (start source).block = {} := rfl
  unfold parse conclude
  simp only [hread, bind, EStateM.bind, readBlock, hstart, hblock]
  cases run m ⟨start source, []⟩ with
  | error e d => rfl
  | ok _ d =>
    dsimp only
    cases finishBlock d with
    | error e d => rfl
    | ok roots d =>
      dsimp only
      cases plant roots { d with block := {} } with
      | error e d => rfl
      | ok _ d => rfl

/-- **Reading ends.** Whatever the patterns for regions and the source text are, and whatever has
been read before, a step passes a character unless it finds the end of its block; all loops end, and
so does the descent into blocks, since a block inside another one starts further on. So a source
text is always read into a tree, or there is a fault. -/
theorem reading_ends (m : RegionMarkers) :
    (∀ d, Progress m d) ∧ Reading.LoopsEnd ∧ Drafting.LoopsEnd m ∧
      (∀ d d' owner ending, advance m d = .ok (.opened owner ending) d' →
        d'.cursor.remaining < d.cursor.remaining ∧
          step m d = resume ⟨owner, ending, d'.block⟩ (run m ⟨{ d' with block := {} }, []⟩)) ∧
      (∀ d r, StepsTo m d r ↔ r = step m d) ∧
      ∀ source, ∃ r, ReadsTo m (start source) r ∧ parse m source = conclude r := by
  refine ⟨progress m, Reading.loopsEnd, Drafting.loopsEnd m, ?_, fun _ _ ↦ stepsTo_iff, ?_⟩
  · intro d d' owner ending h
    exact ⟨remaining_opened_lt h, step_of_opened h⟩
  · intro source
    exact ⟨_, (exists_descent m _).2, parse_eq_conclude m source⟩

end Document

end SharpOutline
