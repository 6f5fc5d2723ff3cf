import SharpOutline.Block.Progress

/-!
# Nested blocks

A namespace or a type has a block of its own. While that block is read, the block around it waits
on a stack of frames; when it has ended, its elements become children of the element that opened
it, and the block around it goes on. One machine thus reads blocks of any nesting, one character at
a time. What its moves can do is said once for all proofs (`Machine.Moves`, `Machine.Stops`).

Every move of the machine that does not end the outermost block makes progress: it passes a
character, or it takes a frame off the stack. A move that puts a frame on the stack has passed a
character, so twice the number of characters left together with the number of frames gets smaller
with every move (`Machine.measure_move`), and reading a block ends for every source text.
-/

namespace SharpOutline

open Drafting

/-- A block that waits for one inside it: the element that opened that one, how it ends, and the
state of the waiting block. -/
structure Frame where
  owner : ElementId
  ending : Ending
  block : Block
deriving DecidableEq, Repr

namespace Drafting

def readEnding : Ending → Reading Unit
  | .namespaceBrace => Reading.expect '\x7d'
  | .outerEnd => pure ()
  | .typeBrace => do
    Reading.expect '\x7d'
    skipSemicolon

/-- Ends a block and gives its elements to the element that opened it. -/
def endBlock (f : Frame) : Drafting Unit := do
  let elements ← finishBlock
  editAll (fun e t ↦ t.addChild f.owner e) elements
  read (readEnding f.ending)

/-- Ends a block and goes on with the one around it. -/
def leave (f : Frame) : Drafting Step := fun d ↦
  match endBlock f d with
  | .error e d' => .error e { d' with block := f.block }
  | .ok _ d' => emitMember f.owner { d' with block := f.block }

theorem tidy_readEnding (e : Ending) : (readEnding e).Tidy := by
  cases e
  · exact Reading.tidy_expect _
  · exact Reading.tidy_pure _
  · exact (Reading.tidy_expect _).bind fun _ ↦ tidy_skipSemicolon

theorem built_endBlock (f : Frame) : Built (endBlock f) :=
  built_finishBlock.bind fun _ ↦ (built_editAll (.addChild f.owner) _).bind fun _ ↦
    .read (tidy_readEnding _)

theorem forward_leave (f : Frame) : Forward (leave f) := by
  intro d
  obtain ⟨m, hm⟩ := (built_endBlock f).forward d
  unfold leave
  cases h : endBlock f d with
  | error e d' =>
    rw [h] at hm
    exact ⟨m, hm⟩
  | ok a d' =>
    rw [h] at hm
    obtain ⟨n, hn⟩ := (built_emitMember f.owner).forward { d' with block := f.block }
    refine ⟨m + n, ?_⟩
    rw [hn, show d'.cursor = d.cursor.skip m from hm, Cursor.skip_skip]

end Drafting

/-- A draft whose block may lie inside others, which wait in their frames, the nearest first. -/
structure Machine where
  draft : Draft
  frames : List Frame := []
deriving DecidableEq, Repr

namespace Machine

/-- The draft with the state of the outermost block. -/
def base (s : Machine) : Draft :=
  match s.frames.getLast? with
  | none => s.draft
  | some f => { s.draft with block := f.block }

theorem tree_base (s : Machine) : s.base.tree = s.draft.tree := by
  unfold base
  split <;> rfl

/-- Reads the next character of the innermost block, or ends that block. -/
def move (m : RegionMarkers) (s : Machine) : EStateM.Result Fault Machine Step :=
  match advance m s.draft with
  | .error e d => .error e { s with draft := d }
  | .ok (.opened owner ending) d =>
    .ok .more ⟨{ d with block := {} }, ⟨owner, ending, d.block⟩ :: s.frames⟩
  | .ok (.done .finished) d =>
    match s.frames with
    | [] => .ok .finished ⟨d, []⟩
    | f :: frames =>
      match leave f d with
      | .error e d' => .error e ⟨d', frames⟩
      | .ok step d' => .ok step ⟨d', frames⟩
  | .ok (.done step) d => .ok step { s with draft := d }

/-! ## Moves -/

/-- What a move that succeeds has done. -/
inductive Moves (m : RegionMarkers) (s : Machine) : Step → Machine → Prop
  /-- The block of an element has started. -/
  | opened {owner : ElementId} {ending : Ending} {d : Draft}
      (h : advance m s.draft = .ok (.opened owner ending) d) :
      Moves m s .more ⟨{ d with block := {} }, ⟨owner, ending, d.block⟩ :: s.frames⟩
  /-- The outermost block has ended. -/
  | ended {d : Draft} (h : advance m s.draft = .ok (.done .finished) d)
      (hframes : s.frames = []) : Moves m s .finished ⟨d, []⟩
  /-- A block inside another one has ended. -/
  | left {f : Frame} {frames : List Frame} {d d' : Draft} {step : Step}
      (h : advance m s.draft = .ok (.done .finished) d) (hframes : s.frames = f :: frames)
      (hleave : leave f d = .ok step d') : Moves m s step ⟨d', frames⟩
  /-- The innermost block has gone on. -/
  | stepped {d : Draft} {step : Step} (h : advance m s.draft = .ok (.done step) d)
      (hstep : step ≠ .finished) : Moves m s step ⟨d, s.frames⟩

/-- What a move that meets a fault has done. -/
inductive Stops (m : RegionMarkers) (s : Machine) (e : Fault) : Machine → Prop
  /-- The fault is met in the innermost block. -/
  | stepped {d : Draft} (h : advance m s.draft = .error e d) : Stops m s e ⟨d, s.frames⟩
  /-- The fault is met where a block inside another one ends. -/
  | left {f : Frame} {frames : List Frame} {d d' : Draft}
      (h : advance m s.draft = .ok (.done .finished) d) (hframes : s.frames = f :: frames)
      (hleave : leave f d = .error e d') : Stops m s e ⟨d', frames⟩

section Moves

variable {m : RegionMarkers} {s s' : Machine} {step : Step} {e : Fault}

/-- A move is what it has done. -/
theorem Moves.move (h : Moves m s step s') : s.move m = .ok step s' := by
  cases h with
  | opened h => rw [Machine.move, h]
  | ended h hframes => rw [Machine.move, h, hframes]
  | left h hframes hleave =>
    rw [Machine.move, h, hframes]
    dsimp only
    rw [hleave]
  | @stepped d step h hstep =>
    rw [Machine.move, h]
    cases step with
    | finished => exact absurd rfl hstep
    | more | produced n => rfl

theorem Stops.move (h : Stops m s e s') : s.move m = .error e s' := by
  cases h with
  | stepped h => rw [Machine.move, h]
  | left h hframes hleave =>
    rw [Machine.move, h, hframes]
    dsimp only
    rw [hleave]

theorem moves_or_stops (m : RegionMarkers) (s : Machine) :
    (∃ step s', Moves m s step s') ∨ ∃ e s', Stops m s e s' := by
  cases ha : advance m s.draft with
  | error e d => exact .inr ⟨e, _, .stepped ha⟩
  | ok signal d =>
    cases signal with
    | opened owner ending => exact .inl ⟨_, _, .opened ha⟩
    | done step =>
      by_cases hstep : step = .finished
      · rw [hstep] at ha
        cases hframes : s.frames with
        | nil => exact .inl ⟨_, _, .ended ha hframes⟩
        | cons f frames =>
          cases hleave : leave f d with
          | error e d' => exact .inr ⟨e, _, .left ha hframes hleave⟩
          | ok step d' => exact .inl ⟨_, _, .left ha hframes hleave⟩
      · exact .inl ⟨_, _, .stepped ha hstep⟩

theorem moves_of_move (h : s.move m = .ok step s') : Moves m s step s' := by
  rcases moves_or_stops m s with ⟨_, _, hm⟩ | ⟨_, _, hm⟩
  · cases hm.move.symm.trans h
    exact hm
  · cases hm.move.symm.trans h

theorem stops_of_move (h : s.move m = .error e s') : Stops m s e s' := by
  rcases moves_or_stops m s with ⟨_, _, hm⟩ | ⟨_, _, hm⟩
  · cases hm.move.symm.trans h
  · cases hm.move.symm.trans h
    exact hm

end Moves

/-- What is still to be done, as a number. -/
def measure (s : Machine) : Nat := 2 * s.draft.cursor.rest.length + s.frames.length

theorem length_rest_skip_succ {c : Cursor} (h : c.rest ≠ []) (n : Nat) :
    (c.skip (n + 1)).rest.length < c.rest.length := by
  have := List.length_pos_iff.mpr h
  rw [Cursor.rest_skip, List.length_drop]
  omega

/-- Every move gets nearer to the end, unless it finds that the outermost block has ended. -/
theorem measure_move {m : RegionMarkers} {s s' : Machine} {step : Step}
    (h : s.move m = .ok step s') :
    s'.measure < s.measure ∨ (step = .finished ∧ s.frames = [] ∧ s' = s) := by
  have hleft {f : Frame} {d d' : Draft} {step : Step} (hleave : leave f d = .ok step d') :
      d'.cursor.rest.length ≤ d.cursor.rest.length := by
    obtain ⟨n, hn⟩ := forward_leave f d
    rw [hleave] at hn
    rw [show d'.cursor = d.cursor.skip n from hn, Cursor.rest_skip, List.length_drop]
    exact Nat.sub_le _ _
  by_cases hend : endsBlock s.draft.cursor.peek
  · have hadvance : advance m s.draft = .ok (.done .finished) s.draft := if_pos hend
    cases moves_of_move h with
    | opened ha => cases hadvance.symm.trans ha
    | ended ha hframes =>
      cases hadvance.symm.trans ha
      exact .inr ⟨rfl, hframes, by rw [← hframes]⟩
    | left ha hframes hleave =>
      cases hadvance.symm.trans ha
      have hle := hleft hleave
      refine .inl ?_
      simp only [measure, hframes, List.length_cons]
      omega
    | stepped ha hstep =>
      cases hadvance.symm.trans ha
      exact absurd rfl hstep
  · have hpassed {signal : Signal} {d : Draft}
        (ha : advance m s.draft = .ok signal d) :
        d.cursor.rest.length < s.draft.cursor.rest.length := by
      obtain ⟨hne, n, hn⟩ := advance_passes (m := m) (by simpa using hend)
      rw [ha] at hn
      rw [show d.cursor = s.draft.cursor.skip (n + 1) from hn]
      exact length_rest_skip_succ hne n
    refine .inl ?_
    cases moves_of_move h with
    | opened ha =>
      have hlt := hpassed ha
      simp only [measure, List.length_cons]
      omega
    | ended ha hframes =>
      have hlt := hpassed ha
      simp only [measure, List.length_nil]
      omega
    | left ha hframes hleave =>
      have hlt := hpassed ha
      have hle := hleft hleave
      simp only [measure, hframes, List.length_cons]
      omega
    | stepped ha hstep =>
      have hlt := hpassed ha
      simp only [measure]
      omega

/-- Moves until the outermost block has moved on, and returns what it has done. -/
def settle (m : RegionMarkers) (s : Machine) : EStateM.Result Fault Draft Step :=
  match h : s.move m with
  | .error e s' => .error e s'.base
  | .ok step s' =>
    if hs : s'.frames = [] then .ok step s'.draft
    else
      have : s'.measure < s.measure := by
        rcases measure_move h with hlt | ⟨_, hf, rfl⟩
        · exact hlt
        · exact absurd hf hs
      settle m s'
termination_by s.measure

/-- Moves until the outermost block has ended. -/
def run (m : RegionMarkers) (s : Machine) : EStateM.Result Fault Draft Unit :=
  match h : s.move m with
  | .error e s' => .error e s'.base
  | .ok step s' =>
    if hs : step = .finished then .ok () s'.draft
    else
      have : s'.measure < s.measure := by
        rcases measure_move h with hlt | ⟨hf, _⟩
        · exact hlt
        · exact absurd hf hs
      run m s'
termination_by s.measure

end Machine

namespace Drafting

/-- One step of a block: a character, with everything that it starts. -/
def step (m : RegionMarkers) : Drafting Step := fun d ↦ Machine.settle m ⟨d, []⟩

/-- Reads a block of its own up to its end, and returns its elements. -/
def readBlock (m : RegionMarkers) : Drafting (List ElementId) := fun d ↦
  match Machine.run m ⟨{ d with block := {} }, []⟩ with
  | .error e d' => .error e { d' with block := d.block }
  | .ok _ d' =>
    match finishBlock d' with
    | .error e d'' => .error e { d'' with block := d.block }
    | .ok elements d'' => .ok elements { d'' with block := d.block }

end Drafting

end SharpOutline
