import SharpOutline.Proofs.Block.PlacedRuns

/-!
# Runs in front of a line break

A text that does not end with a line may still be followed by a line break and another text. Where
something has been read up to the end of the shorter text, the line break is there in the longer
one, and nothing that is read looks for it. The one exception are the accessors of a property:
behind them an initial value may follow on a later line, and it is looked for there
(`Draft.EndsInAccessors`).

So the run of a text is the first part of the run of a longer one, up to the end of the text or to
such accessors (`Machine.run_to_break`).
-/

namespace SharpOutline

open Pairing

/-- The placement with a line break before what follows. -/
def Placement.lined (w : Placement) : Placement := w.followed ('\n' :: w.after)

theorem Placement.ready_lined (w : Placement) (t : Text) : Ready w.lined.after w.after t :=
  .inl (.inr rfl)

/-- The next character opens the accessors of a property, and only blanks are left behind them. -/
def Draft.EndsInAccessors (d : Draft) : Prop :=
  d.cursor.peek = '\x7b' ∧ ∃ r d₁, Drafting.accessors { d with cursor := d.cursor.advance } =
    .ok r d₁ ∧ r.1 ≠ .event ∧ ¬Written d₁.cursor.rest

/-- Accessors behind which something but blanks is left. -/
theorem Drafting.opensIn_lined (w : Placement) (m : RegionMarkers) {d : Draft}
    (hlate : ¬d.EndsInAccessors) : OpensIn w.lined w.after m d := by
  intro hpeek prior signal d' hd
  rw [react_brace] at hd
  obtain ⟨step, hstep, rfl⟩ := done_eq_ok.mp hd
  obtain ⟨r, d₁, hread, hfinish⟩ := bind_eq_ok.mp hstep
  have haccessors : w.lined.Firm w.after prior Sound Clear id accessors accessors := firm_accessors
  obtain ⟨hm, hready⟩ := haccessors.mirrors hread (w.ready_lined _).sound
  have hwritten : r.1 ≠ .event → Written d₁.cursor.rest := by
    intro hevent
    by_contra hblank
    exact hlate ⟨hpeek, r, d₁, hread, hevent, hblank⟩
  have hlast : w.lined.Last w.after prior (fun u v t ↦ Ready u v t ∧ (r.1 ≠ .event → Written t))
      Any id (finishAccessors r) (finishAccessors r) := last_finishAccessors fun _ ht ↦ ht
  exact reaches_react_brace (hm.bind_reaches (hlast.reaches hfinish ⟨hready, hwritten⟩))

namespace Machine

variable {w : Placement} {prior : List ElementId} {m : RegionMarkers} {s s' t : Machine}
  {d : Draft} {step : Step}

/-- **One move** in front of a line break. If it leaves nothing of the text, the break may have been
passed. -/
theorem Placed.moves_lined (h : Placed w.lined prior s t) (hm : Moves m s step s')
    (hclear : s.draft.cursor.rest ≠ []) (hlate : ¬s.draft.EndsInAccessors) :
    ∃ t', Moves m t step t' ∧ (Placed w.lined prior s' t' ∨
      s'.draft.cursor.rest = [] ∧ Placed w prior s' t') :=
  h.moves hm (w.ready_lined _) (.inr hclear) (Drafting.opensIn_lined w m hlate)

/-- Where the run of a text has come to, and that of a longer text with it: nothing is left of the
text, or accessors end it. In the first case the line break behind the text may have been passed. -/
def Abreast (m : RegionMarkers) (s s' : Machine) : Prop :=
  ∀ ⦃w prior t⦄, Placed w.lined prior s t → ∃ t', run m t = run m t' ∧
    (Placed w.lined prior s' t' ∨ s'.draft.cursor.rest = [] ∧ Placed w prior s' t')

/-- **A run up to a line break.** A text is read in front of a line break as it is read alone, until
nothing of it is left or it ends in the accessors of a property. What moves keep is true there. -/
theorem run_to_break {I : Machine → Prop}
    (hmoves : ∀ {s s' step}, I s → Moves m s step s' → I s')
    (hrun : Machine.run m s = .ok () d) (hend : d.cursor.rest = []) (hs : I s) :
    ∃ s', I s' ∧ Machine.run m s' = .ok () d ∧ Abreast m s s' ∧
      (s'.draft.cursor.rest = [] ∨ s'.draft.EndsInAccessors) := by
  have habreast : ∀ s, Abreast m s s := fun s w prior t h ↦ ⟨t, rfl, .inl h⟩
  fun_induction Machine.run m s with
  | case1 s e s' hm => cases hrun
  | case2 s s' hm =>
    have hm := moves_of_move hm
    have hframes := hm.frames_eq_nil
    obtain ⟨hpeek, rfl⟩ := hm.eq_of_finished
    cases hrun
    refine ⟨s', hs, ?_, habreast s', .inl hend⟩
    rw [show s' = ⟨s'.draft, []⟩ by rw [← hframes]]
    exact run_of_end hpeek
  | case3 s step s' hm hstep hlt ih =>
    have hm := moves_of_move hm
    by_cases hstop : s.draft.cursor.rest = [] ∨ s.draft.EndsInAccessors
    · refine ⟨s, hs, ?_, habreast s, hstop⟩
      rw [hm.run_eq, hrun]
    rw [not_or] at hstop
    have hone : Abreast m s s' := by
      intro w prior t h
      obtain ⟨t', hm', hplaced⟩ := h.moves_lined hm hstop.1 hstop.2
      exact ⟨t', hm'.run_eq, hplaced⟩
    by_cases hnil : s'.draft.cursor.rest = []
    · exact ⟨s', hmoves hs hm, hrun, hone, .inl hnil⟩
    · obtain ⟨s'', hs'', hrun'', hlater, hend''⟩ := ih hrun (hmoves hs hm)
      refine ⟨s'', hs'', hrun'', fun w prior t h ↦ ?_, hend''⟩
      obtain ⟨t', heq, hplaced⟩ := hone h
      obtain ⟨t'', heq', hplaced'⟩ := hlater (hplaced.resolve_right fun hp ↦ hnil hp.1)
      exact ⟨t'', heq.trans heq', hplaced'⟩

end Machine

end SharpOutline
