import SharpOutline.Proofs.Document.Compose

/-!
# A comment that waits for a declaration

Two runs over the same text are compared: in the second one a comment waits in the outermost block
from the beginning. Until the first element is added to that block, or a scope is opened in it, the
second run does the same as the first one, and the comment still waits (`Machine.noted`). If the
first element is a declaration then the comment is put above it, and as long as the block gains
nothing else there is no further difference (`Machine.Heeds`). Otherwise the run does not end with
one declaration, because what has happened to the block cannot be undone (`Machine.Spoiled`). So a
comment that waits in front of a text of one declaration is the first one above that declaration in
the end (`Machine.run_noted`).
-/

namespace SharpOutline

open SharpOutline.Tree Drafting

/-! ## Blocks that end with more than a declaration -/

namespace Draft

variable {d d' : Draft} {α : Type} {o : α → Option (Option ElementId)} {p : Drafting α} {a : α}

/-- The block has an element and something else. -/
def Crowded (d : Draft) : Prop :=
  2 ≤ d.block.elements.length ∨
    d.block.elements ≠ [] ∧ d.block ≠ { elements := d.block.elements }

variable {n : Nat}

theorem Crowded.elements_ne_nil (h : d.Crowded) : d.block.elements ≠ [] := by
  rcases h with h | h
  · rintro hnil
    rw [hnil] at h
    cases h
  · exact h.1

/-- A block with an element gains another one, unless a scope is open. -/
theorem Gains.crowded {x : ElementId} {ids : List ElementId} (h : d.Gains n (x :: ids) d')
    (hne : d.block.elements ≠ []) : d'.Crowded := by
  have helements := h.elements
  by_cases hscopes : d.block.scopes = []
  · refine .inl ?_
    have hpos := List.length_pos_iff.mpr hne
    rw [helements, if_pos hscopes, List.length_append, List.length_cons]
    omega
  · refine .inr ⟨?_, fun hblock ↦ hscopes ?_⟩
    · rw [helements]
      simp [hne]
    · rw [← h.scopes, hblock]

/-- If the block has an element already, then nothing happens, or it has something else too. -/
theorem crowded_of_turn (h : Turn o Lasting p d a d') (ho : o a = some none)
    (hbegun : Text.Begun d.block.text) (hne : d.block.elements ≠ []) :
    d'.Crowded ∨ ∃ c, d' = { d with cursor := c } ∧
      ∀ t, p { d with tree := t } = .ok a ⟨c, t, d.block⟩ := by
  cases h with
  | @wrote c text _ hlasting hp =>
    by_cases htext : text = []
    · subst htext
      have hnil : d.block.text = [] := hbegun.eq_nil (hlasting rfl)
      have hblock : { d.block with text := [] } = d.block := Block.with_text hnil
      exact .inr ⟨c, by rw [hblock], fun t ↦ (hp t d.block rfl).trans (by rw [hblock])⟩
    · exact .inl (.inr ⟨hne, fun hblock ↦ htext (congrArg Block.text hblock)⟩)
  | held _ hgains hwaits _ =>
    have helements : d'.block.elements = d.block.elements := by simpa using hgains.elements
    refine .inl (.inr ⟨helements ▸ hne, fun hblock ↦ ?_⟩)
    rcases hwaits with hwaits | hwaits
    · exact hwaits (by rw [hblock])
    · exact hwaits (by rw [hblock])
  | opened hopened => rw [ho] at hopened; cases hopened
  | member _ hgains _ => exact .inl (hgains.crowded hne)
  | other _ _ _ helements hgrows _ =>
    have hne' : d'.block.elements ≠ [] := fun hnil ↦ hne (List.prefix_nil.mp (hnil ▸ helements))
    rcases hgrows with hscopes | hgrows
    · exact .inl (.inr ⟨hne', fun hblock ↦ hscopes (by rw [hblock])⟩)
    · have hpos := List.length_pos_iff.mpr hne
      exact .inl (.inl (by omega))

theorem Foreign.mono (h : d.Foreign) (hspares : Tree.Spares n d.tree d'.tree)
    (hclaims : d.block.claims <+: d'.block.claims) : d'.Foreign := by
  obtain ⟨x, hx, kind, hkind, hforeign⟩ := h
  refine ⟨x, hclaims.subset hx, kind, ?_, hforeign⟩
  obtain ⟨m, hm, -⟩ := Option.map_eq_some_iff.mp hkind
  rw [hspares.kind (lt_of_get? hm), hkind]

end Draft

namespace Drafting

variable {α : Type} {o : α → Option (Option ElementId)} {R : Text → Text → Prop} {p : Drafting α}
  {d d' : Draft} {a : α}

/-- A character gives comments to new declarations only. -/
theorem Turn.spares (h : Turn o R p d a d') : Spares d.tree.size d.tree d'.tree := by
  cases h with
  | wrote => exact .refl _ _
  | held _ hgains | opened _ hgains | member _ hgains => exact hgains.spares
  | other _ hspares => exact hspares

theorem Turn.claims (h : Turn o R p d a d') : d.block.claims <+: d'.block.claims := by
  cases h with
  | wrote => exact List.prefix_rfl
  | held _ hgains | opened _ hgains | member _ hgains => exact hgains.claims
  | other _ _ hclaims => exact hclaims

theorem spares_endBlock {n : Nat} {f : Frame} {a : Unit} (h : endBlock f d = .ok a d') :
    Spares n d.tree d'.tree := by
  obtain ⟨ids, d₁, hfinish, h⟩ := bind_eq_ok.mp h
  obtain ⟨-, -, -, -, htree, -⟩ := finishBlock_eq_ok hfinish
  obtain ⟨⟨⟩, d₂, hedit, h⟩ := bind_eq_ok.mp h
  have hgains := (gains_editAll (n := n) spares_addChild hedit).trans (gains_read h)
  exact htree ▸ hgains.spares

end Drafting

/-! ## The machine -/

namespace Machine

variable {m : RegionMarkers} {s s' t : Machine} {step : Step} {k : ElementId}

/-- Blocks wait for declarations without comments, of which an inner one is newer. -/
structure Bare (s : Machine) : Prop where
  sorted : s.frames.Pairwise fun f g ↦ g.owner < f.owner
  bare : ∀ f ∈ s.frames, s.draft.tree.Bare f.owner

/-- A comment stands nowhere and does not wait, where a declaration may be added to the outermost
block. -/
structure Aside (k : ElementId) (s : Machine) : Prop where
  top : s.frames = [] → s.draft.Aside k
  back : ∀ {f e}, s.frames = [f] → endsBlock s.draft.cursor.peek = true →
    endBlock f s.draft = .ok () e → Draft.Aside k { e with block := f.block }

variable {d e d' : Draft} {fs : List Frame} {n : Nat} {x : ElementId}

theorem block_base (hfs : fs ≠ []) :
    (base ⟨e, fs⟩).block = (base ⟨d, fs⟩).block := by
  obtain ⟨f, hf⟩ := Option.ne_none_iff_exists'.mp (mt List.getLast?_eq_none_iff.mp hfs)
  simp only [base, hf]

theorem block_base_cons {f : Frame} (hfs : fs ≠ []) :
    (base ⟨e, f :: fs⟩).block = (base ⟨d, fs⟩).block := by
  obtain ⟨g, gs, rfl⟩ := List.exists_cons_of_ne_nil hfs
  rw [← block_base (d := d) (e := e) (List.cons_ne_nil g gs)]
  simp only [base, List.getLast?_cons_cons]

theorem Bare.moves (h : s.Bare) (hm : Moves m s step s') : s'.Bare := by
  cases hm with
  | @opened owner ending d ha =>
    have hturn := turn_advance ha nofun
    have hspares := hturn.spares
    cases hturn with
    | opened ho _ hnew =>
      obtain rfl : owner = s.draft.tree.size := Option.some.inj (Option.some.inj ho)
      refine ⟨.cons (fun f hf ↦ (h.bare f hf).lt) h.sorted, ?_⟩
      rintro f (_ | ⟨_, hf⟩)
      · exact hnew
      · exact (h.bare f hf).spares hspares (h.bare f hf).lt
    | wrote ho | held ho | member ho | other ho => cases ho
  | ended => exact ⟨.nil, by simp⟩
  | @left f frames d d' step ha hframes hleave =>
    obtain ⟨-, rfl⟩ := advance_eq_finished ha
    obtain ⟨e, hend, hemit⟩ := leave_eq_ok hleave
    have hsorted := hframes ▸ h.sorted
    rw [List.pairwise_cons] at hsorted
    have hbare := h.bare f (by simp [hframes])
    have hended : Spares f.owner s.draft.tree e.tree := spares_endBlock hend
    obtain ⟨ids, hgains⟩ := (announces_emitMember f.owner hemit).gains (Nat.le_refl _)
      (Nat.le_trans (Nat.le_of_lt hbare.lt) hended.size)
    refine ⟨hsorted.2, fun g hg ↦ ?_⟩
    exact (h.bare g (by simp [hframes, hg])).spares (hended.trans hgains.spares) (hsorted.1 g hg)
  | stepped ha hstep =>
    have hspares := (turn_advance ha fun hdone ↦ hstep (Signal.done.inj hdone)).spares
    exact ⟨h.sorted, fun f hf ↦ (h.bare f hf).spares hspares (h.bare f hf).lt⟩

/-! ## Runs that do not end with one declaration -/

/-- The outermost block has an element and something else, or something that is no declaration. -/
def Spoiled (s : Machine) : Prop :=
  s.base.Crowded ∨ s.base.block.elements ≠ [] ∧ s.frames ≠ [] ∨ s.base.Foreign

theorem Spoiled.inner (h : s.Spoiled) (hframes : s'.frames ≠ [])
    (hblock : s'.base.block = s.base.block) (hspares : Spares n s.draft.tree s'.draft.tree) :
    s'.Spoiled := by
  rw [← tree_base, ← tree_base s'] at hspares
  rcases h with h | h | h
  · exact .inl (by rwa [Draft.Crowded, hblock])
  · exact .inr (.inl ⟨hblock ▸ h.1, hframes⟩)
  · exact .inr (.inr (h.mono hspares (hblock ▸ List.prefix_rfl)))

/-- A block inside ends, and a declaration is added to the outermost one. -/
theorem Spoiled.back {f : Frame} (h : Spoiled ⟨d, [f]⟩) (hend : endBlock f d = .ok () e)
    (hemit : emitMember f.owner { e with block := f.block } = .ok step d') : Spoiled ⟨d', []⟩ := by
  obtain ⟨ids, hgains⟩ := (announces_emitMember f.owner hemit).gains (Nat.zero_le _) (Nat.zero_le _)
  have hcrowded (hne : f.block.elements ≠ []) : Spoiled ⟨d', []⟩ := .inl (hgains.crowded hne)
  rcases h with h | h | h
  · exact hcrowded h.elements_ne_nil
  · exact hcrowded h.1
  · exact .inr (.inr (h.mono ((spares_endBlock hend).trans hgains.spares) hgains.claims))

theorem Spoiled.top {signal : Signal} (h : Spoiled ⟨d, []⟩) (hbegun : Text.Begun d.block.text)
    (hturn : Turn Signal.outcome Lasting (advance m) d signal d') :
    d'.Foreign ∨ d'.block.elements ≠ [] ∧ (signal.outcome = some none → d'.Crowded) := by
  have hcrowded (hne : d.block.elements ≠ []) (hd : d.Crowded) :
      d'.block.elements ≠ [] ∧ (signal.outcome = some none → d'.Crowded) := by
    refine ⟨fun hnil ↦ hne ?_, fun ho ↦ ?_⟩
    · cases hturn with
      | wrote => exact hnil
      | held _ hgains | opened _ hgains | member _ hgains =>
        exact (List.append_eq_nil_iff.mp (hgains.elements.symm.trans hnil)).1
      | other _ _ _ helements => exact List.prefix_nil.mp (hnil ▸ helements)
    · rcases Draft.crowded_of_turn hturn ho hbegun hne with h | ⟨c, rfl, -⟩
      · exact h
      · exact hd
  rcases h with h | h | h
  · exact .inr (hcrowded h.elements_ne_nil h)
  · exact absurd rfl h.2
  · exact .inl (h.mono hturn.spares hturn.claims)

/-- **One move** does not undo what has happened to the outermost block. -/
theorem Spoiled.moves (h : s.Spoiled) (hbegun : Text.Begun s.draft.block.text)
    (hm : Moves m s step s') : s'.Spoiled := by
  obtain ⟨d₀, fs⟩ := s
  cases hm with
  | @opened owner ending d ha =>
    have hturn := turn_advance ha nofun
    by_cases hfs : fs = []
    · subst hfs
      rcases h.top hbegun hturn with h | h
      · exact .inr (.inr h)
      · exact .inr (.inl ⟨h.1, by simp⟩)
    · exact h.inner (by simp) (block_base_cons hfs) hturn.spares
  | ended ha hframes =>
    obtain ⟨-, rfl⟩ := advance_eq_finished ha
    obtain rfl : fs = [] := hframes
    exact h
  | @left f frames d d' step ha hframes hleave =>
    obtain ⟨-, rfl⟩ := advance_eq_finished ha
    obtain rfl : fs = f :: frames := hframes
    obtain ⟨e, hend, hemit⟩ := leave_eq_ok hleave
    by_cases hfs : frames = []
    · subst hfs
      exact h.back hend hemit
    · obtain ⟨ids, hgains⟩ := (announces_emitMember f.owner hemit).gains (Nat.zero_le _)
        (Nat.zero_le _)
      exact h.inner hfs (block_base_cons hfs).symm ((spares_endBlock hend).trans hgains.spares)
  | stepped ha hstep =>
    have hturn := turn_advance ha fun hdone ↦ hstep (Signal.done.inj hdone)
    by_cases hfs : fs = []
    · subst hfs
      rcases h.top hbegun hturn with h | h
      · exact .inr (.inr h)
      · exact .inl (h.2 (Step.outcome_of_ne hstep))
    · exact h.inner hfs (block_base hfs) hturn.spares

theorem not_spoiled {kind : Kind} (hblock : d.block = { elements := [x] })
    (hkind : d.tree.kind? x = some kind)
    (hdeclares : kind.isDeclaration = true) : ¬Spoiled ⟨d, []⟩ := by
  rintro ((hlength | ⟨-, hmore⟩) | ⟨-, hframes⟩ | ⟨y, hy, kind', hkind', hforeign⟩)
  · rw [show (base ⟨d, []⟩).block = _ from hblock] at hlength
    exact absurd hlength (Nat.not_succ_le_self 1)
  · rw [show (base ⟨d, []⟩).block = _ from hblock] at hmore
    exact hmore rfl
  · exact hframes rfl
  · rw [show (base ⟨d, []⟩).block = _ from hblock] at hy
    obtain rfl : y = x := by simpa [Block.claims] using hy
    obtain rfl : kind = kind' := Option.some.inj (hkind.symm.trans hkind')
    exact absurd (hdeclares.symm.trans hforeign) (by decide)

/-! ## One more comment -/

def noteFrames (k : ElementId) : List Frame → List Frame
  | [] => []
  | [f] => [{ f with block := f.block.noted k }]
  | f :: g :: fs => f :: noteFrames k (g :: fs)

/-- The machine with one more comment that waits in the outermost block. -/
def noted (k : ElementId) (s : Machine) : Machine :=
  match s.frames with
  | [] => ⟨s.draft.noted k, []⟩
  | f :: fs => ⟨s.draft, noteFrames k (f :: fs)⟩

/-- What one more comment has changed: it waits, and the outermost block has gained nothing so far,
or it stands above a declaration that is all that the outermost block has. -/
inductive Heeds (k : ElementId) : Machine → Machine → Prop
  | waiting {s : Machine} (hscopes : s.base.block.scopes = [])
      (helements : s.base.block.elements = []) : Heeds k s (s.noted k)
  | given {d : Draft} {x : ElementId} (hblock : d.block = { elements := [x] }) :
      Heeds k ⟨d, []⟩ ⟨{ d with tree := d.tree.headed x k }, []⟩

/-- The first declaration of the outermost block is all that it has, or there is more. -/
theorem crowded_or_eq {ids : List ElementId} (hscopes : d.block.scopes = [])
    (helements : d.block.elements = []) (h : d.Gains n (x :: ids) d') :
    d'.Crowded ∨ d'.block = { elements := [x] } := by
  have helements' : d'.block.elements = x :: ids := by simpa [hscopes, helements] using h.elements
  by_cases hids : ids = []
  · subst hids
    by_cases hblock : d'.block = { elements := [x] }
    · exact .inr hblock
    · exact .inl (.inr ⟨by simp [helements'], by rwa [helements']⟩)
  · have hpos := List.length_pos_iff.mpr hids
    exact .inl (.inl (by rw [helements', List.length_cons]; omega))

/-- **One move** with one more comment that waits in the outermost block. -/
theorem moves_noted (haside : s.Aside k) (hbare : s.Bare) (hscopes : s.base.block.scopes = [])
    (helements : s.base.block.elements = []) (hm : Moves m s step s') :
    s'.Spoiled ∨ ∃ t, Moves m (s.noted k) step t ∧ Heeds k s' t := by
  obtain ⟨d₀, fs⟩ := s
  -- Only where no other block waits, or the last one goes on, is the outermost block at work.
  cases fs with
  | nil =>
    have hscopes : d₀.block.scopes = [] := hscopes
    have helements : d₀.block.elements = [] := helements
    have hwaiting {n : Nat} {d : Draft} (hgains : d₀.Gains n [] d) :
        d.block.scopes = [] ∧ d.block.elements = [] :=
      ⟨hgains.scopes.trans hscopes, by simpa [helements] using hgains.elements⟩
    cases hm with
    | @opened owner ending d ha =>
      cases turn_advance ha nofun with
      | opened ho hgains hnew hnoted =>
        obtain ⟨hscopes', helements'⟩ := hwaiting hgains
        exact .inr ⟨_, .opened (hnoted k), .waiting hscopes' helements'⟩
      | wrote ho | held ho | member ho | other ho => cases ho
    | ended ha hframes =>
      obtain ⟨hend, rfl⟩ := advance_eq_finished ha
      exact .inr ⟨_, .ended (if_pos hend) rfl, .waiting hscopes helements⟩
    | left ha hframes hleave => cases hframes
    | stepped ha hstep =>
      cases turn_advance ha fun hdone ↦ hstep (Signal.done.inj hdone) with
      | wrote ho hlasting hp =>
        exact .inr ⟨_, .stepped (hp d₀.tree (d₀.block.noted k) rfl) hstep,
          .waiting hscopes helements⟩
      | held ho hgains hwaits hnoted =>
        obtain ⟨hscopes', helements'⟩ := hwaiting hgains
        exact .inr ⟨_, .stepped (hnoted k) hstep, .waiting hscopes' helements'⟩
      | opened ho => cases (Step.outcome_of_ne hstep).symm.trans ho
      | member ho hgains hgiven =>
        rcases crowded_or_eq hscopes helements hgains with h | h
        · exact .inl (.inl h)
        · refine .inr ⟨_, .stepped (hgiven (haside.top rfl) hscopes ?_) hstep, .given h⟩
          rw [h, helements]
          rfl
      | other ho hspares hclaims helements' hgrows hforeign =>
        exact .inl (.inr (.inr (hforeign hscopes)))
  | cons f fs =>
    cases hm with
    | opened ha =>
      refine .inr ⟨_, .opened ha, .waiting ?_ ?_⟩
      · exact (congrArg Block.scopes (block_base_cons (List.cons_ne_nil f fs))).trans hscopes
      · exact (congrArg Block.elements (block_base_cons (List.cons_ne_nil f fs))).trans helements
    | ended ha hframes => cases hframes
    | @left f frames d d' step ha hframes hleave =>
      cases hframes
      cases fs with
      | cons g gs =>
        refine .inr ⟨_, .left ha rfl hleave, .waiting ?_ ?_⟩
        · exact (congrArg Block.scopes (block_base_cons (List.cons_ne_nil g gs))).symm.trans hscopes
        · exact (congrArg Block.elements
            (block_base_cons (List.cons_ne_nil g gs))).symm.trans helements
      | nil =>
        obtain ⟨hpeek, rfl⟩ := advance_eq_finished ha
        obtain ⟨e, hend, hemit⟩ := leave_eq_ok hleave
        have hscopes : f.block.scopes = [] := hscopes
        have helements : f.block.elements = [] := helements
        have hspares : Spares (f.owner + 1) d.tree e.tree := spares_endBlock hend
        have hready : Draft.Ready k f.owner { e with block := f.block } :=
          ⟨haside.back rfl hpeek hend,
            (hbare.bare f List.mem_cons_self).spares hspares (Nat.lt_succ_self _)⟩
        have hnew := announces_emitMember f.owner hemit
        obtain ⟨ids, hgains⟩ := hnew.gains (Nat.zero_le _) (Nat.zero_le _)
        rcases crowded_or_eq hscopes helements hgains with h | h
        · exact .inl (.inl h)
        · refine .inr ⟨_, .left ha rfl ?_, .given h⟩
          have hgiven := hnew.given hready hscopes (by rw [h, helements]; rfl)
          rw [leave, show endBlock { f with block := f.block.noted k } = endBlock f from rfl, hend]
          exact hgiven
    | stepped ha hstep =>
      refine .inr ⟨_, .stepped ha hstep, .waiting ?_ ?_⟩
      · exact (congrArg Block.scopes (block_base (List.cons_ne_nil f fs))).trans hscopes
      · exact (congrArg Block.elements (block_base (List.cons_ne_nil f fs))).trans helements

/-- **One move** after the comment has been put above the only declaration of the outermost
block. -/
theorem moves_headed (hblock : d.block = { elements := [x] })
    (hm : Moves m ⟨d, []⟩ step s') :
    s'.Spoiled ∨ ∃ t, Moves m ⟨{ d with tree := d.tree.headed x k }, []⟩ step t ∧ Heeds k s' t := by
  have hne : d.block.elements ≠ [] := by simp [hblock]
  have hbegun : Text.Begun d.block.text := by
    rw [hblock]
    exact .nil
  cases hm with
  | @opened owner ending d' ha =>
    cases turn_advance ha nofun with
    | opened ho hgains hnew hnoted =>
      refine .inl (.inr (.inl ⟨?_, by simp⟩))
      rw [show base _ = d' from rfl, hgains.elements]
      simp [hne]
    | wrote ho | held ho | member ho | other ho => cases ho
  | ended ha hframes =>
    obtain ⟨hend, rfl⟩ := advance_eq_finished ha
    exact .inr ⟨_, .ended (if_pos hend) rfl, .given hblock⟩
  | left ha hframes hleave => cases hframes
  | stepped ha hstep =>
    have hturn := turn_advance ha fun hdone ↦ hstep (Signal.done.inj hdone)
    rcases Draft.crowded_of_turn hturn (Step.outcome_of_ne hstep) hbegun hne with h | ⟨c, rfl, hp⟩
    · exact .inl (.inl h)
    · exact .inr ⟨_, .stepped (hp (d.tree.headed x k)) hstep, .given hblock⟩

theorem Heeds.moves (h : Heeds k s t) (haside : s.Aside k) (hbare : s.Bare)
    (hm : Moves m s step s') : s'.Spoiled ∨ ∃ t', Moves m t step t' ∧ Heeds k s' t' := by
  cases h with
  | waiting hscopes helements => exact moves_noted haside hbare hscopes helements hm
  | given hblock => exact moves_headed hblock hm

end Machine

/-! ## Runs -/

/-- A comment that stands nowhere. -/
def Tree.ofComment (c : Comment) : Tree := ({} : Tree).create [] (.comment c)

/-- Behind the comment all elements have other numbers. -/
theorem Placement.Places.aside {w : Placement} {d e : Draft} {c : Comment} (h : w.Places [] d e)
    (hw : w.before = ofComment c) (hroots : d.tree.roots = []) : e.Aside 0 := by
  have hget : e.tree.get? 0 = (ofComment c).get? 0 := by
    rw [h.tree, hw]
    exact get?_append_left (Nat.zero_lt_one)
  refine ⟨?_, ?_, ?_, ?_, ?_⟩
  · rw [kind?, hget]
    rfl
  · rw [parent?, hget]
    rfl
  · rw [h.tree, hw]
    exact List.map_eq_nil_iff.mpr hroots
  · rw [h.block, hw]
    simp [Block.shift, ofComment, size_create]
  · rw [h.block, hw]
    simp [Block.shift, ofComment, size_create]

namespace Machine

variable {m : RegionMarkers} {s s' t : Machine} {step : Step} {w : Placement} {c : Comment}
  {d f g : Draft}

/-- The comment in front of a text stands nowhere as long as the text is read. -/
theorem Placed.aside (h : Placed w [] s t) (hw : w.before = ofComment c) (hafter : w.after = [])
    (hs : s.Holds) (hm : Moves m s step s') : t.Aside 0 := by
  obtain ⟨d, fs⟩ := s
  have hplaces : w.Places [] d t.draft := by
    have hdraft := h.draft
    cases fs <;> exact hdraft
  refine ⟨fun _ ↦ hplaces.aside hw hs.draft.made.roots, fun {f e} hframes hpeek hend ↦ ?_⟩
  obtain ⟨g, rfl, rfl⟩ : ∃ g, fs = [g] ∧ f = g.shift w.before.size [] := by
    have hframes' := hframes.symm.trans h.frames
    match fs with
    | [] => cases hframes'
    | [g] => exact ⟨g, rfl, (List.cons.inj hframes').1⟩
    | g :: g' :: gs => cases hframes'
  -- The block ends in the text alone as well, where nothing is a root.
  rw [Cursor.peek, hplaces.rest, hafter, List.append_nil] at hpeek
  obtain ⟨d', hleave, -⟩ := hm.left_of_endsBlock hpeek rfl
  obtain ⟨e', hend', -⟩ := leave_eq_ok hleave
  have hm' := ((firm_endBlock w [] [] g).mirrors hend' (.inl (.inl hafter))).1
  obtain ⟨e'', hend'', hplaces'⟩ := hm' _ hplaces
  cases hend.symm.trans hend''
  have hdraft : d.Holds [] (g.stems ++ []) := hs.draft
  have hroots := (holds_endBlock hdraft hend').2.roots
  have hback : w.Places [] { e' with block := g.block }
      { e with block := (g.shift w.before.size []).block } := ⟨hplaces'.rest, hplaces'.tree, rfl⟩
  exact hback.aside hw hroots

/-- How far a text behind a comment has been read when the text alone has been read up to `s`: once
without the comment, and once from `t` on, where it waits. -/
def Trails (m : RegionMarkers) (w : Placement) (t s : Machine) : Prop :=
  s.Holds ∧ ∃ s₀, Placed w [] s s₀ ∧ s₀.Bare ∧
    (s₀.Spoiled ∨ ∃ t', run m t = run m t' ∧ Heeds 0 s₀ t')

theorem Trails.moves (h : Trails m w t s) (hw : w.before = ofComment c) (hafter : w.after = [])
    (hm : Moves m s step s') : Trails m w t s' := by
  obtain ⟨hs, s₀, hplaced, hbare, h⟩ := h
  obtain ⟨s₁, hm₁, hplaced₁⟩ := hplaced.moves_alone hafter hm
  refine ⟨hs.moves hm, s₁, hplaced₁, hbare.moves hm₁, ?_⟩
  rcases h with hspoiled | ⟨t', heq, hheeds⟩
  · refine .inl (hspoiled.moves ?_ hm₁)
    rw [hplaced.draft.block]
    exact hs.draft.text
  · refine (hheeds.moves (hplaced.aside hw hafter hs hm) hbare hm₁).imp_right ?_
    rintro ⟨t'', hm', hheeds'⟩
    exact ⟨t'', heq.trans hm'.run_eq, hheeds'⟩

/-- **A run with one more comment.** If a text alone gives one declaration, then with a comment
that waits from the beginning that comment is the first one above the declaration, and nothing else
is different. -/
theorem run_noted {x : ElementId} {kind : Kind} (hplaced : Placed w [] ⟨g, []⟩ ⟨f, []⟩)
    (hw : w.before = ofComment c) (hafter : w.after = []) (hg : Holds ⟨g, []⟩)
    (hstart : g.block = {}) (hrun : run m ⟨g, []⟩ = .ok () d)
    (hblock : d.block = { elements := [x] }) (hkind : d.tree.kind? x = some kind)
    (hdeclares : kind.isDeclaration = true) :
    ∃ e, run m ⟨f.noted 0, []⟩ = .ok () e ∧ e.cursor.rest = d.cursor.rest ∧
      e.tree = (w.before.append d.tree).headed (w.before.size + x) 0 ∧
        e.block = { elements := [w.before.size + x] } := by
  have hfblock : f.block = {} := by
    rw [hplaced.draft.block, hstart]
    rfl
  have hbegin : Trails m w ⟨f.noted 0, []⟩ ⟨g, []⟩ := by
    refine ⟨hg, _, hplaced, ⟨.nil, by simp⟩, .inr ⟨_, rfl, .waiting ?_ ?_⟩⟩
    · exact congrArg Block.scopes hfblock
    · exact congrArg Block.elements hfblock
  obtain ⟨-, ⟨e, fs⟩, hplaced', -, h⟩ :=
    run_induction (fun h hm ↦ h.moves hw hafter hm) hbegin hrun
  obtain rfl : fs = [] := hplaced'.frames
  have heblock : e.block = { elements := [w.before.size + x] } := by
    rw [hplaced'.draft.block, hblock]
    rfl
  have hekind : e.tree.kind? (w.before.size + x) = some kind := by
    obtain ⟨n, hn, rfl⟩ := Option.map_eq_some_iff.mp hkind
    rw [hplaced'.draft.tree, kind?, get?_append, hn]
    simp
  obtain ⟨t, heq, hheeds⟩ := h.resolve_left (not_spoiled heblock hekind hdeclares)
  cases hheeds with
  | waiting hscopes helements =>
    rw [show (base ⟨e, []⟩).block = _ from heblock] at helements
    cases helements
  | @given _ y hblock' =>
    obtain rfl : w.before.size + x = y := by
      rw [heblock] at hblock'
      exact (List.cons.inj (congrArg Block.elements hblock')).1
    have hpeek : endsBlock e.cursor.peek = true := by
      rw [Cursor.peek, hplaced'.draft.rest, hafter, List.append_nil]
      exact endsBlock_of_run hrun
    refine ⟨_, heq.trans (run_of_end hpeek), ?_, ?_, heblock⟩
    · exact hplaced'.draft.rest.trans (by rw [hafter, List.append_nil])
    · exact congrArg (headed · (w.before.size + x) 0) hplaced'.draft.tree

end Machine

end SharpOutline
