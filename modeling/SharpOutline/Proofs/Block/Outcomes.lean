import SharpOutline.Document
import SharpOutline.Proofs.Tree.Edits

/-!
# What has been done where nothing failed

An operation on a draft may fail at many places. Where it has succeeded, all of its parts have, and
only that is of interest when one asks what has become of the draft. For the operations that look at
the block before they act, this module says in which cases they succeed and what they leave.

What each of the moves of the machine keeps (`Machine.Moves`), a whole run keeps
(`Machine.run_induction`), and a document is read by such a run (`Document.parse_eq_ok_iff`).
-/

namespace SharpOutline

/-! ## Drafts -/

namespace Drafting

variable {α β : Type}

section Certain

/-! Operations that cannot fail, in front of others. -/

variable {d : Draft} {r : EStateM.Result Fault Draft β}

theorem of_block_bind {q : Block → Drafting β} (h : (block >>= q) d = r) : q d.block d = r := h

theorem of_get_bind {q : Draft → Drafting β} (h : (get >>= q) d = r) : q d d = r := h

theorem of_modifyBlock_bind {f : Block → Block} {q : Unit → Drafting β}
    (h : (modifyBlock f >>= q) d = r) : q () { d with block := f d.block } = r := h

theorem of_create_bind {name : Text} {e : Element} {q : ElementId → Drafting β}
    (h : (create name e >>= q) d = r) :
    q d.tree.size { d with tree := d.tree.create name e } = r := h

theorem of_takeText_bind {q : Text → Drafting β} (h : (takeText >>= q) d = r) :
    q (Text.trim d.block.text) { d with block := { d.block with text := [] } } = r := h

theorem of_takeComments_bind {q : List ElementId → Drafting β}
    (h : (takeComments >>= q) d = r) :
    q d.block.comments { d with block := { d.block with comments := [] } } = r := h

theorem of_takeAttributes_bind {q : List ElementId → Drafting β}
    (h : (takeAttributes >>= q) d = r) :
    q d.block.attributes { d with block := { d.block with attributes := [] } } = r := h

end Certain

variable {d d' : Draft} {id : ElementId} {ids : List ElementId} {a : Unit} {step : Step}

theorem read_eq_ok {r : Reading α} {a : α} (h : read r d = .ok a d') :
    ∃ c, r d.cursor = .ok a c ∧ d' = { d with cursor := c } := by
  unfold read at h
  split at h
  · rename_i b c hc
    cases h
    exact ⟨c, hc, rfl⟩
  · simp at h

theorem edit_eq_ok {change : Tree → Except Refusal Tree} :
    edit change d = .ok a d' ↔ ∃ t, change d.tree = .ok t ∧ d' = { d with tree := t } := by
  unfold edit
  cases change d.tree with
  | error r => simp
  | ok t => simp [eq_comm]

theorem editAll_eq_ok {change : ElementId → Tree → Except Refusal Tree} :
    editAll change ids d = .ok a d' ↔
      ∃ t, ids.foldlM (fun t id ↦ change id t) d.tree = .ok t ∧ d' = { d with tree := t } := by
  induction ids generalizing d with
  | nil =>
    change EStateM.Result.ok () d = .ok a d' ↔ _
    simp [pure, Except.pure, eq_comm]
  | cons id ids ih =>
    change (edit (change id) >>= fun _ ↦ editAll change ids) d = .ok a d' ↔ _
    simp only [bind_eq_ok, edit_eq_ok, List.foldlM_cons, Tree.bind_eq_ok, ih]
    constructor
    · rintro ⟨-, -, ⟨t, ht, rfl⟩, u, hu, rfl⟩
      exact ⟨u, ⟨t, ht, hu⟩, rfl⟩
    · rintro ⟨u, ⟨t, ht, hu⟩, rfl⟩
      exact ⟨(), _, ⟨t, ht, rfl⟩, u, hu, rfl⟩

section Keeps

variable {R : Tree → Tree → Prop}
  (hrefl : ∀ t, R t t) (htrans : ∀ {t u v}, R t u → R u v → R t v)

include hrefl htrans

/-- What single edits keep of a tree is kept by edits one after the other. -/
theorem editAll_keeps {change : ElementId → Tree → Except Refusal Tree}
    (hchange : ∀ {c t u}, change c t = .ok u → R t u) (h : editAll change ids d = .ok a d') :
    ∃ t, R d.tree t ∧ d' = { d with tree := t } := by
  induction ids generalizing d with
  | nil =>
    obtain ⟨-, rfl⟩ := EStateM.Result.ok.inj h
    exact ⟨d.tree, hrefl _, rfl⟩
  | cons id ids ih =>
    obtain ⟨⟨⟩, d₁, hone, h⟩ := bind_eq_ok.mp h
    obtain ⟨t, ht, rfl⟩ := edit_eq_ok.mp hone
    obtain ⟨u, hu, rfl⟩ := ih h
    exact ⟨u, htrans (hchange ht) hu, rfl⟩

theorem attachAll_keeps (hchild : ∀ {p c t u}, Tree.addChild t p c = .ok u → R t u)
    (h : attachAll ids d = .ok a d') : ∃ t, R d.tree t ∧ d' = ⟨d.cursor, t, { d.block with
      elements := d.block.elements ++ if d.block.scopes = [] then ids else [] }⟩ := by
  induction ids generalizing d with
  | nil =>
    obtain ⟨-, rfl⟩ := EStateM.Result.ok.inj h
    exact ⟨d.tree, hrefl _, by simp⟩
  | cons id ids ih =>
    obtain ⟨⟨⟩, d₁, hone, h⟩ := bind_eq_ok.mp h
    replace hone := of_block_bind hone
    obtain ⟨u, hu, rfl⟩ := ih h
    cases hscopes : d.block.scopes with
    | nil =>
      rw [hscopes] at hone
      cases hone
      exact ⟨u, hu, by simp [hscopes]⟩
    | cons scope scopes =>
      rw [hscopes] at hone
      obtain ⟨t, ht, rfl⟩ := edit_eq_ok.mp hone
      exact ⟨u, htrans (hchild ht) hu, by simp [hscopes]⟩

end Keeps

/-- Where no scope is open, elements become elements of the block. -/
theorem attachAll_of_scopes_eq_nil (h : d.block.scopes = []) (ids : List ElementId) :
    attachAll ids d =
      .ok () { d with block := { d.block with elements := d.block.elements ++ ids } } := by
  induction ids generalizing d with
  | nil =>
    rw [List.append_nil]
    rfl
  | cons id ids ih =>
    have hone : attach id d =
        .ok () { d with block := { d.block with elements := d.block.elements ++ [id] } } := by
      refine bind_eq_ok.mpr ⟨d.block, d, rfl, ?_⟩
      rw [h]
      rfl
    have hrest := ih (d := { d with block :=
      { d.block with elements := d.block.elements ++ [id] } }) h
    rw [List.append_assoc, List.singleton_append] at hrest
    exact bind_eq_ok.mpr ⟨(), _, hone, hrest⟩

/-- Where a scope is open, elements become its children. -/
theorem attachAll_of_scopes_eq_cons {u : Tree} {scope : Scope} {scopes : List Scope}
    (hscopes : d.block.scopes = scope :: scopes)
    (h : ids.foldlM (fun t id ↦ t.addChild scope.owner id) d.tree = .ok u) :
    attachAll ids d = .ok () { d with tree := u } := by
  induction ids generalizing d with
  | nil =>
    cases h
    rfl
  | cons id ids ih =>
    rw [List.foldlM_cons] at h
    obtain ⟨v, hv, hrest⟩ := Tree.bind_eq_ok.mp h
    have hone : attach id d = .ok () { d with tree := v } := by
      refine bind_eq_ok.mpr ⟨d.block, d, rfl, ?_⟩
      rw [hscopes]
      exact edit_eq_ok.mpr ⟨v, hv, rfl⟩
    exact bind_eq_ok.mpr ⟨(), _, hone, ih hscopes hrest⟩

/-- An element is added to the block if no scope is open afterwards. -/
theorem emit_eq_ok_of_scopes_eq_nil (h : emit [id] d = .ok step d')
    (hscopes : d'.block.scopes = []) :
    d' = { d with block := { d.block with elements := d.block.elements ++ [id] } } := by
  obtain ⟨⟨⟩, d₁, hattach, h⟩ := bind_eq_ok.mp h
  cases h
  cases hopen : d.block.scopes with
  | nil =>
    rw [attachAll_of_scopes_eq_nil hopen] at hattach
    exact (EStateM.Result.ok.inj hattach).2.symm
  | cons scope scopes =>
    obtain ⟨⟨⟩, d₂, hone, hnil⟩ := bind_eq_ok.mp hattach
    cases hnil
    have hedit := of_block_bind hone
    rw [hopen] at hedit
    obtain ⟨t, -, rfl⟩ := edit_eq_ok.mp hedit
    exact absurd (hopen.symm.trans hscopes) (by simp)

/-- A header changes the tree, and nothing waits any more. -/
theorem applyHeader_eq_ok (h : applyHeader id d = .ok a d') :
    ∃ t, d' = { d with tree := t, block := { d.block with comments := [], attributes := [] } } := by
  replace h := of_takeComments_bind h
  obtain ⟨⟨⟩, d₂, hedit, h⟩ := bind_eq_ok.mp h
  obtain ⟨t, -, rfl⟩ := editAll_eq_ok.mp hedit
  replace h := of_takeAttributes_bind h
  obtain ⟨u, -, rfl⟩ := editAll_eq_ok.mp h
  exact ⟨u, rfl⟩

theorem checkNoAttributes_eq_ok (h : checkNoAttributes d = .ok a d') :
    d.block.attributes = [] ∧ d' = d := by
  replace h := of_block_bind h
  cases hattributes : d.block.attributes with
  | nil =>
    rw [hattributes] at h
    exact ⟨rfl, (EStateM.Result.ok.inj h).2.symm⟩
  | cons id ids =>
    rw [hattributes] at h
    obtain ⟨name, d₂, -, h⟩ := bind_eq_ok.mp h
    cases h

/-- A block may end where no text is left over, no scope is open and no attribute waits. Then the
waiting comments are its last elements. -/
theorem finishBlock_eq_ok (h : finishBlock d = .ok ids d') :
    Text.trim d.block.text = [] ∧ d.block.scopes = [] ∧ d.block.attributes = [] ∧
      ids = d.block.elements ++ d.block.comments ∧ d'.tree = d.tree ∧ d'.cursor = d.cursor := by
  replace h := of_takeText_bind h
  replace h := of_block_bind h
  split at h
  · cases h
  · rename_i htext
    cases hscopes : d.block.scopes with
    | nil =>
      simp only [hscopes] at h
      obtain ⟨⟨⟩, d₃, hcheck, h⟩ := bind_eq_ok.mp h
      obtain ⟨hattributes, rfl⟩ := checkNoAttributes_eq_ok hcheck
      obtain ⟨⟨⟩, d₄, hflush, h⟩ := bind_eq_ok.mp h
      replace hflush := of_takeComments_bind hflush
      rw [attachAll_of_scopes_eq_nil (by rfl)] at hflush
      cases hflush
      cases h
      refine ⟨by simpa using htext, rfl, hattributes, rfl, rfl, rfl⟩
    | cons scope scopes =>
      cases scope with
      | region id =>
        simp only [hscopes] at h
        obtain ⟨name, d₃, -, h⟩ := bind_eq_ok.mp h
        cases h
      | conditional head current =>
        simp only [hscopes] at h
        obtain ⟨name, d₃, -, h⟩ := bind_eq_ok.mp h
        cases h

theorem innermostConditional_eq_ok {directive : Text} {r : ElementId × ElementId}
    (h : innermostConditional directive d = .ok r d') :
    (∃ scopes, d.block.scopes = .conditional r.1 r.2 :: scopes) ∧ d' = d := by
  replace h := of_block_bind h
  rcases hscopes : d.block.scopes with _ | ⟨⟨id⟩ | ⟨head, current⟩, scopes⟩
  · rw [hscopes] at h
    cases h
  · rw [hscopes] at h
    obtain ⟨name, d₂, -, h⟩ := bind_eq_ok.mp h
    cases h
  · rw [hscopes] at h
    cases h
    exact ⟨⟨scopes, rfl⟩, rfl⟩

/-- Opens a region or a conditional. -/
def openScope (name : Text) (e : Element) (scope : ElementId → Scope) : Drafting Step := do
  checkNoAttributes
  flushComments
  let id ← create name e
  modifyBlock fun b ↦ { b with scopes := scope id :: b.scopes }
  return .more

/-- A scope is opened after the comments that wait have been added. -/
theorem openScope_eq_ok {name : Text} {e : Element} {scope : ElementId → Scope}
    (h : openScope name e scope d = .ok step d') :
    ∃ d₁, flushComments d = .ok () d₁ ∧ step = .more ∧ d' = { d₁ with
      tree := d₁.tree.create name e
      block := { d₁.block with scopes := scope d₁.tree.size :: d₁.block.scopes } } := by
  obtain ⟨⟨⟩, d₁, hcheck, h⟩ := bind_eq_ok.mp h
  rw [(checkNoAttributes_eq_ok hcheck).2] at h
  obtain ⟨⟨⟩, d₂, hflush, h⟩ := bind_eq_ok.mp h
  replace h := of_modifyBlock_bind (of_create_bind h)
  cases h
  exact ⟨d₂, hflush, rfl, rfl⟩

/-- A region is closed where it is the innermost scope. -/
theorem closeRegion_eq_ok (h : closeRegion d = .ok step d') :
    ∃ id scopes, d.block.scopes = .region id :: scopes ∧
      (adoptComments id >>= fun _ ↦ closeScope id) d = .ok step d' := by
  obtain ⟨⟨⟩, d₁, hcheck, h⟩ := bind_eq_ok.mp h
  rw [(checkNoAttributes_eq_ok hcheck).2] at h
  replace h := of_block_bind h
  rcases hscopes : d.block.scopes with _ | ⟨⟨id⟩ | ⟨head, current⟩, scopes⟩
  · rw [hscopes] at h
    cases h
  · rw [hscopes] at h
    exact ⟨id, scopes, rfl, h⟩
  · rw [hscopes] at h
    cases h

theorem innermost_eq_ok {directive : Text} {q : ElementId × ElementId → Drafting Step} (h : (do
      checkNoAttributes
      let r ← innermostConditional directive
      q r) d = .ok step d') :
    ∃ head current scopes, d.block.scopes = .conditional head current :: scopes ∧
      q (head, current) d = .ok step d' := by
  obtain ⟨⟨⟩, d₁, hcheck, h⟩ := bind_eq_ok.mp h
  rw [(checkNoAttributes_eq_ok hcheck).2] at h
  obtain ⟨⟨head, current⟩, d₂, hinnermost, h⟩ := bind_eq_ok.mp h
  obtain ⟨⟨scopes, hscopes⟩, heq⟩ := innermostConditional_eq_ok hinnermost
  rw [heq] at h
  exact ⟨head, current, scopes, hscopes, h⟩

/-- A branch may follow one that has a condition, to which the comments that wait belong. -/
theorem nextBranch_eq_ok {condition : Option Text} {directive : Text}
    (h : nextBranch condition directive d = .ok step d') :
    ∃ head current scopes d₁ t, d.block.scopes = .conditional head current :: scopes ∧
      isLastResort d.tree current = false ∧ adoptComments current d = .ok () d₁ ∧
      (d₁.tree.create (condition.getD []) (.conditionDirective condition none)).setOtherwise
        current (some d₁.tree.size) = .ok t ∧
      step = .more ∧ d' = { d₁ with
        tree := t
        block := { d₁.block with
          scopes := .conditional head d₁.tree.size :: d₁.block.scopes.tail } } := by
  obtain ⟨head, current, scopes, hscopes, h⟩ := innermost_eq_ok h
  replace h := of_get_bind h
  split at h
  · cases h
  · rename_i hlast
    obtain ⟨⟨⟩, d₁, hadopt, h⟩ := bind_eq_ok.mp h
    obtain ⟨⟨⟩, d₂, hset, h⟩ := bind_eq_ok.mp (of_create_bind h)
    obtain ⟨t, ht, rfl⟩ := edit_eq_ok.mp hset
    replace h := of_modifyBlock_bind h
    cases h
    exact ⟨head, current, scopes, d₁, t, hscopes, by simpa using hlast, hadopt, ht, rfl, rfl⟩

theorem emitMember_ne_finished (h : emitMember id d = .ok step d') :
    step ≠ .finished := by
  obtain ⟨⟨⟩, d₁, -, h⟩ := bind_eq_ok.mp h
  obtain ⟨ids, d₂, -, h⟩ := bind_eq_ok.mp h
  obtain ⟨⟨⟩, d₃, -, h⟩ := bind_eq_ok.mp h
  cases h
  simp

theorem done_eq_ok {x : Drafting Step} {signal : Signal} :
    done x d = .ok signal d' ↔ ∃ step, x d = .ok step d' ∧ signal = .done step := by
  rw [done, bind_eq_ok]
  constructor
  · rintro ⟨step, d₁, hx, h⟩
    cases h
    exact ⟨step, hx, rfl⟩
  · rintro ⟨step, hx, rfl⟩
    exact ⟨step, d', hx, rfl⟩

/-- The node of a copy under another name. -/
def renamedNode (n : DeclaredName) (m : Node) : Node :=
  { m with name := (m.element.renamed n).1, element := (m.element.renamed n).2 }

theorem copyAs_eq_ok {first id : ElementId} {n : DeclaredName} (h : copyAs first n d = .ok id d') :
    ∃ t, d.tree.copy first = .ok (t, id) ∧
      d' = { d with tree := t.modify id (renamedNode n) } := by
  unfold copyAs at h
  split at h
  · cases h
  · rename_i t copy hcopy
    cases h
    exact ⟨t, hcopy, rfl⟩

theorem leave_eq_ok {f : Frame} (h : leave f d = .ok step d') :
    ∃ e, endBlock f d = .ok () e ∧
      emitMember f.owner { e with block := f.block } = .ok step d' := by
  unfold leave at h
  split at h
  · simp at h
  · rename_i e he
    exact ⟨e, he, h⟩

end Drafting

/-! ## The machine -/

namespace Machine

open Drafting

variable {m : RegionMarkers} {s s' : Machine} {d : Draft} {step : Step}

/-- Only the outermost block ends a run. -/
theorem Moves.frames_eq_nil (h : Moves m s .finished s') : s'.frames = [] := by
  cases h with
  | ended h hframes => rfl
  | left h hframes hleave =>
    obtain ⟨e, -, hemit⟩ := leave_eq_ok hleave
    exact absurd rfl (emitMember_ne_finished hemit)
  | stepped h hstep => exact absurd rfl hstep

/-- A run that succeeds begins with a move, and goes on unless this ends the outermost block. -/
theorem run_eq_ok (h : run m s = .ok () d) : ∃ step s', Moves m s step s' ∧
    (step = .finished → s'.draft = d) ∧ (step ≠ .finished → run m s' = .ok () d) := by
  rw [run] at h
  split at h
  · simp at h
  · rename_i step s' hmove
    refine ⟨step, s', moves_of_move hmove, fun hstep ↦ ?_, fun hstep ↦ ?_⟩
    · rw [dif_pos hstep] at h
      exact (EStateM.Result.ok.inj h).2
    · rwa [dif_neg hstep] at h

/-- **A run.** What every move keeps is true when the outermost block has ended. -/
theorem run_induction {P : Machine → Prop}
    (hmove : ∀ {s s' step}, P s → Moves m s step s' → P s') (h : P s)
    (hrun : run m s = .ok () d) : P ⟨d, []⟩ := by
  fun_induction run m s with
  | case1 s e s' hm => simp at hrun
  | case2 s s' hm =>
    cases hrun
    have hmoves := moves_of_move hm
    have := hmove h hmoves
    rwa [show s' = ⟨s'.draft, []⟩ by rw [← hmoves.frames_eq_nil]] at this
  | case3 s step s' hm hstep hlt ih => exact ih (hmove h (moves_of_move hm)) hrun

end Machine

/-! ## Documents -/

namespace Document

open Drafting hiding read

variable {m : RegionMarkers} {source : Text} {t : Tree}

/-- A block of its own is read by a run of the machine. -/
theorem readBlock_eq_ok {d d' : Draft} {ids : List ElementId} : readBlock m d = .ok ids d' ↔
    ∃ d₁ e, Machine.run m ⟨{ d with block := {} }, []⟩ = .ok () d₁ ∧ finishBlock d₁ = .ok ids e ∧
      d' = { e with block := d.block } := by
  rw [readBlock]
  cases Machine.run m ⟨{ d with block := {} }, []⟩ with
  | error e d₁ => simp
  | ok a d₁ =>
    simp only [EStateM.Result.ok.injEq, true_and, exists_and_left, exists_eq_left']
    cases finishBlock d₁ with
    | error e d₂ => simp
    | ok elements d₂ => simp [eq_comm]

/-- A document is read by a run of the machine, after which the outermost block has ended properly
and its elements become the roots. -/
theorem parse_eq_ok_iff : parse m source = .ok t ↔
    ∃ d ids e, Machine.run m ⟨start source, []⟩ = .ok () d ∧ finishBlock d = .ok ids e ∧
      e.cursor.peek ≠ '\x7d' ∧ ids.foldlM (fun u id ↦ u.addRoot id) e.tree = .ok t := by
  have hparse : parse m source = .ok t ↔ ∃ d, read m (start source) = .ok () d ∧ d.tree = t := by
    rw [parse]
    cases read m (start source) <;> simp
  rw [hparse]
  constructor
  · rintro ⟨d, hd, rfl⟩
    obtain ⟨ids, d₁, hblock, hd⟩ := bind_eq_ok.mp hd
    obtain ⟨d₂, e, hrun, hfinish, rfl⟩ := readBlock_eq_ok.mp hblock
    obtain ⟨c, d₃, hpeek, hd⟩ := bind_eq_ok.mp hd
    cases hpeek
    split at hd
    · cases hd
    · rename_i hbrace
      obtain ⟨t, ht, rfl⟩ := editAll_eq_ok.mp hd
      exact ⟨d₂, ids, e, hrun, hfinish, hbrace, ht⟩
  · rintro ⟨d, ids, e, hrun, hfinish, hbrace, ht⟩
    refine ⟨{ e with tree := t, block := {} }, ?_, rfl⟩
    refine bind_eq_ok.mpr ⟨ids, _, readBlock_eq_ok.mpr ⟨d, e, hrun, hfinish, rfl⟩, ?_⟩
    refine bind_eq_ok.mpr ⟨e.cursor.peek, _, rfl, ?_⟩
    rw [if_neg hbrace]
    exact editAll_eq_ok.mpr ⟨t, ht, rfl⟩

end Document

end SharpOutline
