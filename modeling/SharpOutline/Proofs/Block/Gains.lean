import SharpOutline.Proofs.Block.Outcomes
import SharpOutline.Proofs.Tree.Headers

/-!
# What a block gains

Elements are added to a block, or to the innermost scope if one is open (`Draft.Gains`). A
declaration is added together with its header: whatever waits is put above it before
(`Drafting.Announced`). If one more comment has waited, before all others, then it is the first one
above the declaration, provided that the declaration is all that the block gains.
-/

namespace SharpOutline

open SharpOutline.Tree

def Block.noted (k : ElementId) (b : Block) : Block := { b with comments := k :: b.comments }

namespace Draft

variable {n : Nat} {k x : ElementId} {ids ids' : List ElementId} {d d' d'' : Draft}

/-- The draft with one more comment that waits in the block, before all others. -/
def noted (k : ElementId) (d : Draft) : Draft := { d with block := d.block.noted k }

/-- The draft has gone on with the same scopes, and these elements were added to it. No declaration
before `n` was given a comment. -/
structure Gains (n : Nat) (d : Draft) (ids : List ElementId) (d' : Draft) : Prop where
  spares : Spares n d.tree d'.tree
  scopes : d'.block.scopes = d.block.scopes
  elements : d'.block.elements = d.block.elements ++ if d.block.scopes = [] then ids else []

namespace Gains

theorem refl (n : Nat) (d : Draft) : d.Gains n [] d := ⟨.refl n _, rfl, by simp⟩

theorem trans (h : d.Gains n ids d') (h' : d'.Gains n ids' d'') : d.Gains n (ids ++ ids') d'' where
  spares := h.spares.trans h'.spares
  scopes := h'.scopes.trans h.scopes
  elements := by
    rw [h'.elements, h.elements, h.scopes, List.append_assoc]
    split <;> simp

/-- Only the tree, and what the block keeps besides its scopes and elements, has changed. -/
theorem of_spares {t : Tree} {b : Block} {c : Cursor} (h : Spares n d.tree t)
    (hscopes : b.scopes = d.block.scopes) (helements : b.elements = d.block.elements) :
    d.Gains n [] ⟨c, t, b⟩ :=
  ⟨h, hscopes, by rw [helements]; simp⟩

end Gains

/-- A comment that stands nowhere, and does not wait either. -/
structure Aside (k : ElementId) (d : Draft) : Prop where
  kind : d.tree.kind? k = some .comment
  parent : d.tree.parent? k = none
  roots : d.tree.roots = []
  comments : k ∉ d.block.comments
  attributes : k ∉ d.block.attributes

/-- A comment may become the first one above the declaration. -/
structure Ready (k x : ElementId) (d : Draft) : Prop extends Aside k d where
  bare : d.tree.Bare x

end Draft

namespace Drafting

open Draft

variable {n : Nat} {k x : ElementId} {d d' : Draft} {α β : Type}

/-! ## Adding elements -/

variable {ids : List ElementId} {a : Unit} {step : Step}

theorem gains_attachAll (h : attachAll ids d = .ok a d') :
    d.Gains n ids d' := by
  obtain ⟨t, ht, rfl⟩ := attachAll_keeps (Spares.refl n) Spares.trans spares_addChild h
  exact ⟨ht, rfl, rfl⟩

theorem gains_emit (h : emit ids d = .ok step d') :
    d.Gains n ids d' := by
  obtain ⟨⟨⟩, d₁, hattach, h⟩ := bind_eq_ok.mp h
  cases h
  exact gains_attachAll hattach

theorem gains_create {name : Text} {e : Element} (h : create name e d = .ok x d') :
    d.Gains n [] d' := by
  cases h
  exact .of_spares (spares_create n _ name e) rfl rfl

theorem gains_read {r : Reading α} {a : α} (h : read r d = .ok a d') : d.Gains n [] d' := by
  obtain ⟨c, -, rfl⟩ := read_eq_ok h
  exact .of_spares (.refl n _) rfl rfl

theorem gains_editAll {change : ElementId → Tree → Except Refusal Tree} {ids : List ElementId}
    {a : Unit} (hchange : ∀ {c t u}, change c t = .ok u → Spares n t u)
    (h : editAll change ids d = .ok a d') : d.Gains n [] d' := by
  obtain ⟨t, ht, rfl⟩ := editAll_keeps (Spares.refl n) Spares.trans hchange h
  exact .of_spares ht rfl rfl

theorem gains_flushComments (h : flushComments d = .ok a d') :
    d.Gains n d.block.comments d' := by
  replace h := of_takeComments_bind h
  have hattach := gains_attachAll (n := n) h
  exact ⟨hattach.spares, hattach.scopes, hattach.elements⟩

theorem gains_adoptComments {owner : ElementId} (h : adoptComments owner d = .ok a d') :
    d.Gains n [] d' := by
  replace h := of_takeComments_bind h
  have hadopt := gains_editAll (n := n) spares_addChild h
  exact ⟨hadopt.spares, hadopt.scopes, hadopt.elements⟩

theorem gains_applyHeader (hn : n ≤ x) (h : applyHeader x d = .ok a d') :
    d.Gains n [] d' := by
  replace h := of_takeComments_bind h
  obtain ⟨⟨⟩, d₂, hedit, h⟩ := bind_eq_ok.mp h
  replace h := of_takeAttributes_bind h
  have hcomments := gains_editAll (n := n) (spares_addHeaderComment hn) hedit
  have hattributes := gains_editAll (n := n) spares_addAttribute h
  have hboth : Spares n d.tree d'.tree := hcomments.spares.trans hattributes.spares
  exact ⟨hboth, hattributes.scopes.trans hcomments.scopes, by
    rw [hattributes.elements, hcomments.elements]
    simp⟩

theorem gains_copiesAs {names : List DeclaredName} (hn : n ≤ d.tree.size)
    (h : copiesAs x names d = .ok ids d') : d.Gains n [] d' ∧ ids.length = names.length := by
  induction names generalizing d ids with
  | nil =>
    obtain ⟨rfl, rfl⟩ := EStateM.Result.ok.inj h
    exact ⟨.refl n d, rfl⟩
  | cons name names ih =>
    obtain ⟨id, d₁, hone, h⟩ := bind_eq_ok.mp h
    obtain ⟨others, d₂, hothers, h⟩ := bind_eq_ok.mp h
    cases h
    obtain ⟨t, hcopy, rfl⟩ := copyAs_eq_ok hone
    have hrenamed : Spares n d.tree (t.modify id (renamedNode name)) := by
      refine (spares_copy hn hcopy).1.trans (spares_modify (fun m ↦ ?_) fun _ _ hm ↦ hm)
      change (m.element.renamed name).2.kind = m.element.kind
      cases m.element <;> rfl
    obtain ⟨hgains, hlength⟩ := ih (Nat.le_trans hn hrenamed.size) hothers
    exact ⟨(Gains.of_spares (d := d) (c := d.cursor) hrenamed rfl rfl).trans hgains,
      congrArg (· + 1) hlength⟩

theorem gains_withTrailingComment {ids' : List ElementId}
    (h : withTrailingComment ids d = .ok ids' d') : d.Gains n [] d' ∧ ids <+: ids' := by
  obtain ⟨found, d₁, hread, h⟩ := bind_eq_ok.mp h
  have hgains := gains_read (n := n) hread
  cases found with
  | none =>
    cases h
    exact ⟨hgains, List.prefix_rfl⟩
  | some comment =>
    obtain ⟨id, d₂, hcreate, h⟩ := bind_eq_ok.mp h
    cases h
    exact ⟨hgains.trans (gains_create hcreate), List.prefix_append _ _⟩

/-! ## Declarations with their headers -/

/-- Edits that go along with a comment above a declaration do so one after the other. -/
theorem foldlM_headed {change : ElementId → Tree → Except Refusal Tree} {ids : List ElementId}
    {t u : Tree} (hchange : ∀ {c t u}, c ≠ k → change c t = .ok u →
      change c (t.headed x k) = .ok (u.headed x k)) (hids : k ∉ ids)
    (h : ids.foldlM (fun t id ↦ change id t) t = .ok u) :
    ids.foldlM (fun t id ↦ change id t) (t.headed x k) = .ok (u.headed x k) := by
  induction ids generalizing t with
  | nil =>
    rw [Except.ok.inj h]
    rfl
  | cons id ids ih =>
    rw [List.mem_cons, not_or] at hids
    rw [List.foldlM_cons, Tree.bind_eq_ok] at h ⊢
    obtain ⟨v, hv, h⟩ := h
    exact ⟨_, hchange (Ne.symm hids.1) hv, ih hids.2 h⟩

/-- The comment that waits before all others becomes the first one above a declaration. -/
theorem noted_applyHeader (hready : d.Ready k x) (h : applyHeader x d = .ok a d') :
    applyHeader x (d.noted k) = .ok a { d' with tree := d'.tree.headed x k } := by
  replace h := of_takeComments_bind h
  obtain ⟨⟨⟩, d₂, hedit, h⟩ := bind_eq_ok.mp h
  obtain ⟨t, ht, rfl⟩ := editAll_eq_ok.mp hedit
  replace h := of_takeAttributes_bind h
  obtain ⟨u, hu, rfl⟩ := editAll_eq_ok.mp h
  have hcomments : (k :: d.block.comments).foldlM (fun t c ↦ t.addHeaderComment x c) d.tree =
      .ok (t.headed x k) := by
    have hfirst := addHeaderComment_of_bare hready.bare hready.kind hready.parent hready.roots
    rw [List.foldlM_cons, Tree.bind_eq_ok]
    exact ⟨_, hfirst, foldlM_headed headed_addHeaderComment hready.comments ht⟩
  have hattributes : d.block.attributes.foldlM (fun t a ↦ t.addAttribute x a) (t.headed x k) =
      .ok (u.headed x k) :=
    foldlM_headed headed_addAttribute hready.attributes hu
  exact bind_eq_ok.mpr ⟨_, _, rfl, bind_eq_ok.mpr ⟨(), _, editAll_eq_ok.mpr ⟨_, hcomments, rfl⟩,
    bind_eq_ok.mpr ⟨_, _, rfl, editAll_eq_ok.mpr ⟨_, hattributes, rfl⟩⟩⟩⟩

/-- A declaration was added to the block or the innermost scope, perhaps with others after it. If it
is all that the block has gained, then one more comment that waits makes no other difference than
that it stands above the declaration. -/
structure Announced (x : ElementId) (p : Drafting α) (d : Draft) (a : α) (d' : Draft) : Prop where
  gains : ∀ {n}, n ≤ x → n ≤ d.tree.size → ∃ ids, d.Gains n (x :: ids) d'
  given : ∀ {k}, d.Ready k x → d.block.scopes = [] →
    d'.block.elements = d.block.elements ++ [x] →
      p (d.noted k) = .ok a { d' with tree := d'.tree.headed x k }

/-- The operation adds a declaration, with what waits for it. -/
def Announces (x : ElementId) (p : Drafting α) : Prop :=
  ∀ ⦃d a d'⦄, p d = .ok a d' → Announced x p d a d'

/-- What is done after the header has been given to a declaration. If nothing else is added then it
does not depend on the tree. -/
theorem announces_applyHeader {q : Drafting α}
    (hgains : ∀ {d a d' n}, n ≤ d.tree.size → q d = .ok a d' → ∃ ids, d.Gains n (x :: ids) d')
    (hgiven : ∀ {d a d'}, q d = .ok a d' → d.block.scopes = [] →
      d'.block.elements = d.block.elements ++ [x] →
        ∀ t, q { d with tree := t } = .ok a { d' with tree := t } ∧ d'.tree = d.tree) :
    Announces x (applyHeader x >>= fun _ ↦ q) := by
  intro d a d' h
  obtain ⟨⟨⟩, d₁, hheader, hq⟩ := bind_eq_ok.mp h
  have hfirst {n : Nat} (hn : n ≤ x) := gains_applyHeader hn hheader
  refine ⟨fun {n} hx hn ↦ ?_, fun {k} hready hscopes helements ↦ ?_⟩
  · obtain ⟨ids, hids⟩ := hgains (Nat.le_trans hn (hfirst hx).spares.size) hq
    exact ⟨ids, (hfirst hx).trans hids⟩
  · have hzero := hfirst (Nat.zero_le x)
    have hsame : d₁.block.elements = d.block.elements := by simpa using hzero.elements
    have hscopes₁ : d₁.block.scopes = [] := hzero.scopes.trans hscopes
    rw [← hsame] at helements
    obtain ⟨hgiven, htree⟩ := hgiven hq hscopes₁ helements (d₁.tree.headed x k)
    refine bind_eq_ok.mpr ⟨(), _, noted_applyHeader hready hheader, ?_⟩
    rw [htree]
    exact hgiven

theorem emit_singleton (hscopes : d.block.scopes = []) :
    emit [x] d = .ok (.produced 1)
      { d with block := { d.block with elements := d.block.elements ++ [x] } } :=
  bind_eq_ok.mpr ⟨(), _, attachAll_of_scopes_eq_nil hscopes [x], rfl⟩

/-- Together with a comment after them, the block gains one element only if there is no comment and
one element before it. -/
theorem trailing_given (h : (withTrailingComment (x :: ids) >>= emit) d = .ok step d')
    (hscopes : d.block.scopes = []) (helements : d'.block.elements = d.block.elements ++ [x])
    (t : Tree) : ids = [] ∧
      (withTrailingComment (x :: ids) >>= emit) { d with tree := t } =
        .ok step { d' with tree := t } ∧ d'.tree = d.tree := by
  obtain ⟨ids', d₁, htrailing, hemit⟩ := bind_eq_ok.mp h
  obtain ⟨htrail, -⟩ := gains_withTrailingComment (n := 0) htrailing
  -- All that was added is the one element.
  have hall := (htrail.trans (gains_emit hemit)).elements
  rw [if_pos hscopes, List.nil_append, helements, List.append_cancel_left_eq] at hall
  obtain ⟨found, d₂, hread, htrailing⟩ := bind_eq_ok.mp htrailing
  obtain ⟨c, hc, rfl⟩ := read_eq_ok hread
  cases found with
  | none =>
    cases htrailing
    obtain rfl : ids = [] := (List.cons.inj hall).2.symm
    have hadded := emit_singleton (x := x) (d := ⟨c, d.tree, d.block⟩) hscopes
    cases hemit.symm.trans hadded
    have hread' : read Reading.trailingComment? { d with tree := t } =
        .ok none ⟨c, t, d.block⟩ := by
      rw [read]
      simp only [hc]
    refine ⟨rfl, bind_eq_ok.mpr ⟨[x], ⟨c, t, d.block⟩, ?_, ?_⟩, rfl⟩
    · exact bind_eq_ok.mpr ⟨none, _, hread', rfl⟩
    · exact emit_singleton hscopes
  | some comment =>
    obtain ⟨id, d₃, hcreate, htrailing⟩ := bind_eq_ok.mp htrailing
    cases htrailing
    simp at hall

theorem announces_emitMember (x : ElementId) : Announces x (emitMember x) := by
  refine announces_applyHeader (fun {d a d' n} _ h ↦ ?_) fun h hscopes helements t ↦
    (trailing_given h hscopes helements t).2
  obtain ⟨ids, d₁, htrailing, hemit⟩ := bind_eq_ok.mp h
  obtain ⟨hgains, ids', rfl⟩ := gains_withTrailingComment (n := n) htrailing
  exact ⟨ids', hgains.trans (gains_emit hemit)⟩

theorem announces_emitNames (isField : Bool) (x : ElementId) (names : List DeclaredName) :
    Announces x (emitNames isField x names) := by
  refine announces_applyHeader (fun {d a d' n} hn h ↦ ?_) fun {d a d'} h hscopes helements t ↦ ?_
  · obtain ⟨copies, d₁, hcopies, h⟩ := bind_eq_ok.mp h
    have hgains := (gains_copiesAs hn hcopies).1
    split at h
    · exact ⟨copies, hgains.trans (gains_emit h)⟩
    · obtain ⟨ids, d₂, htrailing, hemit⟩ := bind_eq_ok.mp h
      obtain ⟨htrail, ids', rfl⟩ := gains_withTrailingComment (n := n) htrailing
      exact ⟨copies ++ ids', hgains.trans (htrail.trans (gains_emit hemit))⟩
  · obtain ⟨copies, d₁, hcopies, h⟩ := bind_eq_ok.mp h
    obtain ⟨hgains, hlength⟩ := gains_copiesAs (Nat.zero_le _) hcopies
    have hsame : d₁.block.elements = d.block.elements := by simpa using hgains.elements
    have hscopes₁ : d₁.block.scopes = [] := hgains.scopes.trans hscopes
    rw [← hsame] at helements
    -- A copy would have been added too.
    have hcopies' : copies = [] := by
      split at h
      · have hall := (gains_emit (n := 0) h).elements
        rw [if_pos hscopes₁, helements, List.append_cancel_left_eq] at hall
        exact (List.cons.inj hall).2.symm
      · exact (trailing_given h hscopes₁ helements t).1
    subst hcopies'
    obtain rfl : names = [] := List.length_eq_zero_iff.mp hlength.symm
    cases hcopies
    cases isField with
    | false => exact (trailing_given h hscopes helements t).2
    | true =>
      have h : emit [x] d = .ok a d' := h
      rw [emit_singleton hscopes] at h
      cases h
      exact ⟨emit_singleton hscopes, rfl⟩

end Drafting

end SharpOutline
