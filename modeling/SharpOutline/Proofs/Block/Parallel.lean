import SharpOutline.Proofs.Block.Outcomes
import SharpOutline.Proofs.Lexeme.Spans

/-!
# Runs side by side

Two runs of the reader are compared: the first one reads a text, and the second one a text that goes
on behind that one. A `Pairing` says which states of the two belong together. An operation of the
first run is mirrored by one of the second if from states that belong together they lead to such
states, and to results of which one is found from the other.

Near the end of the first text an operation may see that it ends there, where the second one goes
on. There are three answers to this:

* `Still`: the operation does not read, so it is mirrored everywhere;
* `Local`: it is mirrored if something of the first text is left in the end;
* `Steady`: it is mirrored under a condition on what is left in the beginning.

The conditions come from two cases in which the end of the first text does no harm. Either the text
ends with a line, and that is left; or it is over where a line ends in the second text (`Edge`). In
the second case a line of the first text that has no end of its own may take the one in the second
text with it, so that the runs go on in another pairing.

All of these are kept by sequences and choices, and only what succeeds in the first run matters.
-/

namespace SharpOutline

/-- How the states of two runs belong together. -/
structure Pairing (σ : Type) where
  /-- What the first run has left to read. -/
  rest : σ → Text
  /-- What the second run has left after that. -/
  after : Text
  /-- The states belong together. -/
  Pairs : σ → σ → Prop

namespace Pairing

open Drafting (bind_eq_ok)

variable {σ α β γ δ : Type} {C : Pairing σ} {s s' s'' : σ} {a : α} {b : β}

/-- From every state that belongs to `s`, the operation returns `b` and leads to one that belongs to
`s'` in another pairing. -/
def Passes (C D : Pairing σ) (p : EStateM Fault σ β) (s : σ) (b : β) (s' : σ) : Prop :=
  ∀ u, C.Pairs s u → ∃ u', p u = .ok b u' ∧ D.Pairs s' u'

/-- From every state that belongs to `s`, the operation returns `b` and leads to one that belongs to
`s'`. -/
abbrev Mirrors (C : Pairing σ) (p : EStateM Fault σ β) (s : σ) (b : β) (s' : σ) : Prop :=
  C.Passes C p s b s'

theorem Passes.bind {D E : Pairing σ} {p : EStateM Fault σ α} {q : α → EStateM Fault σ β}
    (hp : C.Passes D p s a s') (hq : D.Passes E (q a) s' b s'') : C.Passes E (p >>= q) s b s'' := by
  intro u hu
  obtain ⟨u', hpu, hu'⟩ := hp u hu
  obtain ⟨u'', hqu, hu''⟩ := hq u' hu'
  exact ⟨u'', bind_eq_ok.mpr ⟨a, u', hpu, hqu⟩, hu''⟩

/-- The operation does not read, and it is mirrored. -/
def Still (C : Pairing σ) (f : α → β) (p : EStateM Fault σ α) (p' : EStateM Fault σ β) : Prop :=
  ∀ ⦃s a s'⦄, p s = .ok a s' → C.rest s' = C.rest s ∧ C.Mirrors p' s (f a) s'

/-- The operation is mirrored if something is left to read in the end. -/
def Local (C : Pairing σ) (f : α → β) (p : EStateM Fault σ α) (p' : EStateM Fault σ β) : Prop :=
  ∀ ⦃s a s'⦄, p s = .ok a s' → C.rest s' <:+ C.rest s ∧
    (C.after = [] ∨ C.rest s' ≠ [] → C.Mirrors p' s (f a) s')

/-- The operation is mirrored, or nothing is left in the end and it leads over to the pairing
`D`. -/
def Reaches (C D : Pairing σ) (p : EStateM Fault σ β) (s : σ) (b : β) (s' : σ) : Prop :=
  C.Mirrors p s b s' ∨ C.rest s' = [] ∧ C.Passes D p s b s'

theorem Passes.bind_reaches {D : Pairing σ} {p : EStateM Fault σ α} {q : α → EStateM Fault σ β}
    (hp : C.Mirrors p s a s') (hq : C.Reaches D (q a) s' b s'') : C.Reaches D (p >>= q) s b s'' :=
  hq.imp hp.bind (And.imp_right hp.bind)

/-! ## Conditions on what is left -/

def Any (_ : Text) : Prop := True

def Clear (t : Text) : Prop := t ≠ []

/-- The second text, which goes on with `u`, is over there as well, or a line ends there and `v` is
behind it. -/
def Edge (u v : Text) : Prop := u = [] ∨ u = '\n' :: v

/-- The first text ends at an edge or with a line. -/
def Sound (u v t : Text) : Prop := Edge u v ∨ Text.LineEnded t

/-- The first text ends at an edge, or with a line that is left. -/
def Ready (u v t : Text) : Prop := Edge u v ∨ Text.LineEnded t ∧ t ≠ []

/-- The first text may be read on, and this character is next. -/
def At (c : Char) (u v t : Text) : Prop := Ready u v t ∧ ahead t = c

/-- Something but blanks is left. -/
def Written (t : Text) : Prop := t.dropWhile isBlank ≠ []

/-- The first text may be read on, and something but blanks is left. -/
def Inked (u v t : Text) : Prop := Sound u v t ∧ Written t

section Conditions

variable {u v t t' : Text}

theorem Ready.sound (h : Ready u v t) : Sound u v t := h.imp_right And.left

theorem Sound.ready (h : Sound u v t) (hne : t ≠ []) : Ready u v t := h.imp_right (⟨·, hne⟩)

theorem Sound.of_suffix (h : Sound u v t) (hs : t' <:+ t) : Sound u v t' :=
  h.imp_right (·.of_suffix hs)

/-- What is left of a text that does not end with a line is left at an edge. -/
theorem Sound.edge (h : Sound u v t) (hline : ¬Text.LineEnded t) : Edge u v :=
  h.resolve_right hline

theorem Ready.tail {c : Char} (h : Ready u v (c :: t)) (hc : c ≠ '\n') : Ready u v t :=
  h.imp_right fun hline ↦ ⟨hline.1.tail, hline.1.ne_nil hc⟩

theorem Ready.edge (h : Ready u v []) : Edge u v := h.resolve_right fun hline ↦ hline.2 rfl

end Conditions

/-- The operation succeeds only where `P` holds. Where the condition `S` holds in the beginning it
is mirrored and the text may be read on; or, if `K` allows it, the operation may meet the end. -/
def Steady (C D : Pairing σ) (K : Prop) (S : Text → Text → Text → Prop) (P : Text → Prop)
    (f : α → β) (p : EStateM Fault σ α) (p' : EStateM Fault σ β) : Prop :=
  ∀ ⦃s a s'⦄, p s = .ok a s' → P (C.rest s) ∧ (S C.after D.after (C.rest s) →
    C.Mirrors p' s (f a) s' ∧ Ready C.after D.after (C.rest s') ∨ K ∧ C.Reaches D p' s (f a) s')

/-- The operation does not meet the end. -/
abbrev Firm (C D : Pairing σ) (S : Text → Text → Text → Prop) (P : Text → Prop) (f : α → β)
    (p : EStateM Fault σ α) (p' : EStateM Fault σ β) : Prop :=
  C.Steady D False S P f p p'

/-- The operation may meet the end. -/
abbrev Last (C D : Pairing σ) (S : Text → Text → Text → Prop) (P : Text → Prop) (f : α → β)
    (p : EStateM Fault σ α) (p' : EStateM Fault σ β) : Prop :=
  C.Steady D True S P f p p'

/-! ## Sequences and choices -/

variable {D : Pairing σ} {K : Prop} {f : α → β} {g : γ → δ} {p : EStateM Fault σ α}
  {p' : EStateM Fault σ β} {q : α → EStateM Fault σ γ} {q' : β → EStateM Fault σ δ}
  {S S' : Text → Text → Text → Prop} {P P' Q : Text → Prop}

theorem still_pure (C : Pairing σ) (f : α → β) (a : α) : C.Still f (pure a) (pure (f a)) := by
  rintro s _ _ ⟨⟩
  exact ⟨rfl, fun u hu ↦ ⟨u, rfl, hu⟩⟩

theorem steady_of_fails (h : ∀ s a s', p s ≠ .ok a s') : C.Steady D K S P f p p' :=
  fun s a s' hs ↦ absurd hs (h s a s')

theorem still_of_fails (h : ∀ s a s', p s ≠ .ok a s') : C.Still f p p' :=
  fun s a s' hs ↦ absurd hs (h s a s')

theorem throw_ne_ok (e : Fault) (s : σ) (a : α) (s' : σ) :
    (throw e : EStateM Fault σ α) s ≠ .ok a s' := nofun

theorem still_throw (C : Pairing σ) (f : α → β) (e : Fault) (p' : EStateM Fault σ β) :
    C.Still f (throw e) p' := still_of_fails (throw_ne_ok e)

theorem Still.local (h : C.Still f p p') : C.Local f p p' := by
  intro s a s' hs
  obtain ⟨hrest, hm⟩ := h hs
  exact ⟨hrest ▸ List.suffix_rfl, fun _ ↦ hm⟩

theorem Still.steady (h : C.Still f p p') : C.Steady D K Ready Any f p p' := by
  intro s a s' hs
  obtain ⟨hrest, hm⟩ := h hs
  exact ⟨trivial, fun hready ↦ .inl ⟨hm, by rwa [hrest]⟩⟩

theorem Firm.mirrors (h : C.Firm D S P f p p') (hs : p s = .ok a s')
    (hS : S C.after D.after (C.rest s)) :
    C.Mirrors p' s (f a) s' ∧ Ready C.after D.after (C.rest s') :=
  ((h hs).2 hS).resolve_right And.left

theorem Last.reaches (h : C.Last D S P f p p') (hs : p s = .ok a s')
    (hS : S C.after D.after (C.rest s)) : C.Reaches D p' s (f a) s' :=
  ((h hs).2 hS).elim (fun hm ↦ .inl hm.1) And.right

theorem Firm.last (h : C.Firm D S P f p p') : C.Steady D K S P f p p' :=
  fun _ _ _ hs ↦ ⟨(h hs).1, fun hS ↦ .inl (h.mirrors hs hS)⟩

theorem Steady.mono (h : C.Steady D K S P f p p') (hS : ∀ t, S' C.after D.after t →
    S C.after D.after t) (hP : ∀ t, P t → P' t) : C.Steady D K S' P' f p p' :=
  fun _ _ _ hs ↦ ⟨hP _ (h hs).1, fun hS' ↦ (h hs).2 (hS _ hS')⟩

theorem Steady.ready (h : C.Steady D K Sound P f p p') : C.Steady D K Ready Any f p p' :=
  h.mono (fun _ ↦ Ready.sound) fun _ _ ↦ trivial

theorem Steady.at {c : Char} (h : C.Steady D K Ready P f p p') : C.Steady D K (At c) P f p p' :=
  h.mono (fun _ ↦ And.left) fun _ hP ↦ hP

theorem Still.bind (hp : C.Still f p p') (hq : ∀ a, C.Still g (q a) (q' (f a))) :
    C.Still g (p >>= q) (p' >>= q') := by
  intro s b s'' hs
  obtain ⟨a, s', ha, hb⟩ := bind_eq_ok.mp hs
  obtain ⟨hrest, hm⟩ := hp ha
  obtain ⟨hrest', hm'⟩ := hq a hb
  exact ⟨hrest'.trans hrest, hm.bind hm'⟩

theorem Local.bind (hp : C.Local f p p') (hq : ∀ a, C.Local g (q a) (q' (f a))) :
    C.Local g (p >>= q) (p' >>= q') := by
  intro s b s'' hs
  obtain ⟨a, s', ha, hb⟩ := bind_eq_ok.mp hs
  obtain ⟨hsuffix, hm⟩ := hp ha
  obtain ⟨hsuffix', hm'⟩ := hq a hb
  refine ⟨hsuffix'.trans hsuffix, fun hclear ↦ (hm ?_).bind (hm' hclear)⟩
  -- What is left in the end was left before.
  exact hclear.imp_right fun hne hnil ↦ hne (List.suffix_nil.mp (hnil ▸ hsuffix'))

theorem Firm.bind (hp : C.Firm D S P f p p') (hq : ∀ a, C.Steady D K Ready Q g (q a) (q' (f a))) :
    C.Steady D K S P g (p >>= q) (p' >>= q') := by
  intro s b s'' hs
  obtain ⟨a, s', ha, hb⟩ := bind_eq_ok.mp hs
  refine ⟨(hp ha).1, fun hS ↦ ?_⟩
  obtain ⟨hm, hready⟩ := hp.mirrors ha hS
  exact ((hq a hb).2 hready).imp (And.imp_left hm.bind) (And.imp_right hm.bind_reaches)

theorem Still.bind_steady (hp : C.Still f p p') (hq : ∀ a, C.Steady D K S P g (q a) (q' (f a))) :
    C.Steady D K S P g (p >>= q) (p' >>= q') := by
  intro s b s'' hs
  obtain ⟨a, s', ha, hb⟩ := bind_eq_ok.mp hs
  obtain ⟨hrest, hm⟩ := hp ha
  rw [← hrest]
  refine ⟨(hq a hb).1, fun hS ↦ ?_⟩
  exact ((hq a hb).2 hS).imp (And.imp_left hm.bind) (And.imp_right hm.bind_reaches)

/-- Where something has to be left for what follows, an operation is mirrored. -/
theorem Local.bind_steady (hp : C.Local f p p')
    (hq : ∀ a, C.Steady D K Sound Clear g (q a) (q' (f a))) :
    C.Steady D K Sound Clear g (p >>= q) (p' >>= q') := by
  intro s b s'' hs
  obtain ⟨a, s', ha, hb⟩ := bind_eq_ok.mp hs
  obtain ⟨hsuffix, hm⟩ := hp ha
  obtain ⟨hclear, hm'⟩ := hq a hb
  have hm := hm (.inr hclear)
  refine ⟨fun hnil ↦ hclear (List.suffix_nil.mp (hnil ▸ hsuffix)), fun hsound ↦ ?_⟩
  exact (hm' (hsound.of_suffix hsuffix)).imp (And.imp_left hm.bind) (And.imp_right hm.bind_reaches)

/-- What does not read may follow in either pairing. -/
theorem Steady.bind_still (hp : C.Steady D K S P f p p') (hq : ∀ a, C.Still g (q a) (q' (f a)))
    (hq' : ∀ a, D.Still g (q a) (q' (f a))) : C.Steady D K S P g (p >>= q) (p' >>= q') := by
  intro s b s'' hs
  obtain ⟨a, s', ha, hb⟩ := bind_eq_ok.mp hs
  obtain ⟨hrest, hm'⟩ := hq a hb
  refine ⟨(hp ha).1, fun hS ↦ ((hp ha).2 hS).imp ?_ (And.imp_right (Or.imp ?_ ?_))⟩
  · exact fun hm ↦ ⟨hm.1.bind hm', by rw [hrest]; exact hm.2⟩
  · exact fun hm ↦ hm.bind hm'
  · exact fun hm ↦ ⟨hrest.trans hm.1, hm.2.bind (hq' a hb).2⟩

section Choices

variable {c : Prop} [Decidable c] {r : EStateM Fault σ α} {r' : EStateM Fault σ β}

theorem Still.ite (hp : C.Still f p p') (hr : C.Still f r r') :
    C.Still f (if c then p else r) (if c then p' else r') := by
  split
  · exact hp
  · exact hr

theorem Local.ite (hp : C.Local f p p') (hr : C.Local f r r') :
    C.Local f (if c then p else r) (if c then p' else r') := by
  split
  · exact hp
  · exact hr

theorem Steady.ite (hp : c → C.Steady D K S P f p p') (hr : ¬c → C.Steady D K S P f r r') :
    C.Steady D K S P f (if c then p else r) (if c then p' else r') := by
  split
  · rename_i hc
    exact hp hc
  · rename_i hc
    exact hr hc

end Choices

theorem still_get_ite {test test' : σ → Bool} {r : EStateM Fault σ α} {r' : EStateM Fault σ β}
    (htest : ∀ s u, C.Pairs s u → test' u = test s) (hp : C.Still f p p') (hr : C.Still f r r') :
    C.Still f (get >>= fun s ↦ if test s then p else r)
      (get >>= fun u ↦ if test' u then p' else r') := by
  intro s a s' hs
  obtain ⟨hrest, hm⟩ := (hp.ite hr) (show (if test s then p else r) s = .ok a s' from hs)
  refine ⟨hrest, fun u hu ↦ ?_⟩
  obtain ⟨u', hu', hpairs⟩ := hm u hu
  rw [← htest s u hu] at hu'
  exact ⟨u', hu', hpairs⟩

/-! ## Looking ahead -/

/-- The operation returns the next character and changes nothing. -/
structure Looks (C : Pairing σ) (look : EStateM Fault σ Char) : Prop where
  eq_ahead : ∀ ⦃s c s'⦄, look s = .ok c s' → s' = s ∧ c = ahead (C.rest s)
  mirrors : ∀ s, C.Mirrors look s (ahead (C.rest s ++ C.after)) s

section Looks

variable {look : EStateM Fault σ Char} {r : Char → EStateM Fault σ γ}
  {q : Char → EStateM Fault σ δ}

/-- If something is left, the next character is the same in the longer text. If not, what follows
has to do the same at the end of a text and before a line break. -/
theorem Looks.bind_steady (h : C.Looks look) (hr : ∀ c, C.Steady D K (At c) Any g (r c) (q c))
    (hend : C.Steady D K Ready Any g (r endMark) (q '\n')) :
    C.Steady D K Ready Any g (look >>= r) (look >>= q) := by
  intro s b s'' hs
  obtain ⟨c, s', hc, hb⟩ := bind_eq_ok.mp hs
  obtain ⟨rfl, rfl⟩ := h.eq_ahead hc
  have hlook := h.mirrors s'
  refine ⟨trivial, fun hready ↦ ?_⟩
  by_cases hsame : ahead (C.rest s' ++ C.after) = ahead (C.rest s')
  · rw [hsame] at hlook
    exact ((hr _ hb).2 ⟨hready, rfl⟩).imp (And.imp_left hlook.bind)
      (And.imp_right hlook.bind_reaches)
  · have hnil : C.rest s' = [] := by
      by_contra hne
      exact hsame (ahead_append _ hne)
    rw [hnil] at hb hlook hready hsame
    have hafter : C.after = '\n' :: D.after :=
      hready.edge.resolve_left fun hafter ↦ hsame (by rw [hafter]; rfl)
    rw [hafter] at hlook
    rw [← hnil] at hready
    exact ((hend hb).2 hready).imp (And.imp_left hlook.bind) (And.imp_right hlook.bind_reaches)

/-- If nothing succeeds at the end of a text, the next character is the same in the longer one. -/
theorem Looks.bind_sound (h : C.Looks look) (hend : ∀ s b s', r endMark s ≠ .ok b s')
    (hr : ∀ c, C.Steady D K (At c) Any g (r c) (q c)) :
    C.Steady D K Sound Clear g (look >>= r) (look >>= q) := by
  intro s b s'' hs
  obtain ⟨c, s', hc, hb⟩ := bind_eq_ok.mp hs
  obtain ⟨rfl, rfl⟩ := h.eq_ahead hc
  have hne : C.rest s' ≠ [] := by
    intro hnil
    rw [hnil] at hb
    exact hend _ _ _ hb
  have hlook := h.mirrors s'
  rw [ahead_append _ hne] at hlook
  refine ⟨hne, fun hsound ↦ ?_⟩
  exact ((hr _ hb).2 ⟨hsound.ready hne, rfl⟩).imp (And.imp_left hlook.bind)
    (And.imp_right hlook.bind_reaches)

end Looks

end Pairing

end SharpOutline
