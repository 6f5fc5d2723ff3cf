import SharpOutline.Proofs.Block.Declaring

/-!
# What a character does to a block

`Drafting.Turn` says what one character of a block can have done, as far as the comments that wait
there are concerned. It may have changed the text of the declaration only; a comment or an attribute
may wait now; an element may have opened a block of its own; a declaration may have been added with
its header; or something has been done that concerns no declaration, namely with a region, with a
conditional, or with an attribute that stands alone.

Each case also says what would have been different with one more comment that waits. This is known
but for the last one, where that comment would have become an element of its own.
-/

namespace SharpOutline

open SharpOutline.Tree

/-! ## Claims -/

/-- The element that a scope is going to add to what is around it. -/
def Scope.head : Scope → ElementId
  | region id => id
  | conditional head _ => head

/-- The elements of the block, with the one that the outermost open scope is going to add. -/
def Block.claims (b : Block) : List ElementId :=
  b.elements ++ (b.scopes.getLast?.map Scope.head).toList

/-- Something that is no declaration is among the elements, or is going to be. -/
def Draft.Foreign (d : Draft) : Prop :=
  ∃ x ∈ d.block.claims, ∃ kind, d.tree.kind? x = some kind ∧ kind.isDeclaration = false

/-- What a block has gained is claimed after what was claimed before. -/
theorem Draft.Gains.claims {n : Nat} {d d' : Draft} {ids : List ElementId}
    (h : d.Gains n ids d') : d.block.claims <+: d'.block.claims := by
  rw [Block.claims, Block.claims, h.scopes, h.elements]
  by_cases hscopes : d.block.scopes = []
  · rw [if_pos hscopes, hscopes]
    simp
  · simp [hscopes]

namespace Drafting

open Draft

variable {α β : Type} {o : α → Option (Option ElementId)} {R S T : Text → Text → Prop}
  {p p' : Drafting α} {q : α → Drafting β} {d d' : Draft} {a : α} {k x : ElementId}

/-! ## Operations on the text -/

variable {f : α → β} {o' : β → Option (Option ElementId)} {name : Text} {e : Element}

theorem Block.with_text {b : Block} {t : Text} (h : b.text = t) : { b with text := t } = b := by
  rw [← h]

/-- The operation depends on the source and on the text of the declaration only, and changes nothing
else. `R` says what it does to the text of the declaration. -/
def Plain (R : Text → Text → Prop) (p : Drafting α) : Prop :=
  ∀ ⦃d a d'⦄, p d = .ok a d' → ∃ c text, R d.block.text text ∧
    ∀ (t : Tree) (b : Block), b.text = d.block.text →
      p ⟨d.cursor, t, b⟩ = .ok a ⟨c, t, { b with text := text }⟩

abbrev Unchanged (t t' : Text) : Prop := t' = t

abbrev Emptied (_ t' : Text) : Prop := t' = []

/-- There is a text in the end. -/
abbrev Filled (_ t' : Text) : Prop := t' ≠ []

/-- There is no such text. -/
abbrev Excluded (_ _ : Text) : Prop := False

/-- If there is no text in the end, there was none but blanks. -/
abbrev Lasting (t t' : Text) : Prop := t' = [] → Text.trim t = []

theorem plain_pure (a : α) : Plain Unchanged (pure a) := by
  intro d _ d' h
  cases h
  exact ⟨d.cursor, d.block.text, rfl, fun t b hb ↦ by rw [Block.with_text hb]; rfl⟩

theorem plain_read (r : Reading α) : Plain Unchanged (read r) := by
  intro d a d' h
  obtain ⟨c, hc, rfl⟩ := read_eq_ok h
  refine ⟨c, d.block.text, rfl, fun t b hb ↦ ?_⟩
  rw [Block.with_text hb, read]
  simp only [hc]

theorem plain_ofExcept (e : Except Fault α) : Plain Unchanged (ofExcept e) := by
  cases e with
  | ok a => exact plain_pure a
  | error f => exact nofun

theorem plain_modifyBlock {f : Block → Block} {g : Text → Text}
    (hf : ∀ b, f b = { b with text := g b.text }) (hR : ∀ t, R t (g t)) :
    Plain R (modifyBlock f) := by
  intro d _ d' h
  cases h
  refine ⟨d.cursor, g d.block.text, hR _, fun t b hb ↦ ?_⟩
  change EStateM.Result.ok () (Draft.mk d.cursor t (f b)) = _
  rw [hf, hb]

theorem Plain.eq_ok (hp : Plain R p) (h : p d = .ok a d') : ∃ c text, R d.block.text text ∧
    d' = ⟨c, d.tree, { d.block with text := text }⟩ ∧
    ∀ (t : Tree) (b : Block), b.text = d.block.text →
      p ⟨d.cursor, t, b⟩ = .ok a ⟨c, t, { b with text := text }⟩ := by
  obtain ⟨c, text, hR, hp⟩ := hp h
  exact ⟨c, text, hR, (EStateM.Result.ok.inj (h.symm.trans (hp d.tree d.block rfl))).2, hp⟩

theorem plain_takeText : Plain Emptied takeText := by
  intro d text d' h
  cases h
  refine ⟨d.cursor, [], rfl, fun t b hb ↦ ?_⟩
  rw [← hb]
  rfl

theorem plain_push (c : Char) : Plain Filled (push c) :=
  plain_modifyBlock (g := (· ++ [c])) (fun _ ↦ rfl) fun _ ↦ by simp

theorem plain_pushBracketed (opener closer : Char) (inside : Text) :
    Plain Filled (pushBracketed opener closer inside) :=
  plain_modifyBlock (g := fun t ↦ Text.trimEnd t ++ opener :: inside ++ [closer])
    (fun _ ↦ rfl) fun _ ↦ by simp

theorem Plain.bind_announces (hp : Plain R p) (hq : ∀ a, Announces x (q a)) :
    Announces x (p >>= q) := by
  intro d b d' h
  obtain ⟨a, d₁, ha, h⟩ := bind_eq_ok.mp h
  obtain ⟨c, text, -, rfl, hp⟩ := hp.eq_ok ha
  have hq := hq a h
  refine ⟨fun hx hn ↦ ?_, fun hready hscopes helements ↦ ?_⟩
  · obtain ⟨ids, hids⟩ := hq.gains hx hn
    exact ⟨ids, hids.spares, hids.scopes, hids.elements⟩
  · exact bind_eq_ok.mpr ⟨a, _, hp d.tree (d.block.noted _) rfl, hq.given
      ⟨⟨hready.kind, hready.parent, hready.roots, hready.comments, hready.attributes⟩,
        hready.bare⟩ hscopes helements⟩

theorem Announces.bind_pure (h : Announces x p) :
    Announces x (p >>= fun a ↦ pure (f a)) := by
  intro d b d' hb
  obtain ⟨a, d₁, ha, hb⟩ := bind_eq_ok.mp hb
  cases hb
  have hp := h ha
  exact ⟨hp.gains, fun hready hscopes helements ↦
    bind_eq_ok.mpr ⟨a, _, hp.given hready hscopes helements, rfl⟩⟩

/-! ## Turns -/

/-- What an operation has done to the block; `o` says of a result whether a block starts, and of
which element, and it says nothing of the end of a block. What may have become of the text if
nothing else has been done is said by `R`. -/
inductive Turn (o : α → Option (Option ElementId)) (R : Text → Text → Prop) (p : Drafting α)
    (d : Draft) (a : α) : Draft → Prop
  /-- Only the text of the declaration has changed. -/
  | wrote {c : Cursor} {text : Text} (ho : o a = some none) (hR : R d.block.text text)
      (hp : ∀ (t : Tree) (b : Block), b.text = d.block.text →
        p ⟨d.cursor, t, b⟩ = .ok a ⟨c, t, { b with text := text }⟩) :
      Turn o R p d a ⟨c, d.tree, { d.block with text := text }⟩
  /-- A comment or an attribute waits. -/
  | held {d' : Draft} (ho : o a = some none) (hgains : d.Gains d.tree.size [] d')
      (hwaits : d'.block.comments ≠ [] ∨ d'.block.attributes ≠ [])
      (hnoted : ∀ k, p (d.noted k) = .ok a (d'.noted k)) : Turn o R p d a d'
  /-- The block of a new element starts. -/
  | opened {d' : Draft} (ho : o a = some (some d.tree.size)) (hgains : d.Gains d.tree.size [] d')
      (hnew : d'.tree.Bare d.tree.size)
      (hnoted : ∀ k, p (d.noted k) = .ok a (d'.noted k)) : Turn o R p d a d'
  /-- A new declaration was added, perhaps with others after it. -/
  | member {d' : Draft} {x : ElementId} {ids : List ElementId} (ho : o a = some none)
      (hgains : d.Gains d.tree.size (x :: ids) d')
      (hgiven : ∀ {k}, d.Aside k → d.block.scopes = [] →
        d'.block.elements = d.block.elements ++ [x] →
          p (d.noted k) = .ok a { d' with tree := d'.tree.headed x k }) : Turn o R p d a d'
  /-- Something was done that does not concern declarations. -/
  | other {d' : Draft} (ho : o a = some none) (hspares : Spares d.tree.size d.tree d'.tree)
      (hclaims : d.block.claims <+: d'.block.claims)
      (helements : d.block.elements <+: d'.block.elements)
      (hgrows : d'.block.scopes ≠ [] ∨ d.block.elements.length < d'.block.elements.length)
      (hforeign : d.block.scopes = [] → d'.Foreign) : Turn o R p d a d'

/-- What an operation does, wherever it succeeds. -/
def Turns (o : α → Option (Option ElementId)) (R : Text → Text → Prop) (p : Drafting α) : Prop :=
  ∀ ⦃d a d'⦄, p d = .ok a d' → Turn o R p d a d'

theorem turns_throw (f : Fault) : Turns o R (throw f) := fun _ _ _ h ↦ by cases h

theorem turns_pure (ho : o a = some none) : Turns o Unchanged (pure a) := by
  intro d _ d' h
  cases h
  exact .wrote ho rfl fun t b hb ↦ by rw [Block.with_text hb]; rfl

/-- What an operation does when the text has changed, seen by one that changes the text and goes on
in the same way. -/
theorem Turn.lift {p' : Drafting β} {b : β} {c : Cursor} {text : Text}
    (h : Turn o R p ⟨c, d.tree, { d.block with text := text }⟩ a d')
    (ho : o' b = o a) (hR : ∀ {t}, R text t → S d.block.text t)
    (hp : ∀ {t e} {b' : Block}, b'.text = d.block.text →
      p ⟨c, t, { b' with text := text }⟩ = .ok a e → p' ⟨d.cursor, t, b'⟩ = .ok b e) :
    Turn o' S p' d b d' := by
  cases h with
  | wrote ha htext hok => exact .wrote (ho.trans ha) (hR htext) fun t _ hb ↦ hp hb (hok t _ rfl)
  | held ha hgains hwaits hok =>
    exact .held (ho.trans ha) ⟨hgains.spares, hgains.scopes, hgains.elements⟩ hwaits fun k ↦
      hp rfl (hok k)
  | opened ha hgains hnew hok =>
    exact .opened (ho.trans ha) ⟨hgains.spares, hgains.scopes, hgains.elements⟩ hnew fun k ↦
      hp rfl (hok k)
  | member ha hgains hgiven =>
    exact .member (ho.trans ha) ⟨hgains.spares, hgains.scopes, hgains.elements⟩
      fun hk hscopes helements ↦ hp rfl (hgiven
        ⟨hk.kind, hk.parent, hk.roots, hk.comments, hk.attributes⟩ hscopes helements)
  | other ha hspares hclaims helements hgrows hforeign =>
    exact .other (ho.trans ha) hspares hclaims helements hgrows hforeign

theorem turns_block_bind {q : Block → Drafting α} (hq : ∀ b, Turns o R (q b))
    (heq : ∀ b b' : Block, b.text = b'.text → q b = q b') : Turns o R (block >>= q) := by
  intro d a d' h
  refine (hq d.block (show q d.block d = .ok a d' from h)).lift rfl id fun {t e b} hb hok ↦ ?_
  rwa [Block.with_text hb, heq d.block b hb.symm] at hok

theorem Turns.ite {c : Prop} [Decidable c] (hp : Turns o R p) (hp' : Turns o R p') :
    Turns o R (if c then p else p') := by
  split
  · exact hp
  · exact hp'

/-- What is done after an operation on the text. -/
theorem Plain.bind_turns {o : β → Option (Option ElementId)} (hp : Plain R p)
    (hq : ∀ a, Turns o S (q a)) (hR : ∀ {t t₁ t'}, R t t₁ → S t₁ t' → T t t') :
    Turns o T (p >>= q) := by
  intro d b d' h
  obtain ⟨a, d₁, ha, h⟩ := bind_eq_ok.mp h
  obtain ⟨c, text, htext, rfl, hp⟩ := hp.eq_ok ha
  exact (hq a h).lift rfl (hR htext) fun hb hok ↦ bind_eq_ok.mpr ⟨a, _, hp _ _ hb, hok⟩

/-- Where nothing is done but by what follows, the text does not matter. -/
theorem Plain.bind_excluded {o : β → Option (Option ElementId)} (hp : Plain R p)
    (hq : ∀ a, Turns o Excluded (q a)) : Turns o S (p >>= q) :=
  hp.bind_turns hq fun _ h ↦ h.elim

theorem Turns.bind_pure {o : α → Option (Option ElementId)} (hp : Turns o R p)
    (hf : ∀ a, o' (f a) = o a) : Turns o' R (p >>= fun a ↦ pure (f a)) := by
  intro d b d' h
  obtain ⟨a, d₁, ha, h⟩ := bind_eq_ok.mp h
  cases h
  refine (hp ha).lift (hf a) id fun hb hok ↦ bind_eq_ok.mpr ⟨a, _, ?_, rfl⟩
  rwa [Block.with_text hb] at hok

/-! ## New declarations -/

theorem turns_create_bind {name : Text} {e : Element} {q : ElementId → Drafting α}
    (he : e.kind.isDeclaration = true) (hq : ∀ x, Announces x (q x))
    (ho : ∀ {x d a d'}, q x d = .ok a d' → o a = some none) :
    Turns o R (create name e >>= q) := by
  intro d b d' h
  replace h := of_create_bind h
  have hnew := hq _ h
  obtain ⟨ids, hids⟩ := hnew.gains (Nat.le_refl d.tree.size)
    (by rw [size_create]; exact Nat.le_succ _)
  refine .member (ho h) ⟨(spares_create _ _ name e).trans hids.spares, hids.scopes, hids.elements⟩
    fun {k} hk hscopes helements ↦ bind_eq_ok.mpr
      ⟨_, _, rfl, hnew.given ⟨⟨?_, ?_, hk.roots, hk.comments, hk.attributes⟩,
        bare_create _ name he⟩ hscopes helements⟩
  · have hlt : k < d.tree.size := by
      obtain ⟨m, hm, -⟩ := Option.map_eq_some_iff.mp hk.kind
      exact lt_of_get? hm
    rw [kind?_create, if_neg (Nat.ne_of_lt hlt)]
    exact hk.kind
  · rw [parent?_create]
    exact hk.parent

/-- The block of a new declaration starts. -/
theorem turns_opened {f : ElementId → α} (he : e.kind.isDeclaration = true)
    (hf : ∀ x, o (f x) = some (some x)) :
    Turns o R (create name e >>= fun x ↦ pure (f x)) := by
  intro d b d' h
  replace h := of_create_bind h
  cases h
  exact .opened (hf _) (.of_spares (spares_create _ _ name e) rfl rfl) (bare_create _ name he)
    fun k ↦ rfl

end Drafting

end SharpOutline
