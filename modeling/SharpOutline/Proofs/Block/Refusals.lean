import SharpOutline.Proofs.Block.Holdings
import SharpOutline.Proofs.Block.Reactions
import SharpOutline.Proofs.Tree.Branches

/-!
# Nothing is lost while a block is read

Whatever a character starts, an operation that succeeds has placed what it created, or the block
holds it, or it is returned as the owner of a block that starts here. An operation that fails leaves
the draft as it is at that moment, with what it had in the hand lost to the block; nothing else is.

What a block holds are stems of the tree, so no edit puts an element beneath itself. And the block
knows of what kind its elements are: what waits as a comment is one, and so it is with attributes
and with the current branch of an open conditional (`Block.Sorted`). So an edit is refused only
where an attribute waits for an element that cannot have one, which is a namespace or a using
directive.

`Drafting.TameAt` says all this of an operation at a draft. There is one lemma for each operation,
in the order of the model; the last one is about reading a character (`Drafting.tame_advance`).
-/

namespace SharpOutline

open Relation SharpOutline.Tree

/-! ## Kinds of what a block holds -/

/-- What waits as an attribute is one, and the current branch of a conditional is a branch. -/
structure Block.Sorted (b : Block) (t : Tree) : Prop where
  attributes : ∀ a ∈ b.attributes, t.kind? a = some .attributeUse
  branches : ∀ head current, .conditional head current ∈ b.scopes →
    t.kind? current = some .conditionDirective

/-- The element declares something. -/
def Tree.Declares (t : Tree) (x : ElementId) : Prop :=
  ∃ k, t.kind? x = some k ∧ k.isDeclaration = true

variable {t u : Tree} {n : Nat} {k : Kind}

theorem Tree.Spares.kind?_eq {x : ElementId} (h : Spares n t u) (hx : t.kind? x = some k) :
    u.kind? x = some k :=
  (h.kind (lt_of_kind? hx)).trans hx

theorem Tree.Declares.spares {x : ElementId} (h : t.Declares x) (hspares : Spares n t u) :
    u.Declares x := by
  obtain ⟨k, hk, hdeclares⟩ := h
  exact ⟨k, hspares.kind?_eq hk, hdeclares⟩

namespace Block.Sorted

variable {b b' : Block} {t : Tree}

theorem empty (t : Tree) : Block.Sorted {} t := ⟨by simp, by simp⟩

theorem mono {u : Tree} {n : Nat} (h : b.Sorted t) (hspares : Spares n t u)
    (hattributes : b'.attributes ⊆ b.attributes) (hscopes : b'.scopes ⊆ b.scopes) :
    b'.Sorted u where
  attributes a ha := hspares.kind?_eq (h.attributes a (hattributes ha))
  branches head current hmem := hspares.kind?_eq (h.branches head current (hscopes hmem))

theorem of_eq (h : b.Sorted t) (hattributes : b'.attributes = b.attributes)
    (hscopes : b'.scopes = b.scopes) : b'.Sorted t :=
  h.mono (.refl 0 t) (hattributes ▸ List.Subset.refl _) (hscopes ▸ List.Subset.refl _)

end Block.Sorted

theorem Kind.eq_of_not_isAttributable (h : k.isDeclaration = true)
    (hnot : k.isAttributable = false) : k = .nameSpace ∨ k = .usingDirective := by
  cases k with
  | nameSpace => exact .inl rfl
  | usingDirective => exact .inr rfl
  | comment | region | conditionDirective | attributeUse => cases h
  | _ => cases hnot

namespace Drafting

variable {α β : Type} {x y : Drafting α} {f : α → Drafting β} {d : Draft} {hand hand' : List Stem}
  {mid out : α → List Stem} {out' : β → List Stem}

/-! ## Operations that meet only foreseen faults -/

/-- With the stems `hand` in the hand, the operation loses no others if it fails. -/
def Spills (x : Drafting α) (hand : List Stem) : Prop :=
  ∀ ⦃d e d' around⦄, d.Holds hand around → x d = .error e d' → ∃ spilled, d'.Holds spilled around

/-- What an operation does at this draft, with the stems `hand` in the hand. If it succeeds it
leaves the stems `out` there, and the block is sorted if it was before. If it fails, nothing is lost
but what was in the hand, and where the block is sorted the fault is a foreseen one. -/
structure TameAt (x : Drafting α) (hand : List Stem) (out : α → List Stem) (d : Draft) : Prop where
  kept : ∀ ⦃a d' around⦄, d.Holds hand around → x d = .ok a d' →
    d'.Holds (out a) around ∧ (d.block.Sorted d.tree → d'.block.Sorted d'.tree)
  lost : ∀ ⦃e d' around⦄, d.Holds hand around → x d = .error e d' →
    (∃ spilled, d'.Holds spilled around) ∧ (d.block.Sorted d.tree → e.Foreseen)

/-- This is so at every draft. -/
def Tame (x : Drafting α) (hand : List Stem) (out : α → List Stem) : Prop :=
  ∀ d, TameAt x hand out d

variable {d'' d' : Draft} {e : Fault} {a : α} {r : Stem} {g : Block → Block} {c : Char}
  {name : Text} {t : Tree} {p id current first : ElementId} {ids : List ElementId}
  {stems : List Stem} {k : Kind} {scopes : List Scope} {condition : Option Text}

theorem Tame.tends (hx : Tame x hand out) : Tends x hand out :=
  fun d _ _ _ h ha ↦ ((hx d).kept h ha).1

theorem Tame.spills (hx : Tame x hand out) : Spills x hand :=
  fun d _ _ _ h he ↦ ((hx d).lost h he).1

/-- Where a sequence fails, its first part fails or its second part does. -/
theorem bind_eq_error : (x >>= f) d = .error e d'' ↔
    x d = .error e d'' ∨ ∃ a d', x d = .ok a d' ∧ f a d' = .error e d'' := by
  change EStateM.bind x f d = _ ↔ _
  unfold EStateM.bind
  cases x d with
  | ok a d' => simp
  | error e' d' => simp

theorem ne_error_of_ok (h : x d = .ok a d') :
    x d ≠ .error e d'' := by
  rw [h]
  nofun

namespace TameAt

theorem bind (hx : TameAt x hand mid d)
    (hf : ∀ a d', x d = .ok a d' → TameAt (f a) (mid a) out' d') :
    TameAt (x >>= f) hand out' d := by
  constructor
  · intro b d'' around h hb
    obtain ⟨a, d', ha, hb⟩ := bind_eq_ok.mp hb
    obtain ⟨h', hsorted⟩ := hx.kept h ha
    obtain ⟨h'', hsorted'⟩ := (hf a d' ha).kept h' hb
    exact ⟨h'', hsorted' ∘ hsorted⟩
  · intro e d'' around h he
    obtain he | ⟨a, d', ha, he⟩ := bind_eq_error.mp he
    · exact hx.lost h he
    · obtain ⟨h', hsorted⟩ := hx.kept h ha
      obtain ⟨hspilled, hforeseen⟩ := (hf a d' ha).lost h' he
      exact ⟨hspilled, hforeseen ∘ hsorted⟩

theorem ite {p : Prop} [Decidable p] (hx : TameAt x hand out d) (hy : TameAt y hand out d) :
    TameAt (if p then x else y) hand out d := by
  split
  · exact hx
  · exact hy

theorem perm (hx : TameAt x hand out d) (hp : hand'.Perm hand) : TameAt x hand' out d :=
  ⟨fun _ _ _ h ha ↦ hx.kept (h.perm hp) ha, fun _ _ _ h he ↦ hx.lost (h.perm hp) he⟩

end TameAt

theorem Tame.bind (hx : Tame x hand mid) (hf : ∀ a, Tame (f a) (mid a) out') :
    Tame (x >>= f) hand out' := fun d ↦ (hx d).bind fun a d' _ ↦ hf a d'

theorem Tame.ite {p : Prop} [Decidable p] (hx : Tame x hand out) (hy : Tame y hand out) :
    Tame (if p then x else y) hand out := fun d ↦ (hx d).ite (hy d)

theorem tameAt_of_error (hx : x d = .error e d) (he : e.Foreseen) :
    TameAt x hand out d := by
  refine ⟨fun _ _ _ _ ha ↦ absurd hx (ne_error_of_ok ha), fun _ _ around h he' ↦ ?_⟩
  cases hx.symm.trans he'
  exact ⟨⟨hand, h⟩, fun _ ↦ he⟩

theorem tame_throw (he : e.Foreseen) : Tame (throw e) hand out := fun _ ↦
  tameAt_of_error rfl he

theorem tameAt_of_ok {a : α} {d' : Draft} (hx : x d = .ok a d')
    (hkept : ∀ {around}, d.Holds hand around → d'.Holds (out a) around)
    (hsorted : d.block.Sorted d.tree → d'.block.Sorted d'.tree) : TameAt x hand out d := by
  refine ⟨fun b d'' around h hb ↦ ?_, fun _ _ _ _ he ↦ absurd he (ne_error_of_ok hx)⟩
  cases hx.symm.trans hb
  exact ⟨hkept h, hsorted⟩

theorem tame_give (out : α → List Stem) (a : α) : Tame (pure a) (out a) out := fun _ ↦
  tameAt_of_ok rfl id id

theorem tame_pure (a : α) : Tame (pure a) hand fun _ ↦ hand := tame_give (fun _ ↦ hand) a

theorem read_eq_error {r : Reading α} (he : read r d = .error e d') :
    ∃ c, r d.cursor = .error e c ∧ d' = { d with cursor := c } := by
  unfold read at he
  split at he
  · cases he
  · rename_i e' c hc
    cases he
    exact ⟨c, hc, rfl⟩

theorem tame_read {r : Reading α} (hr : r.Tidy) : Tame (read r) hand fun _ ↦ hand := by
  intro d
  refine ⟨fun a d' around h ha ↦ ⟨tends_read r h ha, ?_⟩, fun e d' around h he ↦ ?_⟩
  · obtain ⟨c, -, rfl⟩ := read_eq_ok ha
    exact id
  · obtain ⟨c, hc, rfl⟩ := read_eq_error he
    exact ⟨⟨hand, h.linked, h.made, h.text⟩, fun _ ↦ hr.foreseen hc⟩

theorem tame_get : Tame get hand fun _ ↦ hand := fun _ ↦ tameAt_of_ok rfl id id

theorem tame_block : Tame block hand fun _ ↦ hand := fun _ ↦ tameAt_of_ok rfl id id

theorem tame_nameOf (id : ElementId) : Tame (nameOf id) hand fun _ ↦ hand := fun _ ↦
  tameAt_of_ok rfl (fun h ↦ h) fun h ↦ h

theorem tame_ofExcept {e : Except Fault α} (he : Foreseeable e) :
    Tame (ofExcept e) hand fun _ ↦ hand := by
  cases e with
  | ok a => exact tame_pure a
  | error f => exact tame_throw (he rfl)

theorem tameAt_modifyBlock {out : Unit → List Stem} (htends : Tends (modifyBlock g) hand out)
    (hsorted : d.block.Sorted d.tree → (g d.block).Sorted d.tree) :
    TameAt (modifyBlock g) hand out d :=
  tameAt_of_ok rfl (htends · rfl) hsorted

theorem tame_modifyBlock {out : Unit → List Stem} (htends : Tends (modifyBlock g) hand out)
    (hattributes : ∀ b, (g b).attributes = b.attributes) (hscopes : ∀ b, (g b).scopes = b.scopes) :
    Tame (modifyBlock g) hand out := fun _ ↦
  tameAt_modifyBlock htends fun hd ↦ hd.of_eq (hattributes _) (hscopes _)

theorem tame_push (hc : isBlank c = false) : Tame (push c) hand fun _ ↦ hand :=
  tame_modifyBlock (tends_push hc) (fun _ ↦ rfl) fun _ ↦ rfl

theorem tame_pushBracketed {opener : Char} (ho : isBlank opener = false) (closer : Char)
    (inside : Text) : Tame (pushBracketed opener closer inside) hand fun _ ↦ hand :=
  tame_modifyBlock (tends_pushBracketed ho closer inside) (fun _ ↦ rfl) fun _ ↦ rfl

theorem tame_dropText : Tame (modifyBlock fun b ↦ { b with text := [] }) hand fun _ ↦ hand :=
  tame_modifyBlock tends_dropText (fun _ ↦ rfl) fun _ ↦ rfl

theorem tame_takeText : Tame takeText hand fun _ ↦ hand :=
  tame_block.bind fun _ ↦ tame_dropText.bind fun _ ↦ tame_pure _

/-! ### New elements -/

theorem otherwise?_of_isDeclaration {e : Element} (he : e.kind.isDeclaration = true) :
    e.otherwise? = none := by
  cases e with
  | conditionDirective condition otherwise => cases he
  | _ => rfl

theorem tame_createAs {e : Element} {out : ElementId → List Stem}
    (htends : Tends (create name e) hand out) : Tame (create name e) hand out := fun _ ↦
  tameAt_of_ok rfl (htends · rfl) fun hsorted ↦
    hsorted.mono (spares_create 0 _ name e) (List.Subset.refl _) (List.Subset.refl _)

theorem tame_create {e : Element} (he : e.otherwise? = none) :
    Tame (create name e) hand fun id ↦ .whole id :: hand :=
  tame_createAs (tends_create he)

theorem tame_create_bind {e : Element} {q : ElementId → Drafting β}
    (he : e.kind.isDeclaration = true)
    (hq : ∀ id d, d.tree.Declares id → TameAt (q id) (.whole id :: hand) out' d) :
    Tame (create name e >>= q) hand out' := by
  intro d
  refine (tame_create (otherwise?_of_isDeclaration he) d).bind fun id d' hd ↦ hq id d' ?_
  cases hd
  exact ⟨e.kind, by rw [kind?_create, if_pos rfl], he⟩

/-! ### Placing -/

/-- Stems can be put beneath an element of another one. -/
theorem foldlM_addChild_eq (hlinked : t.Linked) (hmade : t.MadeOf (ids.map .whole ++ stems))
    (hr : r ∈ stems) (hp : r.Bears p) :
    ids.foldlM (fun u c ↦ u.addChild p c) t = .ok (t.adopted p .children ids) :=
  (hmade.foldlM_eq .children (f := .whole) (fun _ ↦ rfl) (putsBeneath_addChild p) hr hp hlinked
    fun _ hu hmade hr _ ↦ hmade.addChild_eq hu hr (hp (hmade.fits (List.mem_cons_of_mem _ hr)))).1

theorem tameAt_addChild {s : Stem} (hp : r.Bears p) (hr : r ∈ hand ++ d.block.stems) :
    TameAt (edit fun t ↦ t.addChild p s.head) (s :: hand) (fun _ ↦ hand) d := by
  have hmem : ∀ around, r ∈ hand ++ (d.block.stems ++ around) := fun around ↦ by
    rw [← List.append_assoc]
    exact List.mem_append_left around hr
  constructor
  · intro a d' around h ha
    obtain ⟨h', -⟩ := holds_edit (putsBeneath_addChild p) h (hmem around) hp ha
    obtain ⟨t, ht, rfl⟩ := edit_eq_ok.mp ha
    exact ⟨h', fun hsorted ↦ hsorted.mono (spares_addChild (n := 0) ht) (List.Subset.refl _)
      (List.Subset.refl _)⟩
  · intro e d' around h he
    have hok := h.made.addChild_eq h.linked (hmem around)
      (hp (h.made.fits (List.mem_cons_of_mem _ (hmem around))))
    exact absurd he (ne_error_of_ok (edit_eq_ok (a := ()).mpr ⟨_, hok, rfl⟩))

theorem tame_attach (id : ElementId) : Tame (attach id) (.whole id :: hand) fun _ ↦ hand := by
  intro d
  refine (tame_block d).bind fun b d' hb ↦ ?_
  cases hb
  cases hscopes : d.block.scopes with
  | nil => exact tameAt_modifyBlock (tends_pushElement id) fun hsorted ↦ hsorted.of_eq rfl rfl
  | cons scope scopes =>
    exact tameAt_addChild (s := .whole id) scope.bears_owner (by simp [Block.stems, hscopes])

theorem tame_attachAll (ids : List ElementId) :
    Tame (attachAll ids) (ids.map .whole ++ hand) fun _ ↦ hand := by
  induction ids with
  | nil => exact tame_pure ()
  | cons id ids ih => exact (tame_attach id).bind fun _ ↦ ih

theorem tame_emit (ids : List ElementId) :
    Tame (emit ids) (ids.map .whole ++ hand) fun _ ↦ hand :=
  (tame_attachAll ids).bind fun _ ↦ tame_pure _

theorem tame_takeComments : Tame takeComments hand fun ids ↦ ids.map .whole ++ hand := fun _ ↦
  tameAt_of_ok rfl (tends_takeComments · rfl) fun hsorted ↦ hsorted.of_eq rfl rfl

theorem tame_flushComments : Tame flushComments hand fun _ ↦ hand :=
  tame_takeComments.bind fun ids ↦ tame_attachAll ids

/-- The waiting comments are put beneath an element that hangs from one of the open scopes. -/
theorem tameAt_adoptComments (hp : r.Bears p) (hr : r ∈ d.block.scopes.map Scope.stem) :
    TameAt (adoptComments p) hand (fun _ ↦ hand) d := by
  constructor
  · intro a d' around h ha
    obtain ⟨h', rfl⟩ := holds_adoptComments hp h hr ha
    exact ⟨h', fun hsorted ↦ hsorted.mono (gains_adoptComments (n := 0) ha).spares
      (List.Subset.refl _) (List.Subset.refl _)⟩
  · intro e d' around h he
    obtain he | ⟨ids, d₁, hids, he⟩ := bind_eq_error.mp he
    · cases he
    · have h₁ := tends_takeComments h hids
      cases hids
      have hmade := h₁.made
      rw [List.append_assoc] at hmade
      refine absurd he (ne_error_of_ok (editAll_eq_ok (a := ()).mpr
        ⟨_, foldlM_addChild_eq h₁.linked hmade (r := r) ?_ hp, rfl⟩))
      simp only [Block.stems, List.mem_append]
      exact .inr (.inl (.inr (.inr (.inl hr))))

theorem tame_checkNoAttributes : Tame checkNoAttributes hand fun _ ↦ hand := by
  refine tame_block.bind fun b ↦ ?_
  cases b.attributes with
  | nil => exact tame_pure ()
  | cons id ids => exact (tame_nameOf id).bind fun _ ↦ tame_throw trivial

/-- Attributes are refused where they cannot be applied. -/
theorem addAttribute_eq_error {a : ElementId} (hp : t.kind? p = some k)
    (hk : k.isAttributable = false) : t.addAttribute p a = .error (.notAttributable k) := by
  obtain ⟨n, hn, rfl⟩ := Option.map_eq_some_iff.mp hp
  rw [Tree.addAttribute, Tree.addTo, node_eq_ok.mpr hn]
  exact if_pos (by rw [hk]; rfl)

theorem editAll_addAttribute_eq_error (hp : d.tree.kind? p = some k) (hk : k.isAttributable = false)
    (h : editAll (fun a t ↦ t.addAttribute p a) ids d = .error e d') :
    e = .refused (.notAttributable k) := by
  cases ids with
  | nil => cases h
  | cons id ids =>
    have hedit : edit (fun t ↦ t.addAttribute p id) d =
        .error (.refused (.notAttributable k)) d := by
      rw [edit, addAttribute_eq_error hp hk]
    obtain h | ⟨a, d₁, hone, -⟩ := bind_eq_error.mp h
    · exact (EStateM.Result.error.inj (h.symm.trans hedit)).1
    · cases hone.symm.trans hedit

theorem spills_edit (change : Tree → Except Refusal Tree) : Spills (edit change) hand := by
  intro d e d' around h he
  unfold edit at he
  split at he
  · cases he
  · cases he
    exact ⟨hand, h⟩

theorem spills_editAll {slot : Slot} {change : ElementId → Tree → Except Refusal Tree}
    (hc : PutsBeneath p slot change) (hr : r ∈ hand) (hp : r.Bears p) (ids : List ElementId) :
    Spills (editAll change ids) (ids.map .whole ++ hand) := by
  induction ids with
  | nil => exact (tame_pure ()).spills
  | cons id ids ih =>
    intro d e d' around h he
    have hmem : r ∈ ids.map Stem.whole ++ hand := List.mem_append_right _ hr
    obtain he | ⟨⟨⟩, d₁, hone, he⟩ := bind_eq_error.mp he
    · exact spills_edit _ h he
    · exact ih (tends_edit hc (s := .whole id) hmem hp h hone) he

/-- Whatever waits for an element, and whether the element can have it or not. -/
theorem spills_applyHeader (id : ElementId) : Spills (applyHeader id) (.whole id :: hand) := by
  intro d e d' around h he
  obtain he | ⟨comments, d₁, htake, he⟩ := bind_eq_error.mp he
  · cases he
  have h₁ := tends_takeComments h htake
  obtain he | ⟨⟨⟩, d₂, hedit, he⟩ := bind_eq_error.mp he
  · exact spills_editAll (putsBeneath_addHeaderComment id) List.mem_cons_self
      (Stem.bears_head (.whole id)) _ h₁ he
  have h₂ := tends_editAll (putsBeneath_addHeaderComment id) List.mem_cons_self
    (Stem.bears_head (.whole id)) _ h₁ hedit
  obtain he | ⟨attributes, d₃, htake, he⟩ := bind_eq_error.mp he
  · cases he
  exact spills_editAll (putsBeneath_addAttribute id) List.mem_cons_self
    (Stem.bears_head (.whole id)) _ (tends_takeAttributes h₂ htake) he

/-- A declaration gets what waits for it, unless that are attributes and it cannot have any. -/
theorem tameAt_applyHeader (hid : d.tree.Declares id) :
    TameAt (applyHeader id) (.whole id :: hand) (fun _ ↦ .whole id :: hand) d := by
  obtain ⟨k, hk, hdeclares⟩ := hid
  have hcommentable := Kind.isCommentable_of_isDeclaration hdeclares
  constructor
  · intro a d' around h ha
    refine ⟨tends_applyHeader id h ha, fun hsorted ↦ ?_⟩
    have hspares := (gains_applyHeader (Nat.zero_le id) ha).spares
    obtain ⟨t, rfl⟩ := applyHeader_eq_ok ha
    exact hsorted.mono hspares (List.nil_subset _) (List.Subset.refl _)
  · intro e d' around h he
    refine ⟨spills_applyHeader id h he, fun hsorted ↦ ?_⟩
    replace h : d.Holds [.whole id] (hand ++ around) :=
      Draft.Holds.aside_iff.mp (show d.Holds ([.whole id] ++ hand) around from h)
    cases hattributable : k.isAttributable with
    | true =>
      exact absurd he (ne_error_of_ok
        (applyHeader_eq h hk hcommentable hattributable hsorted.attributes))
    | false =>
      -- The comments come first and are taken, so it is the first attribute that is refused.
      obtain ⟨hcomments, -, -, hkind⟩ := headerComments_eq h hk hcommentable
      obtain he | ⟨comments, d₁, htake, he⟩ := bind_eq_error.mp he
      · cases he
      cases htake
      have hheaders : editAll (fun c t ↦ t.addHeaderComment id c) d.block.comments
          { d with block := { d.block with comments := [] } } = .ok () _ :=
        editAll_eq_ok.mpr ⟨_, hcomments, rfl⟩
      obtain he | ⟨⟨⟩, d₂, hedit, he⟩ := bind_eq_error.mp he
      · exact absurd he (ne_error_of_ok hheaders)
      cases hheaders.symm.trans hedit
      obtain he | ⟨applied, d₃, htake, he⟩ := bind_eq_error.mp he
      · cases he
      cases htake
      obtain rfl := editAll_addAttribute_eq_error ((hkind id).trans hk) hattributable he
      obtain rfl | rfl := Kind.eq_of_not_isAttributable hdeclares hattributable
      · exact .inl rfl
      · exact .inr (.inl rfl)

theorem tame_withTrailingComment (ids : List ElementId) :
    Tame (withTrailingComment ids) (ids.map .whole ++ hand) fun ids ↦ ids.map .whole ++ hand := by
  refine (tame_read Reading.tidy_trailingComment?).bind fun found ↦ ?_
  cases found with
  | none => exact tame_give (fun ids ↦ ids.map .whole ++ hand) ids
  | some comment =>
    refine (tame_create rfl).bind fun id d ↦ (tame_give (fun ids ↦ ids.map .whole ++ hand)
      (ids ++ [id]) d).perm ?_
    rw [List.map_append, List.append_assoc]
    exact List.perm_middle.symm

theorem tameAt_emitMember (hid : d.tree.Declares id) :
    TameAt (emitMember id) (.whole id :: hand) (fun _ ↦ hand) d :=
  (tameAt_applyHeader hid).bind fun _ d' _ ↦
    (tame_withTrailingComment [id]).bind (fun ids ↦ tame_emit ids) d'

theorem tends_emitMember (id : ElementId) :
    Tends (emitMember id) (.whole id :: hand) fun _ ↦ hand :=
  (tends_applyHeader id).bind fun _ ↦
    ((tame_withTrailingComment [id]).bind fun ids ↦ tame_emit ids).tends

theorem spills_emitMember (id : ElementId) : Spills (emitMember id) (.whole id :: hand) := by
  intro d e d' around h he
  obtain he | ⟨⟨⟩, d₁, hheader, he⟩ := bind_eq_error.mp he
  · exact spills_applyHeader id h he
  · exact ((tame_withTrailingComment [id]).bind fun ids ↦ tame_emit ids).spills
      (tends_applyHeader id h hheader) he

/-- A block that cannot end is at fault, but nothing is refused. -/
theorem tame_finishBlock : Tame finishBlock hand fun _ ↦ hand := by
  refine tame_takeText.bind fun text ↦ tame_block.bind fun b ↦ .ite (tame_throw trivial) ?_
  split
  · exact (tame_nameOf _).bind fun _ ↦ tame_throw trivial
  · exact (tame_nameOf _).bind fun _ ↦ tame_throw trivial
  · exact tame_checkNoAttributes.bind fun _ ↦ tame_flushComments.bind fun _ ↦
      tame_block.bind fun _ ↦ tame_pure _

/-! ## Scopes -/

theorem tame_openScope (name : Text) {e : Element} (he : e.otherwise? = none)
    (scope : ElementId → Scope) (hscope : ∀ id, (scope id).stem = .growing id id)
    (hbranch : ∀ id head current, scope id = .conditional head current →
      current = id ∧ e.kind = .conditionDirective) :
    Tame (openScope name e scope) hand fun _ ↦ hand := by
  refine tame_checkNoAttributes.bind fun _ ↦ tame_flushComments.bind fun _ d ↦
    (tame_createAs (tends_createGrowing he) d).bind fun id d' hcreate ↦
      (tameAt_modifyBlock (tends_pushScope (hscope id)) fun hsorted ↦ ?_).bind fun _ d' _ ↦
        tame_pure _ d'
  cases hcreate
  refine ⟨hsorted.attributes, fun head current hmem ↦ ?_⟩
  rcases List.mem_cons.mp hmem with hnew | hold
  · obtain ⟨rfl, hkind⟩ := hbranch _ head current hnew.symm
    rw [kind?_create, if_pos rfl, hkind]
  · exact hsorted.branches head current hold

theorem tame_openRegion (name : Text) (isDirective : Bool) :
    Tame (openRegion name isDirective) hand fun _ ↦ hand :=
  tame_openScope name rfl .region (fun _ ↦ rfl) nofun

theorem tame_openConditional (condition : Text) :
    Tame (openConditional condition) hand fun _ ↦ hand := by
  refine tame_openScope condition rfl (fun id ↦ .conditional id id) (fun _ ↦ rfl) ?_
  rintro id head current ⟨⟩
  exact ⟨rfl, rfl⟩

theorem tameAt_closeScope (scope : Scope) (hscopes : d.block.scopes = scope :: scopes) :
    TameAt (closeScope scope.stem.head) hand (fun _ ↦ hand) d := by
  have hpop : TameAt (modifyBlock fun b ↦ { b with scopes := b.scopes.tail }) hand
      (fun _ ↦ .whole scope.stem.head :: hand) d :=
    tameAt_of_ok rfl (fun h ↦ (holds_popScope h hscopes).weaken) fun hsorted ↦
      hsorted.mono (.refl 0 _) (List.Subset.refl _) (List.tail_subset _)
  exact hpop.bind fun _ d' _ ↦ tame_emit [scope.stem.head] d'

theorem tameAt_adopt_close (scope : Scope) (hscopes : d.block.scopes = scope :: scopes) :
    TameAt (do adoptComments scope.owner; closeScope scope.stem.head) hand (fun _ ↦ hand) d := by
  refine (tameAt_adoptComments scope.bears_owner (by simp [hscopes])).bind fun _ d' hadopt ↦ ?_
  exact tameAt_closeScope scope ((gains_adoptComments (n := 0) hadopt).scopes.trans hscopes)

theorem tame_closeRegion : Tame closeRegion hand fun _ ↦ hand := by
  refine tame_checkNoAttributes.bind fun _ d ↦ (tame_block d).bind fun b d' hb ↦ ?_
  cases hb
  split
  · rename_i id scopes hscopes
    exact tameAt_adopt_close (.region id) hscopes
  · exact tame_throw (e := .unmatchedEndRegion) trivial d

theorem tame_innermostConditional (directive : Text) :
    Tame (innermostConditional directive) hand fun _ ↦ hand := by
  refine tame_block.bind fun b ↦ ?_
  split
  · exact tame_pure _
  · exact (tame_nameOf _).bind fun _ ↦ tame_throw trivial
  · exact tame_throw trivial

/-- A new branch may follow the current one of the innermost conditional. -/
theorem exists_setOtherwise_create
    (hmade : (t.create name (.conditionDirective condition none)).MadeOf stems)
    (hcurrent : t.kind? current = some .conditionDirective) :
    ∃ u, (t.create name (.conditionDirective condition none)).setOtherwise current
      (some t.size) = .ok u := by
  have hend : (t.create name (.conditionDirective condition none)).EndingBranches := by
    intro x hx
    exact hmade.forest.irrefl (TransGen.mono (fun _ _ hb ↦ .inr hb) x x hx)
  have hknown : (t.create name (.conditionDirective condition none)).KnownBranches := fun p b hb ↦
    (hmade.forest.lt_of_owns (.inr hb)).2
  have hlt : current < t.size := lt_of_kind? hcurrent
  have hkind : (t.create name (.conditionDirective condition none)).kind? current =
      some .conditionDirective := by
    rw [kind?_create, if_neg (Nat.ne_of_lt hlt), hcurrent]
  have hnew : (t.create name (.conditionDirective condition none)).kind? t.size =
      some .conditionDirective := by
    rw [kind?_create, if_pos rfl]
    rfl
  obtain ⟨hleads, -⟩ | ⟨-, hok⟩ := hend.setOtherwise hknown hkind hnew
  · -- nothing follows the new branch yet
    rcases hleads.cases_head with heq | ⟨b, hb, -⟩
    · exact absurd heq.symm (Nat.ne_of_lt hlt)
    · rw [Leads, otherwise?_create, if_pos rfl] at hb
      cases hb
  · exact hok

theorem tameAt_addBranch {head : ElementId}
    (hscopes : d.block.scopes = .conditional head current :: scopes) :
    TameAt (do
      let branch ← createBranch condition
      edit fun t ↦ t.setOtherwise current (some branch)
      modifyBlock fun b ↦ { b with scopes := .conditional head branch :: b.scopes.tail }
      return Step.more) hand (fun _ ↦ hand) d := by
  have hcurrent : d.block.Sorted d.tree → d.tree.kind? current = some .conditionDirective :=
    fun hsorted ↦ hsorted.branches head current (by simp [hscopes])
  constructor
  · intro step d' around h hx
    refine ⟨holds_addBranch h hscopes hx, fun hsorted ↦ ?_⟩
    replace hx := of_create_bind hx
    obtain ⟨⟨⟩, d₂, hset, hx⟩ := bind_eq_ok.mp hx
    obtain ⟨t, ht, rfl⟩ := edit_eq_ok.mp hset
    replace hx := of_modifyBlock_bind hx
    cases hx
    have hset : Spares 0 _ t := spares_setOtherwise ht
    have hspares : Spares 0 d.tree t := (spares_create 0 d.tree _ _).trans hset
    have hold : Block.Sorted { d.block with scopes := scopes } t :=
      hsorted.mono hspares (List.Subset.refl _) (by rw [hscopes]; exact List.subset_cons_self _ _)
    refine ⟨hold.attributes, fun head' current' hmem ↦ ?_⟩
    rcases List.mem_cons.mp hmem with hnew | hmem
    · obtain ⟨-, rfl⟩ := Scope.conditional.inj hnew
      refine hset.kind?_eq ?_
      rw [kind?_create, if_pos rfl]
      rfl
    · rw [hscopes] at hmem
      exact hold.branches head' current' hmem
  · intro e d' around h hx
    obtain hx | ⟨branch, d₁, hcreate, hx⟩ := bind_eq_error.mp hx
    · cases hx
    have h₁ := tends_createGrowing (e := .conditionDirective condition none) rfl h hcreate
    cases hcreate
    obtain hx | ⟨⟨⟩, d₂, -, hx⟩ := bind_eq_error.mp hx
    · refine ⟨spills_edit _ h₁ hx, fun hsorted ↦ ?_⟩
      obtain ⟨u, hu⟩ := exists_setOtherwise_create h₁.made (hcurrent hsorted)
      exact absurd hx (ne_error_of_ok (edit_eq_ok (a := ()).mpr ⟨u, hu, rfl⟩))
    · obtain hx | ⟨⟨⟩, d₃, -, hx⟩ := bind_eq_error.mp hx
      · cases hx
      · cases hx

theorem tame_nextBranch (condition : Option Text) (directive : Text) :
    Tame (nextBranch condition directive) hand fun _ ↦ hand := by
  refine tame_checkNoAttributes.bind fun _ d ↦
    (tame_innermostConditional directive d).bind fun r d' hinner ↦ ?_
  obtain ⟨⟨scopes, hscopes⟩, rfl⟩ := innermostConditional_eq_ok hinner
  refine (tame_get d').bind fun _ d hget ↦ ?_
  cases hget
  refine .ite (tame_throw (e := .branchAfterElse directive) trivial d') ?_
  refine (tameAt_adoptComments (Scope.bears_owner (.conditional r.1 r.2)) (by simp [hscopes])).bind
    fun _ d hadopt ↦ ?_
  exact tameAt_addBranch ((gains_adoptComments (n := 0) hadopt).scopes.trans hscopes)

theorem tame_closeConditional : Tame closeConditional hand fun _ ↦ hand := by
  refine tame_checkNoAttributes.bind fun _ d ↦
    (tame_innermostConditional "endif".toList d).bind fun r d' hinner ↦ ?_
  obtain ⟨⟨scopes, hscopes⟩, rfl⟩ := innermostConditional_eq_ok hinner
  exact tameAt_adopt_close (.conditional r.1 r.2) hscopes

theorem tame_carryOut (name argument : Text) :
    Tame (carryOut name argument) hand fun _ ↦ hand :=
  .ite (tame_openRegion _ _) (.ite tame_closeRegion (.ite (tame_openConditional _)
    (.ite (tame_nextBranch _ _) (.ite (tame_nextBranch _ _)
      (.ite tame_closeConditional (tame_throw trivial))))))

theorem tame_directive : Tame directive hand fun _ ↦ hand :=
  (tame_read Reading.tidy_line).bind fun _ ↦ tame_block.bind fun _ ↦
    .ite (tame_throw trivial) (tame_carryOut _ _)

theorem tame_keepComment (c : Comment) : Tame (keepComment c) hand fun _ ↦ hand :=
  (tame_createAs (tends_createComment c)).bind fun id ↦
    (tame_modifyBlock (tends_pushComment id) (fun _ ↦ rfl) fun _ ↦ rfl).bind fun _ ↦ tame_pure _

theorem tame_placeComment (m : RegionMarkers) (c : Comment) :
    Tame (placeComment m c) hand fun _ ↦ hand := by
  refine .ite ?_ (tame_keepComment c)
  split
  · exact tame_openRegion _ _
  · exact .ite tame_closeRegion (tame_keepComment c)

theorem tame_slash (m : RegionMarkers) : Tame (slash m) hand fun _ ↦ hand := by
  refine (tame_read Reading.tidy_comment?).bind fun found ↦ ?_
  split
  · exact tame_placeComment m _
  · exact (tame_push (by decide)).bind fun _ ↦ tame_pure _

/-! ## Attributes -/

theorem tame_furtherAttributes (head : ElementId) (n : Nat) :
    Tame (furtherAttributes head n) (.whole head :: hand) fun _ ↦ .whole head :: hand := by
  induction n with
  | zero => exact tame_throw trivial
  | succ n ih =>
    refine (tame_read Reading.tidy_attributeSeparator).bind fun _ ↦ .ite ?_ (tame_pure _)
    refine (tame_read (Reading.tidy_attributeUse false)).bind fun _ ↦
      (tame_create rfl).bind fun id ↦ Tame.bind (fun d ↦ ?_) fun _ ↦ ih
    exact tameAt_addChild (s := .whole id) (Stem.bears_head (.whole head))
      (List.mem_append_left _ List.mem_cons_self)

theorem tame_attributeList : Tame attributeList hand fun r ↦ .whole r.1 :: hand :=
  (tame_read (Reading.tidy_attributeUse true)).bind fun a ↦ (tame_create rfl).bind
    fun head ↦ tame_get.bind fun _ ↦ (tame_furtherAttributes _ _).bind fun _ ↦
      tame_give (fun r ↦ .whole r.1 :: hand) (head, a.data.target)

theorem tame_squareBracket : Tame squareBracket hand fun _ ↦ hand := by
  refine tame_block.bind fun _ ↦ .ite ?_ ?_
  · exact (tame_read (Reading.tidy_bracketedTrimmed _ _)).bind fun _ ↦
      (tame_pushBracketed (by decide) _ _).bind fun _ ↦ tame_pure _
  · intro d
    refine (tame_attributeList d).bind fun r d' hlist ↦ .ite ?_ ?_
    · exact tame_flushComments.bind (fun _ ↦ tame_emit [r.1]) d'
    · refine (tameAt_modifyBlock (tends_pushAttribute r.1) fun hsorted ↦ ?_).bind fun _ d' _ ↦
        tame_pure _ d'
      refine ⟨fun a ha ↦ ?_, hsorted.branches⟩
      rcases List.mem_append.mp ha with ha | ha
      · exact hsorted.attributes a ha
      · rw [List.mem_singleton.mp ha]
        exact (attributeList_eq_ok hlist).2.1

/-! ## Members -/

/-- What is held is whole, so it can be copied. -/
theorem tame_copyAs (hfirst : .whole first ∈ hand) (n : DeclaredName) :
    Tame (copyAs first n) hand fun id ↦ .whole id :: hand := by
  intro d
  refine ⟨fun id d' around h hx ↦ ⟨tends_copyAs first n h hx, fun hsorted ↦ ?_⟩,
    fun e d' around h hx ↦ ?_⟩
  · have hcopies : copiesAs first [n] d = .ok [id] d' := bind_eq_ok.mpr ⟨id, d', hx, rfl⟩
    have hspares : Spares 0 d.tree d'.tree := (gains_copiesAs (Nat.zero_le _) hcopies).1.spares
    obtain ⟨t, -, rfl⟩ := copyAs_eq_ok hx
    exact hsorted.mono hspares (List.Subset.refl _) (List.Subset.refl _)
  · unfold copyAs at hx
    split at hx
    · -- A copy is refused only where the original has a gap.
      rename_i r hcopy
      obtain ⟨y, hy, -⟩ := Outline.exists_mem_gaps_of_plant _ hcopy
      have hlt : first < d.tree.size :=
        h.made.lt_of_mem (s := .whole first) (List.mem_append_left _ hfirst)
      rw [(Outline.isWhole_iff_gaps _).mp (h.made.isWhole_outline hlt)] at hy
      cases hy
    · cases hx

theorem tame_copiesAs (hfirst : .whole first ∈ hand) (names : List DeclaredName) :
    Tame (copiesAs first names) hand fun ids ↦ ids.map .whole ++ hand := by
  induction names generalizing hand with
  | nil => exact tame_give (fun ids ↦ ids.map .whole ++ hand) []
  | cons n ns ih =>
    exact (tame_copyAs hfirst n).bind fun id ↦ (ih (List.mem_cons_of_mem _ hfirst)).bind
      fun ids d ↦ (tame_give (fun ids ↦ ids.map .whole ++ hand) (id :: ids) d).perm List.perm_middle

theorem tameAt_emitNames (hfirst : d.tree.Declares first) (isField : Bool)
    (names : List DeclaredName) :
    TameAt (emitNames isField first names) (.whole first :: hand) (fun _ ↦ hand) d :=
  (tameAt_applyHeader hfirst).bind fun _ d' _ ↦
    (tame_copiesAs List.mem_cons_self names d').bind fun ids d'' _ ↦
      (TameAt.ite (tame_emit (first :: ids) d'') ((tame_withTrailingComment (first :: ids)).bind
        (fun _ ↦ tame_emit _) d'')).perm List.perm_middle

/-- The operations that declare something. -/
theorem Declaring.tame {r : α → Signal} {p : Drafting α} (h : Declaring r p) :
    Tame p [] fun a ↦ Signal.stems (r a) := by
  induction h with
  | fails h =>
    intro d
    obtain ⟨f, hf, hd⟩ := h d
    exact tameAt_of_error hd hf
  | read hs _ ih => exact (tame_read hs).bind ih
  | value he _ ih => exact (tame_ofExcept he).bind ih
  | takeText _ ih => exact tame_takeText.bind ih
  | member he => exact tame_create_bind he fun _ _ hid ↦ tameAt_emitMember hid
  | names he => exact tame_create_bind he fun _ _ hid ↦ tameAt_emitNames hid _ _
  | closed he hs =>
    refine tame_create_bind he fun id d hid ↦ (tame_read hs d).bind fun _ d' hread ↦ ?_
    obtain ⟨c, -, rfl⟩ := read_eq_ok hread
    exact (tameAt_emitMember (d := { d with cursor := c }) hid).bind fun step d _ ↦
      tame_give Signal.stems (.done step) d
  | @opened name e ending he hfile =>
    cases ending with
    | outerEnd =>
      obtain rfl := hfile rfl
      refine (tame_createAs (tends_createAs (s := .file) rfl (fun _ ↦ rfl) fun t ↦ ?_)).bind
        fun id ↦ tame_give Signal.stems (.opened id .outerEnd)
      rw [Fits, element?_create, if_pos rfl]
    | namespaceBrace =>
      exact (tame_create (otherwise?_of_isDeclaration he)).bind
        fun id ↦ tame_give Signal.stems (.opened id .namespaceBrace)
    | typeBrace =>
      exact (tame_create (otherwise?_of_isDeclaration he)).bind
        fun id ↦ tame_give Signal.stems (.opened id .typeBrace)

theorem tame_parenthesis : Tame parenthesis [] fun _ ↦ [] := by
  refine tame_block.bind fun _ ↦ .ite ?_ (tame_takeText.bind fun t ↦ (declaring_signature t).tame)
  exact (tame_read (Reading.tidy_bracketedTrimmed _ _)).bind fun inside ↦
    (tame_modifyBlock (tends_pushTuple inside) (fun _ ↦ rfl) fun _ ↦ rfl).bind fun _ ↦ tame_pure _

theorem tame_semicolon : Tame semicolon [] fun _ ↦ [] := by
  obtain ⟨q, hq, heq⟩ := declaring_semicolon
  rw [heq]
  exact tame_takeText.bind fun text ↦ .ite (tame_pure _) (hq text).tame

/-! ## Keywords -/

theorem tame_wordEnd : Tame wordEnd [] Signal.stems := by
  refine tame_block.bind fun b ↦ ?_
  dsimp only
  split
  · exact tame_give Signal.stems (.done .more)
  · exact .ite (tame_dropText.bind fun _ ↦ declaring_openNamespace.tame)
      (.ite (tame_dropText.bind fun _ ↦ declaring_usingDirective.tame.bind fun step ↦
          tame_give Signal.stems (.done step))
        (.ite (tame_dropText.bind fun _ ↦ (declaring_openType _).tame)
          (tame_give Signal.stems (.done .more))))

/-! ## Steps -/

theorem tame_blank : Tame blank hand fun _ ↦ hand := fun d ↦ by
  refine tameAt_of_ok rfl (tends_blank · rfl) fun hsorted ↦ hsorted.of_eq ?_ ?_
  · dsimp only
    split <;> rfl
  · dsimp only
    split <;> rfl

theorem tame_questionMark : Tame questionMark hand fun _ ↦ hand := fun _ ↦
  tameAt_of_ok rfl (tends_questionMark · rfl) fun hsorted ↦ hsorted.of_eq rfl rfl

theorem tame_angleBracket : Tame angleBracket hand fun _ ↦ hand :=
  (tame_read (Reading.tidy_bracketedTrimmed _ _)).bind fun _ ↦
    (tame_pushBracketed (by decide) _ _).bind fun _ ↦ tame_pure _

theorem tame_letter (hc : isBlank c = false) : Tame (letter c) [] Signal.stems :=
  (tame_push hc).bind fun _ ↦ (tame_read Reading.tidy_peek).bind fun _ ↦
    .ite tame_wordEnd (tame_give Signal.stems (.done .more))

theorem Tame.done {x : Drafting Step} (hx : Tame x [] fun _ ↦ []) :
    Tame (done x) [] Signal.stems :=
  hx.bind fun step ↦ tame_give Signal.stems (.done step)

theorem tame_react (m : RegionMarkers) (c : Char) : Tame (react m c) [] Signal.stems := by
  refine tame_block.bind fun _ ↦ .ite (tame_slash m).done (.ite tame_directive.done
    (.ite tame_squareBracket.done (.ite tame_angleBracket.done (.ite tame_questionMark.done ?_))))
  split
  · exact tame_blank.done
  · rename_i hc
    exact .ite tame_parenthesis.done (.ite tame_semicolon.done (.ite declaring_equalsSign.tame.done
      (.ite declaring_brace.tame.done (tame_letter (by simpa using hc)))))

/-- **One character.** Whatever it starts, only foreseen faults are met. -/
theorem tame_advance (m : RegionMarkers) : Tame (advance m) [] Signal.stems := by
  intro d
  have hreact := tame_react m d.cursor.peek { d with cursor := d.cursor.advance }
  by_cases hend : endsBlock d.cursor.peek = true
  · exact tameAt_of_ok (by rw [advance, if_pos hend]) id id
  · have hadvance : advance m d =
        react m d.cursor.peek { d with cursor := d.cursor.advance } := by rw [advance, if_neg hend]
    refine ⟨fun a d' around h hx ↦ ?_, fun e d' around h hx ↦ ?_⟩
    · exact hreact.kept ⟨h.linked, h.made, h.text⟩ (hadvance.symm.trans hx)
    · exact hreact.lost ⟨h.linked, h.made, h.text⟩ (hadvance.symm.trans hx)

end Drafting

end SharpOutline
