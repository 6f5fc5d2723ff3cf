import SharpOutline.Proofs.Block.Outcomes
import SharpOutline.Proofs.Tree.JoinedStems

/-!
# What a draft holds

Everything that has been read and stands nowhere yet is held by somebody: comments and attributes
that wait, open scopes and finished elements are held by the block, and an operation may hold more
in its hand until it has placed it. `Draft.Holds` says that the tree of a draft is made of what is
held, and `Drafting.Tends` that an operation which succeeds loses nothing and keeps nothing twice.
Like the motion of the cursor, this passes through sequences and choices. The lemmas here are about
what operations consist of.

What is held elsewhere, by blocks around this one, takes no part and may be anything.
-/

namespace SharpOutline

open Relation SharpOutline.Tree

/-! ## Stems that are held -/

/-- The element hangs from the stem, in whatever tree the stem is what it is said to be. -/
def Stem.Bears (s : Stem) (p : ElementId) : Prop :=
  ∀ ⦃t : Tree⦄, t.Fits s → ReflTransGen t.Owns s.head p

variable {r : Stem} {ids : List ElementId}

theorem Stem.bears_head (s : Stem) : s.Bears s.head := fun _ _ ↦ .refl

/-- The stem of an open scope; the next branch of a conditional follows the current one. -/
def Scope.stem : Scope → Stem
  | region id => .growing id id
  | conditional head current => .growing head current

theorem Scope.bears_owner (s : Scope) : s.stem.Bears s.owner := by
  cases s <;> exact fun _ h ↦ h.1

/-- The stems that a block holds. -/
def Block.stems (b : Block) : List Stem :=
  b.comments.map .note ++ (b.attributes.map .whole ++
    (b.scopes.map Scope.stem ++ b.elements.map .whole))

theorem Block.stem_mem_stems {b : Block} {s : Scope} (hs : s ∈ b.scopes) : s.stem ∈ b.stems := by
  simp only [Block.stems, List.mem_append]
  exact .inr (.inr (.inl (List.mem_map_of_mem hs)))

/-- An edit puts a stem beneath an element, at the end of one of its lists. -/
structure PutsBeneath (p : ElementId) (slot : Slot)
    (change : ElementId → Tree → Except Refusal Tree) : Prop where
  linked : ∀ {x : ElementId} {t u : Tree}, t.Linked → change x t = .ok u → u.Linked
  eq_appended : ∀ {s : Stem} {t u : Tree} {stems : List Stem}, t.MadeOf (s :: stems) →
    change s.head t = .ok u → u = t.appended p slot s.head

theorem putsBeneath_addChild (p : ElementId) :
    PutsBeneath p .children fun c t ↦ t.addChild p c where
  linked h hu := h.apply (e := .addChild p _) hu
  eq_appended h hu := h.eq_appended (e := .addChild p _) rfl rfl hu

theorem putsBeneath_addHeaderComment (p : ElementId) :
    PutsBeneath p .headerComments fun c t ↦ t.addHeaderComment p c where
  linked h hu := h.apply (e := .addHeaderComment p _) hu
  eq_appended h hu := h.eq_appended (e := .addHeaderComment p _) rfl rfl hu

theorem putsBeneath_addAttribute (p : ElementId) :
    PutsBeneath p .attributes fun a t ↦ t.addAttribute p a where
  linked h hu := h.apply (e := .addAttribute p _) hu
  eq_appended h hu := h.eq_appended (e := .addAttribute p _) rfl rfl hu

/-- Stems are put beneath an element one after the other, if each of them can be. -/
theorem Tree.MadeOf.foldlM_eq {t : Tree} {p : ElementId}
    {change : ElementId → Tree → Except Refusal Tree} (slot : Slot) {stems : List Stem}
    {f : ElementId → Stem} {r : Stem} {ids : List ElementId}
    (hf : ∀ id, (f id).head = id) (hc : PutsBeneath p slot change) (hr : r ∈ stems) (hp : r.Bears p)
    (hlinked : t.Linked) (h : t.MadeOf (ids.map f ++ stems))
    (hchange : ∀ {u x others}, x ∈ ids → u.Linked → u.MadeOf (f x :: others) → r ∈ others →
      (∀ y, u.kind? y = t.kind? y) → change x u = .ok (u.appended p slot x)) :
    ids.foldlM (fun u x ↦ change x u) t = .ok (t.adopted p slot ids) ∧
      (t.adopted p slot ids).Linked ∧ (t.adopted p slot ids).MadeOf stems := by
  induction ids generalizing t with
  | nil => exact ⟨rfl, hlinked, h⟩
  | cons x ids ih =>
    have hmem : r ∈ ids.map f ++ stems := List.mem_append_right _ hr
    have hone := hchange List.mem_cons_self hlinked h hmem fun _ ↦ rfl
    have hreached := hp (h.fits (List.mem_cons_of_mem _ hmem))
    have hne : p ≠ x := by
      rintro rfl
      refine h.not_reached hmem hreached ?_
      rw [hf]
    have hput : (t.appended p slot x).MadeOf (ids.map f ++ stems) := by
      have happended : (t.appended p slot (f x).head).MadeOf (ids.map f ++ stems) :=
        h.appended hmem hreached
      rwa [hf] at happended
    have hkind (y : Nat) : (t.appended p slot x).kind? y = t.kind? y := kind?_appended hne y
    rw [List.foldlM_cons, hone]
    exact ih (hc.linked hlinked hone) hput fun hx hlinked hmade hr hsame ↦
      hchange (List.mem_cons_of_mem x hx) hlinked hmade hr fun y ↦ (hsame y).trans (hkind y)

/-- An element of one stem does not hang from others that are listed beside it. -/
theorem Tree.MadeOf.not_reached_of_mem {t : Tree} {stems : List Stem} {f : ElementId → Stem}
    {p y : Nat} (hf : ∀ id, (f id).head = id) (h : t.MadeOf (ids.map f ++ stems)) (hr : r ∈ stems)
    (hp : ReflTransGen t.Owns r.head p) (hy : y ∈ ids) : ¬ReflTransGen t.Owns y p := by
  intro hyp
  have hmem : y ∈ (ids.map f).map Stem.head := by
    rw [List.map_map]
    exact List.mem_map.mpr ⟨y, hy, hf y⟩
  have hnodup := h.forest.nodup
  rw [List.map_append] at hnodup
  refine (List.nodup_append.mp hnodup).2.2 y hmem r.head (List.mem_map_of_mem hr) ?_
  have hheads := h.forest
  rw [List.map_append] at hheads
  exact hheads.head_unique (List.mem_append_left _ hmem)
    (List.mem_append_right _ (List.mem_map_of_mem hr)) hyp hp

/-! ## Drafts -/

/-- The text is empty or starts with something else than a blank. -/
def Text.Begun (t : Text) : Prop := ∀ c ∈ t.head?, isBlank c = false

namespace Text.Begun

variable {t u : Text}

theorem nil : Begun [] := by simp [Begun]

theorem cons {c : Char} (h : isBlank c = false) : Begun (c :: t) := by
  simpa [Begun] using h

theorem append (h : Begun t) (h' : Begun u) : Begun (t ++ u) := by
  cases t with
  | nil => exact h'
  | cons c t => exact cons (h c rfl)

theorem space (h : Begun t) :
    Begun (if t.isEmpty || t.getLast? == some ' ' then t else t ++ [' ']) := by
  cases t with
  | nil => exact nil
  | cons c t =>
    split
    · exact h
    · exact cons (h c rfl)

theorem trimEnd (h : Begun t) : Begun (Text.trimEnd t) := by
  have hprefix : Text.trimEnd t <+: t := by
    rw [← List.reverse_suffix, Text.trimEnd, List.reverse_reverse]
    exact List.dropWhile_suffix isBlank
  obtain ⟨u, hu⟩ := hprefix
  intro c hc
  refine h c ?_
  rw [← hu, List.head?_append, Option.mem_def.mp hc]
  rfl

end Text.Begun

/-- The tree is made of what is in the hand, what the block holds and what is held around it. A text
that has begun does not start with a blank. -/
structure Draft.Holds (d : Draft) (hand around : List Stem) : Prop where
  linked : d.tree.Linked
  made : d.tree.MadeOf (hand ++ (d.block.stems ++ around))
  text : Text.Begun d.block.text

namespace Draft.Holds

variable {d : Draft} {hand hand' extra around : List Stem} {s : Stem}

theorem perm (h : d.Holds hand around) (hp : hand.Perm hand') : d.Holds hand' around :=
  ⟨h.linked, h.made.perm (hp.append_right _), h.text⟩

theorem weaken (h : d.Holds (s :: hand) around) : d.Holds (.whole s.head :: hand) around :=
  ⟨h.linked, h.made.weaken, h.text⟩

theorem weaken_map {f : ElementId → Stem} (hf : ∀ id, (f id).head = id) {ids : List ElementId}
    (h : d.Holds (ids.map f ++ hand) around) : d.Holds (ids.map .whole ++ hand) around := by
  induction ids generalizing hand with
  | nil => exact h
  | cons id ids ih =>
    have h' : d.Holds (.whole id :: (ids.map f ++ hand)) around := hf id ▸ h.weaken
    have h'' : d.Holds (ids.map f ++ .whole id :: hand) around := h'.perm List.perm_middle.symm
    exact (ih h'').perm List.perm_middle

/-- What is in the hand may be counted among what is held around the block. -/
theorem aside_iff : d.Holds (hand ++ extra) around ↔ d.Holds hand (extra ++ around) := by
  have hp : ((hand ++ extra) ++ (d.block.stems ++ around)).Perm
      (hand ++ (d.block.stems ++ (extra ++ around))) := by
    rw [List.append_assoc]
    exact (List.perm_append_comm_assoc _ _ _).append_left hand
  exact ⟨fun h ↦ ⟨h.linked, h.made.perm hp, h.text⟩,
    fun h ↦ ⟨h.linked, h.made.perm hp.symm, h.text⟩⟩

end Draft.Holds

namespace Drafting

variable {α β : Type}

/-- With the stems `hand` in the hand, the operation leaves the stems `out` there if it succeeds. -/
def Tends (x : Drafting α) (hand : List Stem) (out : α → List Stem) : Prop :=
  ∀ ⦃d a d' around⦄, d.Holds hand around → x d = .ok a d' → d'.Holds (out a) around

variable {x y : Drafting α} {f : α → Drafting β} {hand hand' : List Stem}
  {mid out : α → List Stem} {out' : β → List Stem}

variable {s : Stem} {ids : List ElementId} {k : Kind} {scope : Scope} {scopes : List Scope}

theorem tends_pure (a : α) : Tends (pure a) hand fun _ ↦ hand := by
  intro d b d' around h hx
  cases hx
  exact h

theorem tends_throw (e : Fault) : Tends (throw e) hand out := fun _ _ _ _ _ h ↦ by cases h

theorem Tends.bind (hx : Tends x hand mid) (hf : ∀ a, Tends (f a) (mid a) out') :
    Tends (x >>= f) hand out' := by
  intro d b d'' around h hb
  obtain ⟨a, d', ha, hb⟩ := bind_eq_ok.mp hb
  exact hf a (hx h ha) hb

theorem tends_read (r : Reading α) : Tends (read r) hand fun _ ↦ hand := by
  intro d a d' around h ha
  obtain ⟨c, -, rfl⟩ := read_eq_ok ha
  exact ⟨h.linked, h.made, h.text⟩

theorem tends_ofExcept (e : Except Fault α) : Tends (ofExcept e) hand fun _ ↦ hand := by
  cases e with
  | error f => exact tends_throw f
  | ok a => exact tends_pure a

theorem tends_modifyBlock {f : Block → Block} (hstems : ∀ b, (f b).stems = b.stems)
    (htext : ∀ b : Block, Text.Begun b.text → Text.Begun (f b).text) :
    Tends (modifyBlock f) hand fun _ ↦ hand := by
  intro d a d' around h ha
  cases ha
  refine ⟨h.linked, ?_, htext _ h.text⟩
  rw [hstems]
  exact h.made

theorem tends_moveStems {f : Block → Block}
    (hstems : ∀ b, (hand ++ b.stems).Perm (hand' ++ (f b).stems))
    (htext : ∀ b, (f b).text = b.text) : Tends (modifyBlock f) hand fun _ ↦ hand' := by
  intro d a d' around h ha
  cases ha
  refine ⟨h.linked, h.made.perm ?_, htext d.block ▸ h.text⟩
  rw [← List.append_assoc, ← List.append_assoc]
  exact (hstems d.block).append_right around

theorem tends_push {c : Char} (hc : isBlank c = false) : Tends (push c) hand fun _ ↦ hand :=
  tends_modifyBlock (f := fun b ↦ { b with text := b.text ++ [c] }) (fun _ ↦ rfl)
    fun _ h ↦ h.append (.cons hc)

theorem tends_pushBracketed {opener : Char} (ho : isBlank opener = false) (closer : Char)
    (inside : Text) : Tends (pushBracketed opener closer inside) hand fun _ ↦ hand := by
  refine tends_modifyBlock (f := fun b ↦
    { b with text := Text.trimEnd b.text ++ opener :: inside ++ [closer] }) (fun _ ↦ rfl)
    fun b h ↦ ?_
  rw [List.append_assoc]
  exact h.trimEnd.append (.cons ho)

theorem tends_dropText :
    Tends (modifyBlock fun b ↦ { b with text := [] }) hand fun _ ↦ hand :=
  tends_modifyBlock (f := fun b ↦ { b with text := [] }) (fun _ ↦ rfl) fun _ _ ↦ .nil

/-! ### New elements -/

variable {name : Text} {e : Element}

/-- A new element, of which `s` is to be said. -/
theorem tends_createAs (he : e.otherwise? = none) {s : ElementId → Stem}
    (hs : ∀ id, (s id).head = id)
    (hfits : ∀ t : Tree, (t.create name e).Fits (s t.size)) :
    Tends (create name e) hand fun id ↦ s id :: hand := by
  intro d a d' around h ha
  cases ha
  exact ⟨h.linked.create name e, h.made.create he (hs _) (hfits _), h.text⟩

theorem tends_create (he : e.otherwise? = none) :
    Tends (create name e) hand fun id ↦ .whole id :: hand :=
  tends_createAs (s := .whole) he (fun _ ↦ rfl) fun _ ↦ trivial

theorem tends_createGrowing (he : e.otherwise? = none) :
    Tends (create name e) hand fun id ↦ .growing id id :: hand := by
  refine tends_createAs (s := fun id ↦ .growing id id) he (fun _ ↦ rfl) fun t ↦ ⟨.refl, ?_⟩
  rw [otherwise?_eq, element?_create, if_pos rfl, Option.bind_some, he]

/-! ### Placing -/

variable {p : ElementId} {slot : Slot} {change : ElementId → Tree → Except Refusal Tree}
  {r : Stem} {d d' : Draft} {a : Unit} {around : List Stem}

/-- Something in the hand is put beneath an element that hangs from another stem. -/
theorem holds_edit (hc : PutsBeneath p slot change) (h : d.Holds (s :: hand) around)
    (hr : r ∈ hand ++ (d.block.stems ++ around)) (hp : r.Bears p)
    (hx : edit (change s.head) d = .ok a d') :
    d'.Holds hand around ∧ d' = { d with tree := d.tree.appended p slot s.head } := by
  obtain ⟨t, ht, rfl⟩ := edit_eq_ok.mp hx
  have heq := hc.eq_appended h.made ht
  have hmade : (d.tree.appended p slot s.head).MadeOf (hand ++ (d.block.stems ++ around)) :=
    h.made.appended hr (hp (h.made.fits (List.mem_cons_of_mem _ hr)))
  exact ⟨⟨hc.linked h.linked ht, heq ▸ hmade, h.text⟩, by rw [heq]⟩

theorem holds_editAll (hc : PutsBeneath p slot change) (hp : r.Bears p)
    (h : d.Holds (ids.map .whole ++ hand) around) (hr : r ∈ hand ++ (d.block.stems ++ around))
    (hx : editAll change ids d = .ok a d') :
    d'.Holds hand around ∧ d' = { d with tree := d.tree.adopted p slot ids } := by
  induction ids generalizing d with
  | nil =>
    cases hx
    exact ⟨h, rfl⟩
  | cons id ids ih =>
    obtain ⟨b, e, hone, hrest⟩ := bind_eq_ok.mp hx
    have hr' : r ∈ (ids.map .whole ++ hand) ++ (d.block.stems ++ around) := by
      rw [List.append_assoc]
      exact List.mem_append_right _ hr
    obtain ⟨he, rfl⟩ := holds_edit hc (s := .whole id) h hr' hp hone
    exact ih he hr hrest

theorem tends_edit (hc : PutsBeneath p slot change) (hr : r ∈ hand) (hp : r.Bears p) :
    Tends (edit (change s.head)) (s :: hand) fun _ ↦ hand :=
  fun _ _ _ _ h hx ↦ (holds_edit hc h (List.mem_append_left _ hr) hp hx).1

theorem tends_editAll (hc : PutsBeneath p slot change) (hr : r ∈ hand) (hp : r.Bears p)
    (ids : List ElementId) :
    Tends (editAll change ids) (ids.map .whole ++ hand) fun _ ↦ hand :=
  fun _ _ _ _ h hx ↦ (holds_editAll hc hp h (List.mem_append_left _ hr) hx).1

theorem tends_pushElement (id : ElementId) :
    Tends (modifyBlock fun b ↦ { b with elements := b.elements ++ [id] }) (.whole id :: hand)
      fun _ ↦ hand := by
  refine tends_moveStems (fun b ↦ List.perm_iff_count.mpr fun s ↦ ?_) fun _ ↦ rfl
  simp only [Block.stems, List.count_append, List.map_append, List.map_cons, List.map_nil,
    List.count_cons, List.count_nil]
  omega

theorem tends_takeComments :
    Tends takeComments hand fun ids ↦ ids.map .whole ++ hand := by
  intro d ids d' around h hx
  cases hx
  have hperm : (hand ++ (d.block.stems ++ around)).Perm
      ((d.block.comments.map .note ++ hand) ++
        (({ d.block with comments := [] } : Block).stems ++ around)) := by
    rw [List.perm_iff_count]
    intro s
    simp only [Block.stems, List.count_append, List.map_nil, List.count_nil]
    omega
  have h' : Draft.Holds { d with block := { d.block with comments := [] } }
      (d.block.comments.map .note ++ hand) around := ⟨h.linked, h.made.perm hperm, h.text⟩
  exact h'.weaken_map fun _ ↦ rfl

theorem tends_takeAttributes :
    Tends takeAttributes hand fun ids ↦ ids.map .whole ++ hand := by
  intro d ids d' around h hx
  cases hx
  refine ⟨h.linked, h.made.perm ?_, h.text⟩
  rw [List.perm_iff_count]
  intro s
  simp only [Block.stems, List.count_append, List.map_nil, List.count_nil]
  omega

theorem tends_applyHeader_head (s : Stem) :
    Tends (applyHeader s.head) (s :: hand) fun _ ↦ s :: hand :=
  tends_takeComments.bind fun _ ↦ (tends_editAll (putsBeneath_addHeaderComment s.head)
    List.mem_cons_self s.bears_head _).bind fun _ ↦
      tends_takeAttributes.bind fun _ ↦ tends_editAll (putsBeneath_addAttribute s.head)
        List.mem_cons_self s.bears_head _

theorem tends_applyHeader (id : ElementId) :
    Tends (applyHeader id) (.whole id :: hand) fun _ ↦ .whole id :: hand :=
  tends_applyHeader_head (.whole id)

/-- The waiting comments are put beneath an element that hangs from one of the open scopes. -/
theorem holds_adoptComments (hp : r.Bears p) (h : d.Holds hand around)
    (hr : r ∈ d.block.scopes.map Scope.stem) (hx : adoptComments p d = .ok a d') :
    d'.Holds hand around ∧ d' = { d with
      tree := d.tree.adopted p .children d.block.comments
      block := { d.block with comments := [] } } := by
  obtain ⟨ids, d₁, hids, hx⟩ := bind_eq_ok.mp hx
  have h₁ := tends_takeComments h hids
  cases hids
  refine holds_editAll (putsBeneath_addChild p) hp h₁ ?_ hx
  refine List.mem_append_right _ (List.mem_append_left _ ?_)
  simp only [Block.stems, List.mem_append]
  exact .inr (.inr (.inl hr))

/-- The tree in which an element has got the comments and attributes that waited. -/
def headed (t : Tree) (x : ElementId) (b : Block) : Tree :=
  (t.adopted x .headerComments b.comments).adopted x .attributes b.attributes

theorem madeOf_waiting {x : ElementId} (h : d.Holds [.whole x] around) : d.tree.MadeOf
    (d.block.comments.map .note ++ (d.block.attributes.map .whole ++ .whole x ::
      (d.block.scopes.map Scope.stem ++ d.block.elements.map .whole ++ around))) := by
  refine h.made.perm ?_
  rw [List.perm_iff_count]
  intro s
  simp only [Block.stems, List.count_append, List.count_cons, List.count_nil]
  omega

/-- An element that may have comments gets all that wait. -/
theorem headerComments_eq {x : ElementId} (h : d.Holds [.whole x] around)
    (hx : d.tree.kind? x = some k) (hcommentable : k.isCommentable = true) :
    d.block.comments.foldlM (fun t c ↦ t.addHeaderComment x c) d.tree =
        .ok (d.tree.adopted x .headerComments d.block.comments) ∧
      (d.tree.adopted x .headerComments d.block.comments).Linked ∧
      (d.tree.adopted x .headerComments d.block.comments).MadeOf
        (.whole x :: (d.block.attributes.map .whole ++
          (d.block.scopes.map Scope.stem ++ d.block.elements.map .whole ++ around))) ∧
      ∀ y, (d.tree.adopted x .headerComments d.block.comments).kind? y = d.tree.kind? y := by
  have hmade := (madeOf_waiting h).perm (List.perm_middle.append_left _)
  have hnot : x ∉ d.block.comments := fun hx ↦
    hmade.not_reached_of_mem (f := .note) (fun _ ↦ rfl) List.mem_cons_self .refl hx .refl
  obtain ⟨hcomments, hlinked, hmade⟩ := hmade.foldlM_eq .headerComments (f := .note)
    (fun _ ↦ rfl) (putsBeneath_addHeaderComment x) List.mem_cons_self
    (Stem.bears_head (.whole x)) h.linked fun {u c others} _ _ hu _ hkind ↦ by
      obtain ⟨comment, hc⟩ := hu.fits List.mem_cons_self
      obtain ⟨n, hn, he⟩ := Option.map_eq_some_iff.mp hc
      refine hu.addHeaderComment_eq ((hkind x).trans hx) hcommentable ?_
      rw [kind?, Stem.head, hn, Option.map_some, Node.kind, he]
      rfl
  refine ⟨hcomments, hlinked, hmade, fun y ↦ ?_⟩
  rw [kind?, get?_adopted hnot, Option.map_map, kind?]
  exact Option.map_congr fun n _ ↦ kind_adopting

/-- A new element that may have comments and attributes gets all that wait. -/
theorem applyHeader_eq {x : ElementId} (h : d.Holds [.whole x] around)
    (hx : d.tree.kind? x = some k) (hcommentable : k.isCommentable = true)
    (hattributable : k.isAttributable = true)
    (hattributes : ∀ a ∈ d.block.attributes, d.tree.kind? a = some .attributeUse) :
    applyHeader x d = .ok () { d with
      tree := headed d.tree x d.block
      block := { d.block with comments := [], attributes := [] } } := by
  obtain ⟨hcomments, hlinked, hmade, hkind⟩ := headerComments_eq h hx hcommentable
  obtain ⟨happlied, -, -⟩ := (hmade.perm List.perm_middle.symm).foldlM_eq .attributes (f := .whole)
    (fun _ ↦ rfl) (putsBeneath_addAttribute x) List.mem_cons_self
    (Stem.bears_head (.whole x)) hlinked fun {u a others} ha _ hu _ hsame ↦
      hu.addAttribute_eq (((hsame x).trans (hkind x)).trans hx) hattributable
        (((hsame a).trans (hkind a)).trans (hattributes a ha))
  refine bind_eq_ok.mpr ⟨d.block.comments, _, rfl, ?_⟩
  refine bind_eq_ok.mpr ⟨(), _, editAll_eq_ok.mpr ⟨_, hcomments, rfl⟩, ?_⟩
  refine bind_eq_ok.mpr ⟨d.block.attributes, _, rfl, ?_⟩
  exact editAll_eq_ok.mpr ⟨_, happlied, rfl⟩

/-! ### Scopes, comments and attributes -/

/-- A new scope takes its element. -/
theorem tends_pushScope {id : ElementId} (hscope : scope.stem = .growing id id) :
    Tends (modifyBlock fun b ↦ { b with scopes := scope :: b.scopes }) (.growing id id :: hand)
      fun _ ↦ hand := by
  refine tends_moveStems (fun b ↦ List.perm_iff_count.mpr fun s ↦ ?_) fun _ ↦ rfl
  simp only [Block.stems, hscope, List.count_append, List.map_cons, List.count_cons]
  omega

/-- The innermost scope gives its element back. -/
theorem holds_popScope (h : d.Holds hand around) (hscopes : d.block.scopes = scope :: scopes) :
    Draft.Holds { d with block := { d.block with scopes := d.block.scopes.tail } }
      (scope.stem :: hand) around := by
  refine ⟨h.linked, h.made.perm ?_, h.text⟩
  rw [List.perm_iff_count]
  intro s
  simp only [Block.stems, hscopes, List.count_append, List.map_cons, List.count_cons,
    List.tail_cons]
  omega

/-- A new branch of the innermost conditional takes the place of the current one. -/
theorem holds_addBranch {condition : Option Text} {head current : ElementId}
    {step : Step} (h : d.Holds hand around)
    (hscopes : d.block.scopes = .conditional head current :: scopes)
    (hx : (do
      let branch ← createBranch condition
      edit fun t ↦ t.setOtherwise current (some branch)
      modifyBlock fun b ↦ { b with scopes := .conditional head branch :: b.scopes.tail }
      return Step.more : Drafting Step) d = .ok step d') : d'.Holds hand around := by
  obtain ⟨branch, d₁, hcreate, hx⟩ := bind_eq_ok.mp hx
  have h₁ := tends_createGrowing (e := .conditionDirective condition none) rfl h hcreate
  obtain ⟨⟨⟩, d₂, hset, hx⟩ := bind_eq_ok.mp hx
  obtain ⟨t, ht, rfl⟩ := edit_eq_ok.mp hset
  replace hx := of_modifyBlock_bind hx
  cases hx
  have hscopes₁ : d₁.block.scopes = .conditional head current :: scopes := by
    cases hcreate
    exact hscopes
  refine ⟨h₁.linked.apply (e := .setOtherwise current (some branch)) ht, ?_, h₁.text⟩
  have hperm : ((.growing branch branch :: hand) ++ (d₁.block.stems ++ around)).Perm
      (.growing branch branch :: .growing head current :: (hand ++
        (({ d₁.block with scopes := scopes } : Block).stems ++ around))) := by
    rw [List.perm_iff_count]
    intro s
    simp only [Block.stems, hscopes₁, Scope.stem, List.count_append, List.map_cons,
      List.count_cons]
    omega
  refine ((h₁.made.perm hperm).setOtherwise ht).perm ?_
  rw [List.perm_iff_count]
  intro s
  simp only [Block.stems, hscopes₁, Scope.stem, List.count_append, List.map_cons,
    List.count_cons, List.tail_cons]
  omega

theorem tends_createComment (c : Comment) :
    Tends (create [] (.comment c)) hand fun id ↦ .note id :: hand := by
  refine tends_createAs (s := .note) rfl (fun _ ↦ rfl) fun t ↦ ⟨c, ?_⟩
  rw [element?_create, if_pos rfl]

theorem tends_pushComment (id : ElementId) :
    Tends (modifyBlock fun b ↦ { b with comments := b.comments ++ [id] }) (.note id :: hand)
      fun _ ↦ hand := by
  refine tends_moveStems (fun b ↦ List.perm_iff_count.mpr fun s ↦ ?_) fun _ ↦ rfl
  simp only [Block.stems, List.count_append, List.map_append, List.map_cons, List.map_nil,
    List.count_cons, List.count_nil]
  omega

theorem tends_pushAttribute (id : ElementId) :
    Tends (modifyBlock fun b ↦ { b with attributes := b.attributes ++ [id] }) (.whole id :: hand)
      fun _ ↦ hand := by
  refine tends_moveStems (fun b ↦ List.perm_iff_count.mpr fun s ↦ ?_) fun _ ↦ rfl
  simp only [Block.stems, List.count_append, List.map_append, List.map_cons, List.map_nil,
    List.count_cons, List.count_nil]
  omega

/-! ### Copies -/

theorem kind_renamed (e : Element) (n : DeclaredName) : (e.renamed n).2.kind = e.kind := by
  cases e <;> rfl

theorem otherwise?_renamed (e : Element) (n : DeclaredName) :
    (e.renamed n).2.otherwise? = e.otherwise? := by
  cases e <;> rfl

theorem tends_copyAs (first : ElementId) (n : DeclaredName) :
    Tends (copyAs first n) hand fun id ↦ .whole id :: hand := by
  intro d id d' around h hx
  obtain ⟨t, hcopy, rfl⟩ := copyAs_eq_ok hx
  refine ⟨?_, ?_, h.text⟩
  · refine (h.linked.copy hcopy).congr (size_modify _ _ _)
      (fun x ↦ kind?_modify t id x fun k ↦ kind_renamed k.element n)
      (fun x ↦ parent?_modify t id x fun _ ↦ rfl) (fun x s ↦ ?_) rfl
    exact listOf_modify t id x s fun _ s ↦ by cases s <;> rfl
  · exact (h.made.copy hcopy).modify (fun _ s ↦ by cases s <;> rfl) (fun _ ↦ rfl)
      fun k ↦ otherwise?_renamed k.element n

/-! ### Texts -/

/-- The elements of a tuple type are set apart from the word before them. -/
theorem tends_pushTuple (inside : Text) :
    Tends (modifyBlock fun b ↦ { b with
        text := (if b.text.isEmpty || b.text.getLast? == some ' ' then b.text else b.text ++ [' '])
          ++ '(' :: inside ++ [')'] }) hand fun _ ↦ hand := by
  refine tends_modifyBlock (f := fun b ↦ { b with
      text := (if b.text.isEmpty || b.text.getLast? == some ' ' then b.text else b.text ++ [' '])
        ++ '(' :: inside ++ [')'] }) (fun _ ↦ rfl) fun b h ↦ ?_
  rw [List.append_assoc]
  exact h.space.append (.cons (by decide))

theorem tends_blank : Tends blank hand fun _ ↦ hand := by
  refine Tends.bind (tends_modifyBlock (f := fun b ↦ if b.text.isEmpty ||
    b.text.getLast? == some ' ' then b else { b with text := b.text ++ [' '] }) ?_ ?_) fun _ ↦
    tends_pure _
  · intro b
    split <;> rfl
  · intro b h
    have hspace := h.space
    split at hspace
    · rwa [if_pos ‹_›]
    · rwa [if_neg ‹_›]

theorem tends_questionMark : Tends questionMark hand fun _ ↦ hand :=
  Tends.bind (tends_modifyBlock (f := fun b ↦ { b with text := Text.trimEnd b.text ++ ['?'] })
    (fun _ ↦ rfl) fun _ h ↦ h.trimEnd.append (.cons (by decide))) fun _ ↦ tends_pure _

/-! ### The end of a block -/

theorem holds_finishBlock (h : d.Holds [] around) (hx : finishBlock d = .ok ids d') :
    d'.tree.Linked ∧ d'.tree.MadeOf (ids.map .whole ++ around) := by
  obtain ⟨-, hscopes, hattributes, rfl, htree, -⟩ := finishBlock_eq_ok hx
  rw [htree]
  refine ⟨h.linked, ?_⟩
  -- the comments are only known to be comments as long as they wait
  have h' : Draft.Holds { d with block := {} } (d.block.comments.map .note ++
      d.block.elements.map .whole) around := by
    have hmade := h.made
    simp only [Block.stems, hscopes, hattributes, List.map_nil, List.nil_append] at hmade
    refine ⟨h.linked, ?_, .nil⟩
    simpa only [Block.stems, List.map_nil, List.nil_append] using hmade
  refine (h'.weaken_map fun _ ↦ rfl).made.perm ?_
  simp only [Block.stems, List.map_append, List.map_nil, List.nil_append]
  exact List.perm_append_comm.append_right around

/-! ### Owners of blocks -/

/-- The stem of an element whose block is read; the namespace of a whole file is known as such. -/
def ownerStem (owner : ElementId) : Ending → Stem
  | .outerEnd => .file owner
  | _ => .whole owner

@[simp] theorem head_ownerStem (owner : ElementId) (ending : Ending) :
    (ownerStem owner ending).head = owner := by
  cases ending <;> rfl

/-- What is in the hand after a character has been read. -/
def Signal.stems : Signal → List Stem
  | .done _ => []
  | .opened owner ending => [ownerStem owner ending]

end Drafting

end SharpOutline
