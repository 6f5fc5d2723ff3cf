import SharpOutline.Proofs.Block.Rows

/-!
# What a step says that it has added

A step says how many elements it has added to the rows of its block. It leaves out comments that
have waited and become elements where a scope is opened or left, or before an attribute that stands
alone: these settle there without being counted. `Draft.Reports` keeps the two apart, and
`Drafting.agrees_advance` shows for every character that this is all that happens in the rows.
-/

namespace SharpOutline

open SharpOutline.Tree

/-- How many elements a step says that it has added. -/
def Step.count : Step → Nat
  | more => 0
  | produced n => n
  | finished => 0

namespace Draft

variable {d d' d'' : Draft} {c : Cursor} {text : Text} {step : Step} {signal : Signal}
  {ids : List ElementId} {around : List Stem} {n x : Nat} {w : Bool}

theorem Holds.lt_of_mem_comments {hand : List Stem} (h : d.Holds hand around)
    (hx : x ∈ d.block.comments) : x < d.tree.size :=
  h.made.lt_of_mem (s := .note x) (by simp [Block.stems, hx])

/-- All that has happened in the rows of a block: comments that had waited have settled at one
place, if `w` lets them, and others were produced at another one. A scope that was opened has
nothing in its row. -/
structure Adds (w : Bool) (d : Draft) (p q : Option ElementId) (settled produced : List ElementId)
    (d' : Draft) : Prop where
  size : d.tree.size ≤ d'.tree.size
  settled_at : p ∈ d.block.places
  produced_at : q ∈ d.block.places
  waited : settled = [] ∨ w = true ∧ settled = d.block.comments
  apart : ∀ x ∈ produced, x ∉ d.block.comments
  row : ∀ {r}, IsPlaceBefore d.tree.size r → d'.row r =
    d.row r ++ ((if r = p then settled else []) ++ if r = q then produced else [])
  scopes : ∀ s ∈ d'.block.scopes,
    s ∈ d.block.scopes ∨ d.tree.size ≤ s.owner ∧ d'.row (some s.owner) = []

/-- The step has added as many elements as it says, apart from comments that have settled. -/
def Reports (w : Bool) (d : Draft) (step : Step) (d' : Draft) : Prop :=
  ∃ p q settled produced, d.Adds w p q settled produced d' ∧ produced.length = step.count

/-- What has become of the rows where a character was read. Where it opens a block, they are as
before. -/
def Agrees (w : Bool) (d : Draft) : Signal → Draft → Prop
  | .done step, d' => d.Reports w step d'
  | .opened owner _, d' => owner = d.tree.size ∧ d.Receives d.tree.size [] d'

theorem Receives.mono {m : Nat} (h : d.Receives n ids d') (hm : m ≤ n) : d.Receives m ids d' :=
  ⟨h.size, h.scopes, fun hp ↦ h.row fun o ho ↦ Nat.lt_of_lt_of_le (hp o ho) hm⟩

theorem Receives.reports (h : d.Receives d.tree.size ids d')
    (hids : ∀ x ∈ ids, x ∉ d.block.comments) (hcount : ids.length = step.count) :
    d.Reports w step d' := by
  refine ⟨none, ownerOf d.block.scopes, [], ids, ?_, hcount⟩
  refine ⟨h.size, List.mem_cons_self, Block.ownerOf_mem_places (List.Subset.refl _), .inl rfl, hids,
    fun hr ↦ ?_, fun s hs ↦ .inl ?_⟩
  · rw [h.row hr, ite_self, List.nil_append]
  · rwa [← h.scopes]

theorem Receives.reports_nil (h : d.Receives d.tree.size [] d') (hcount : 0 = step.count) :
    d.Reports w step d' :=
  h.reports (by simp) hcount

/-- Rows in which nothing has happened before. -/
theorem Receives.trans_produces (h : d.Receives d.tree.size [] d') (h' : d'.Produces x step d'') :
    d.Produces x step d'' := by
  obtain ⟨ids, hstep, hids, hreceives⟩ := h'
  exact ⟨ids, hstep, fun y hy ↦ (hids y hy).imp_right h.size.trans,
    h.trans (hreceives.mono h.size)⟩

theorem Produces.reports (h : d.Produces x step d') (hd : d.Holds [] around)
    (hx : d.tree.size ≤ x) : d.Reports w step d' := by
  obtain ⟨ids, rfl, hids, hreceives⟩ := h
  refine hreceives.reports (fun y hy hcomment ↦ ?_) rfl
  have hlt := hd.lt_of_mem_comments hcomment
  rcases hids y hy with rfl | hle
  · omega
  · omega

/-- What has been done to the text before does not matter. -/
theorem Agrees.of_text (c : Cursor) (text : Text)
    (h : Agrees w ⟨c, d.tree, { d.block with text := text }⟩ signal d') :
    d.Agrees w signal d' := by
  cases signal with
  | done step =>
    obtain ⟨p, q, settled, produced, hadds, hcount⟩ := h
    exact ⟨p, q, settled, produced, ⟨hadds.size, hadds.settled_at, hadds.produced_at, hadds.waited,
      hadds.apart, hadds.row, hadds.scopes⟩, hcount⟩
  | opened owner ending =>
    obtain ⟨howner, hreceives⟩ := h
    exact ⟨howner, hreceives.size, hreceives.scopes, hreceives.row⟩

end Draft

namespace Drafting

open Draft

variable {α β : Type} {r : α → Signal} {p p' : Drafting α} {q : α → Drafting β} {d d' : Draft}
  {around : List Stem} {step : Step} {w : Bool}

/-- The signal of the operation tells what it has done to the rows of the block. -/
def Tells (w : Bool) (r : α → Signal) (p : Drafting α) : Prop :=
  ∀ ⦃d a d' around⦄, d.Holds [] around → p d = .ok a d' → d.Agrees w (r a) d'

theorem tells_throw (f : Fault) : Tells w r (throw f) := fun _ _ _ _ _ h ↦ by cases h

theorem tells_pure {a : α} (ha : r a = .done .more) : Tells w r (pure a) := by
  intro d b d' around _ hx
  cases hx
  rw [ha]
  exact (Receives.refl _ d).reports_nil rfl

theorem Tells.ite {c : Prop} [Decidable c] (hp : Tells w r p) (hp' : Tells w r p') :
    Tells w r (if c then p else p') := by
  split
  · exact hp
  · exact hp'

theorem Tells.block_bind {q : Block → Drafting α} (hq : ∀ b, Tells w r (q b)) :
    Tells w r (block >>= q) := fun d _ _ _ h hx ↦ hq d.block h hx

theorem Tells.done {x : Drafting Step} (hx : Tells w .done x) : Tells w id (Drafting.done x) := by
  intro d a d' around h hd
  obtain ⟨step, hstep, rfl⟩ := done_eq_ok.mp hd
  exact hx h hstep

/-! ## Operations on the text -/

/-- The operation works on the source and on the text of the declaration only. -/
structure Quiet (p : Drafting α) : Prop where
  plain : ∃ R, Plain R p
  tends : Tends p [] fun _ ↦ []

theorem quiet_read (r : Reading α) : Quiet (read r) := ⟨⟨_, plain_read r⟩, tends_read r⟩

theorem quiet_ofExcept (e : Except Fault α) : Quiet (ofExcept e) :=
  ⟨⟨_, plain_ofExcept e⟩, tends_ofExcept e⟩

theorem quiet_takeText : Quiet takeText := ⟨⟨_, plain_takeText⟩, tame_takeText.tends⟩

theorem quiet_push {c : Char} (hc : isBlank c = false) : Quiet (push c) :=
  ⟨⟨_, plain_push c⟩, tends_push hc⟩

theorem quiet_pushBracketed {opener : Char} (ho : isBlank opener = false) (closer : Char)
    (inside : Text) : Quiet (pushBracketed opener closer inside) :=
  ⟨⟨_, plain_pushBracketed opener closer inside⟩, tends_pushBracketed ho closer inside⟩

theorem quiet_pushTuple (inside : Text) : Quiet (modifyBlock fun b ↦ { b with
    text := (if b.text.isEmpty || b.text.getLast? == some ' ' then b.text else b.text ++ [' '])
      ++ '(' :: inside ++ [')'] }) :=
  ⟨⟨Filled, plain_modifyBlock (g := fun t ↦
      (if t.isEmpty || t.getLast? == some ' ' then t else t ++ [' ']) ++ '(' :: inside ++ [')'])
      (fun _ ↦ rfl) fun _ ↦ by simp⟩, tends_pushTuple inside⟩

theorem quiet_dropText : Quiet (modifyBlock fun b ↦ { b with text := [] }) :=
  ⟨⟨Emptied, plain_modifyBlock (g := fun _ ↦ []) (fun _ ↦ rfl) fun _ ↦ rfl⟩, tends_dropText⟩

theorem Quiet.bind {r : β → Signal} (hp : Quiet p) (hq : ∀ a, Tells w r (q a)) :
    Tells w r (p >>= q) := by
  intro d b d' around h hx
  obtain ⟨a, d₁, ha, hx⟩ := bind_eq_ok.mp hx
  have h₁ := hp.tends h ha
  obtain ⟨R, hplain⟩ := hp.plain
  obtain ⟨c, text, -, rfl, -⟩ := hplain.eq_ok ha
  exact (hq a h₁ hx).of_text c text

/-! ## New declarations -/

section Declaring

variable {name : Text} {e : Element}

/-- A new element is in the tree, and in no row yet. -/
theorem receives_create (d : Draft) (name : Text) (e : Element) :
    d.Receives d.tree.size [] { d with tree := d.tree.create name e } := by
  refine .of_listOf ?_ rfl rfl fun o _ ↦ listOf_create ..
  rw [size_create]
  exact Nat.le_succ _

theorem tells_create_bind {q : ElementId → Drafting α} (he : e.kind.isDeclaration = true)
    (hq : ∀ {x d a d' around}, d.Holds [.whole x] around → q x d = .ok a d' →
      ∃ step, r a = .done step ∧ d.Produces x step d') : Tells w r (create name e >>= q) := by
  intro d a d' around h hx
  obtain ⟨x, d₁, hcreate, hx⟩ := bind_eq_ok.mp hx
  have h₁ := tends_create (otherwise?_of_isDeclaration he) h hcreate
  cases hcreate
  obtain ⟨step, ha, hproduces⟩ := hq h₁ hx
  rw [ha]
  exact ((receives_create d name e).trans_produces hproduces).reports h (Nat.le_refl _)

/-- The operations that declare something. -/
theorem Declaring.tells (h : Declaring r p) : Tells w r p := by
  induction h with
  | fails h =>
    intro d a d' around _ hx
    obtain ⟨f, -, hf⟩ := h d
    cases hx.symm.trans hf
  | read _ _ ih => exact (quiet_read _).bind ih
  | value _ _ ih => exact (quiet_ofExcept _).bind ih
  | takeText _ ih => exact quiet_takeText.bind ih
  | member he => exact tells_create_bind he fun h hx ↦ ⟨_, rfl, counts_emitMember _ h hx⟩
  | names he => exact tells_create_bind he fun h hx ↦ ⟨_, rfl, counts_emitNames _ _ _ h hx⟩
  | closed he =>
    refine tells_create_bind he fun {x d a d' around} h hx ↦ ?_
    obtain ⟨⟨⟩, d₁, hread, hx⟩ := bind_eq_ok.mp hx
    obtain ⟨step, d₂, hemit, hx⟩ := bind_eq_ok.mp hx
    cases hx
    have hproduces := counts_emitMember x (tends_read _ h hread) hemit
    exact ⟨step, rfl, (fills_read _ (Nat.le_refl _) h hread).trans_produces hproduces⟩
  | opened =>
    intro d signal d' around _ hx
    replace hx := of_create_bind hx
    cases hx
    exact ⟨rfl, receives_create d _ _⟩

end Declaring

/-! ## Regions and conditionals -/

theorem listOf_size (t : Tree) (s : Slot) : t.listOf t.size s = [] := by
  rw [listOf, get?_eq_none_iff.mpr (Nat.le_refl _)]
  rfl

/-- A new scope has nothing in its row, and the comments that waited settle before it. -/
theorem tells_openScope {name : Text} {e : Element} (scope : ElementId → Scope)
    (hscope : ∀ id, (scope id).owner = id) : Tells true .done (openScope name e scope) := by
  intro d step d' around h hx
  obtain ⟨d₁, hflush, rfl, rfl⟩ := openScope_eq_ok hx
  have hsettled := receives_flushComments (Nat.le_refl _) h hflush
  refine ⟨ownerOf d.block.scopes, none, d.block.comments, [], ⟨?_, ?_, List.mem_cons_self,
    .inr ⟨rfl, rfl⟩, by simp, fun {r} hr ↦ ?_, fun s hs ↦ ?_⟩, rfl⟩
  · rw [size_create]
    exact hsettled.size.trans (Nat.le_succ _)
  · exact Block.ownerOf_mem_places (List.Subset.refl _)
  · rw [ite_self, List.append_nil, ← hsettled.row hr]
    cases r with
    | none => rfl
    | some o => exact listOf_create ..
  · rcases List.mem_cons.mp hs with rfl | hs
    · rw [hscope]
      refine .inr ⟨hsettled.size, ?_⟩
      exact (listOf_create ..).trans (listOf_size ..)
    · exact .inl (hsettled.scopes ▸ hs)

theorem tells_openRegion (name : Text) (isDirective : Bool) :
    Tells true .done (openRegion name isDirective) :=
  tells_openScope Scope.region fun _ ↦ rfl

theorem tells_openConditional (condition : Text) : Tells true .done (openConditional condition) :=
  tells_openScope (fun id ↦ Scope.conditional id id) fun _ ↦ rfl

/-- The comments that waited settle in the row of the innermost scope. -/
theorem row_adopted {scope : Scope} {r : Option ElementId} (h : d.Holds [] around)
    (hscope : scope ∈ d.block.scopes)
    (hlist : ∀ o, d'.tree.listOf o .children =
      (d.tree.adopted scope.owner .children d.block.comments).listOf o .children)
    (helements : d'.block.elements = d.block.elements) :
    d'.row r = d.row r ++ if r = some scope.owner then d.block.comments else [] := by
  have hmem : scope.stem ∈ d.block.stems ++ around :=
    List.mem_append_left _ (Block.stem_mem_stems hscope)
  have hlt : scope.owner < d.tree.size :=
    h.made.lt_of_reached (h.made.lt_of_mem hmem) (scope.bears_owner (h.made.fits hmem))
  cases r with
  | none => simp [row, helements]
  | some o =>
    simp only [row, Option.elim_some, hlist, listOf_adopted hlt, and_true, Option.some.injEq]
    split <;> simp

/-- Closing the innermost scope adds its element to the row around it. -/
theorem reports_closeScope {scope : Scope} {scopes : List Scope} (h : d.Holds [] around)
    (hscopes : d.block.scopes = scope :: scopes)
    (hx : (adoptComments scope.owner >>= fun _ ↦ closeScope scope.stem.head) d = .ok step d') :
    d.Reports true step d' := by
  have hscope : scope ∈ d.block.scopes := by simp [hscopes]
  obtain ⟨⟨⟩, d₁, hadopt, hx⟩ := bind_eq_ok.mp hx
  obtain ⟨h₁, rfl⟩ := holds_adoptComments scope.bears_owner h (List.mem_map_of_mem hscope) hadopt
  replace hx := of_modifyBlock_bind hx
  have h₂ : Draft.Holds _ ([scope.stem.head].map .whole ++ []) around :=
    (holds_popScope h₁ hscopes).weaken
  obtain ⟨rfl, hadded⟩ := emit_eq_ok (Nat.le_refl _) h₂ hx
  have hscopes' : d'.block.scopes = scopes := hadded.scopes.trans (by simp [hscopes])
  refine ⟨some scope.owner, ownerOf scopes, d.block.comments, [scope.stem.head], ⟨?_, ?_, ?_,
    .inr ⟨rfl, rfl⟩, fun x hx hcomment ↦ ?_, fun {r} hr ↦ ?_, fun s hs ↦ .inl ?_⟩, rfl⟩
  · simpa using hadded.size
  · exact List.mem_cons_of_mem _ (List.mem_map.mpr ⟨scope, hscope, rfl⟩)
  · exact Block.ownerOf_mem_places (hscopes ▸ List.subset_cons_self scope scopes)
  · -- A comment that waits stands for itself, and so does the scope.
    rw [List.mem_singleton.mp hx] at hcomment
    have hpopped := (holds_popScope h hscopes).made
    exact hpopped.head_ne (r := .note scope.stem.head) (by simp [Block.stems, hcomment]) rfl
  · rw [hadded.row (by simpa using hr)]
    refine (congrArg (· ++ _) (row_adopted h hscope (fun _ ↦ ?_) ?_)).trans ?_
    · rfl
    · rfl
    · simp [hscopes]
  · rw [hscopes'] at hs
    simp [hscopes, hs]

theorem tells_closeRegion : Tells true .done closeRegion := by
  intro d step d' around h hx
  obtain ⟨id, scopes, hscopes, hx⟩ := closeRegion_eq_ok hx
  exact reports_closeScope h hscopes hx

theorem tells_closeConditional : Tells true .done closeConditional := by
  intro d step d' around h hx
  obtain ⟨head, current, scopes, hscopes, hx⟩ := innermost_eq_ok hx
  exact reports_closeScope h hscopes hx

/-- The comments that waited settle in the branch that is left, and the next one is empty. -/
theorem tells_nextBranch (condition : Option Text) (directive : Text) :
    Tells true .done (nextBranch condition directive) := by
  intro d step d' around h hx
  obtain ⟨head, current, scopes, d₁, t, hscopes, -, hadopt, ht, rfl, rfl⟩ := nextBranch_eq_ok hx
  have hscope : Scope.conditional head current ∈ d.block.scopes := by simp [hscopes]
  obtain ⟨h₁, rfl⟩ := holds_adoptComments (Scope.bears_owner (.conditional head current)) h
    (List.mem_map_of_mem hscope) hadopt
  have h₂ := tends_createGrowing rfl h₁
    (rfl : create (condition.getD []) (.conditionDirective condition none) _ = _)
  obtain ⟨rfl, -, -⟩ := h₂.made.eq_withOtherwise_of_setOtherwise ht
  refine ⟨some current, none, d.block.comments, [], ⟨?_, ?_, List.mem_cons_self,
    .inr ⟨rfl, rfl⟩, by simp, fun {r} hr ↦ ?_, fun s hs ↦ ?_⟩, rfl⟩
  · simp [withOtherwise]
  · exact List.mem_cons_of_mem _ (List.mem_map.mpr ⟨_, hscope, rfl⟩)
  · rw [ite_self, List.append_nil]
    exact row_adopted h hscope (fun _ ↦ (listOf_withOtherwise ..).trans (listOf_create ..)) rfl
  · rcases List.mem_cons.mp hs with rfl | hs
    · refine .inr ⟨by simp [Scope.owner], ?_⟩
      exact ((listOf_withOtherwise ..).trans (listOf_create ..)).trans (listOf_size ..)
    · exact .inl (List.mem_of_mem_tail hs)

theorem tells_carryOut (directive argument : Text) :
    Tells true .done (carryOut directive argument) :=
  .ite (tells_openRegion _ _) <| .ite tells_closeRegion <| .ite (tells_openConditional _) <|
    .ite (tells_nextBranch _ _) <| .ite (tells_nextBranch _ _) <|
      .ite tells_closeConditional (tells_throw _)

theorem tells_directive : Tells true .done directive :=
  (quiet_read _).bind fun _ ↦ .block_bind fun _ ↦
    .ite (tells_throw _) (tells_carryOut _ _)

/-! ## Comments and attributes -/

theorem tells_keepComment (c : Comment) : Tells w .done (keepComment c) := by
  intro d step d' around _ hx
  replace hx := of_create_bind hx
  replace hx := of_modifyBlock_bind hx
  cases hx
  refine Receives.reports_nil (.of_listOf ?_ rfl rfl fun o _ ↦ listOf_create ..) rfl
  rw [size_create]
  exact Nat.le_succ _

theorem tells_placeComment (m : RegionMarkers) (c : Comment) :
    Tells true .done (placeComment m c) := by
  refine .ite ?_ (tells_keepComment c)
  cases m.opened? c.text with
  | some name => exact tells_openRegion name false
  | none => exact .ite tells_closeRegion (tells_keepComment c)

theorem tells_slash (m : RegionMarkers) : Tells true .done (slash m) := by
  refine (quiet_read _).bind fun found ↦ ?_
  cases found with
  | some c => exact tells_placeComment m c
  | none => exact (quiet_push (by decide)).bind fun _ ↦ tells_pure rfl

/-- An attribute that stands alone is produced after the comments that waited have settled. -/
theorem tells_squareBracket : Tells true .done squareBracket := by
  refine .block_bind fun b ↦ .ite ?_ fun d step d' around h hx ↦ ?_
  · exact (quiet_read _).bind fun inside ↦
      (quiet_pushBracketed (by decide) ']' inside).bind fun _ ↦ tells_pure rfl
  · obtain ⟨⟨head, target⟩, d₁, hlist, hx⟩ := bind_eq_ok.mp hx
    obtain ⟨hlisted, rfl⟩ := receives_attributeList h hlist
    have h₁ := tame_attributeList.tends h hlist
    obtain ⟨-, -, hall⟩ := attributeList_eq_ok hlist
    have hblock : d₁.block = d.block := by
      rw [← (EStateM.Result.ok.inj ((hall d.block).symm.trans hlist)).2]
    dsimp only at hx
    split at hx
    · obtain ⟨⟨⟩, d₂, hflush, hx⟩ := bind_eq_ok.mp hx
      have hsettled := receives_flushComments hlisted.size h₁ hflush
      have h₂ : d₂.Holds ([d.tree.size].map .whole ++ []) around :=
        tame_flushComments.tends h₁ hflush
      obtain ⟨rfl, hadded⟩ := emit_eq_ok (hlisted.size.trans hsettled.size) h₂ hx
      have hplaced := hlisted.trans (hsettled.trans hadded)
      rw [hblock] at hplaced
      have hmem := Block.ownerOf_mem_places (List.Subset.refl d.block.scopes)
      refine ⟨_, _, d.block.comments, [d.tree.size], ⟨hplaced.size, hmem, hmem, .inr ⟨rfl, rfl⟩,
        fun x hx hcomment ↦ ?_, fun hr ↦ ?_, fun s hs ↦ .inl (hplaced.scopes ▸ hs)⟩, rfl⟩
      · have hlt := h.lt_of_mem_comments hcomment
        rw [List.mem_singleton.mp hx] at hlt
        exact Nat.lt_irrefl _ hlt
      · rw [hplaced.row hr]
        split <;> simp
    · replace hx := of_modifyBlock_bind hx
      cases hx
      exact Receives.reports_nil ⟨hlisted.size, hlisted.scopes, hlisted.row⟩ rfl

/-! ## Members -/

theorem tells_parenthesis : Tells w .done parenthesis := by
  refine .block_bind fun b ↦ .ite ?_ ?_
  · exact (quiet_read _).bind fun inside ↦ (quiet_pushTuple inside).bind fun _ ↦ tells_pure rfl
  · exact quiet_takeText.bind fun text ↦ (declaring_signature text).tells

theorem tells_semicolon : Tells w .done semicolon := by
  obtain ⟨q, hq, heq⟩ := declaring_semicolon
  rw [heq]
  exact quiet_takeText.bind fun text ↦ .ite (tells_pure rfl) (hq text).tells

theorem tells_wordEnd : Tells w id wordEnd := by
  refine .block_bind fun b ↦ ?_
  dsimp only
  cases (phraseWords (Text.trim b.text)).getLast? with
  | none => exact tells_pure rfl
  | some last =>
    refine .ite ?_ <| .ite ?_ <| .ite ?_ (tells_pure rfl)
    · exact quiet_dropText.bind fun _ ↦ declaring_openNamespace.tells
    · exact quiet_dropText.bind fun _ ↦ declaring_usingDirective.tells.done
    · exact quiet_dropText.bind fun _ ↦ (declaring_openType _).tells

/-! ## Characters -/

theorem tells_letter {c : Char} (hc : isBlank c = false) : Tells w id (letter c) :=
  (quiet_push hc).bind fun _ ↦ (quiet_read _).bind fun _ ↦ .ite tells_wordEnd (tells_pure rfl)

theorem tells_blank : Tells w .done blank := by
  intro d step d' around _ hx
  replace hx := of_modifyBlock_bind hx
  cases hx
  refine Receives.reports_nil (.of_tree_eq rfl ?_ ?_) rfl
  · dsimp only
    split <;> rfl
  · dsimp only
    split <;> rfl

theorem tells_questionMark : Tells w .done questionMark := by
  intro d step d' around _ hx
  replace hx := of_modifyBlock_bind hx
  cases hx
  exact Receives.reports_nil (.of_tree_eq rfl rfl rfl) rfl

theorem tells_angleBracket : Tells w .done angleBracket :=
  (quiet_read _).bind fun inside ↦ (quiet_pushBracketed (by decide) '>' inside).bind fun _ ↦
    tells_pure rfl

/-- The characters with which a directive, a comment or an attribute starts. Only there may comments
that have waited settle. -/
def maySettle (c : Char) : Bool := c == '/' || c == '#' || c == '['

theorem tells_react (m : RegionMarkers) (c : Char) : Tells (maySettle c) id (react m c) := by
  refine .block_bind fun _ ↦ iteInduction (fun hc ↦ hc ▸ (tells_slash m).done) fun _ ↦
    iteInduction (fun hc ↦ hc ▸ tells_directive.done) fun _ ↦
    iteInduction (fun hc ↦ hc ▸ tells_squareBracket.done) fun _ ↦
    .ite tells_angleBracket.done <| .ite tells_questionMark.done <|
    iteInduction (fun _ ↦ tells_blank.done) fun hc ↦ ?_
  exact .ite tells_parenthesis.done <| .ite tells_semicolon.done <|
    .ite declaring_equalsSign.tells.done <|
    .ite declaring_brace.tells.done (tells_letter (by simpa using hc))

/-- **One character** of a block, and what it says about the rows. -/
theorem agrees_advance {m : RegionMarkers} {signal : Signal} (h : d.Holds [] around)
    (hx : advance m d = .ok signal d') : d.Agrees (maySettle d.cursor.peek) signal d' := by
  unfold advance at hx
  split at hx
  · cases hx
    exact (Receives.refl _ d).reports_nil rfl
  · have h' : Draft.Holds { d with cursor := d.cursor.advance } [] around :=
      ⟨h.linked, h.made, h.text⟩
    exact (tells_react m _ h' hx).of_text d.cursor.advance d.block.text

end Drafting

end SharpOutline
