import SharpOutline.Proofs.Block.Turns

/-!
# What each character does

The turns of all operations on a block, up to that of a character (`Drafting.turn_advance`). A
region, a conditional or an attribute of the assembly is added in the place of a declaration, or is
claimed as soon as it is opened; everything else comes from a new declaration and is announced.
-/

namespace SharpOutline

open SharpOutline.Tree

/-- No block starts after a step, and nothing is said of the end of a block. -/
def Step.outcome : Step → Option (Option ElementId)
  | finished => none
  | _ => some none

theorem Step.outcome_of_ne {step : Step} (h : step ≠ .finished) : step.outcome = some none := by
  cases step <;> first | rfl | exact absurd rfl h

/-- The element of which a block starts, if one does. -/
def Signal.outcome : Signal → Option (Option ElementId)
  | done step => step.outcome
  | opened owner _ => some (some owner)

namespace Drafting

open Draft

variable {R : Text → Text → Prop} {d d' : Draft} {step : Step}

theorem outcome_emit {ids : List ElementId} (h : emit ids d = .ok step d') :
    step.outcome = some none := by
  obtain ⟨⟨⟩, d₁, -, h⟩ := bind_eq_ok.mp h
  cases h
  rfl

theorem outcome_emitMember {x : ElementId} (h : emitMember x d = .ok step d') :
    step.outcome = some none :=
  Step.outcome_of_ne (emitMember_ne_finished h)

theorem outcome_emitNames {isField : Bool} {x : ElementId} {names : List DeclaredName}
    (h : emitNames isField x names d = .ok step d') : step.outcome = some none := by
  obtain ⟨⟨⟩, d₁, -, h⟩ := bind_eq_ok.mp h
  obtain ⟨copies, d₂, -, h⟩ := bind_eq_ok.mp h
  split at h
  · exact outcome_emit h
  · obtain ⟨ids, d₃, -, h⟩ := bind_eq_ok.mp h
    exact outcome_emit h

/-! ## Regions and conditionals -/

/-- A scope is claimed when it is opened, unless it lies inside another one. -/
theorem claims_open (b : Block) (scope : Scope) :
    Block.claims { b with scopes := scope :: b.scopes } =
      b.claims ++ if b.scopes = [] then [scope.head] else [] := by
  rw [Block.claims, Block.claims]
  cases hscopes : b.scopes with
  | nil => simp
  | cons s ss => simp [List.getLast?_cons]

theorem turns_openScope {name : Text} {e : Element} (scope : ElementId → Scope)
    (he : e.kind.isDeclaration = false) (hscope : ∀ x, (scope x).head = x) :
    Turns Step.outcome R (openScope name e scope) := by
  intro d step d' hopen
  obtain ⟨d₁, hflush, rfl, rfl⟩ := openScope_eq_ok hopen
  have hgains := gains_flushComments (n := d.tree.size) hflush
  refine .other rfl (hgains.spares.trans (spares_create _ _ name e)) ?_ ?_ (.inl (by simp))
    fun hscopes ↦ ⟨d₁.tree.size, ?_, e.kind, ?_, he⟩
  · exact hgains.claims.trans (by rw [claims_open]; exact List.prefix_append _ _)
  · exact hgains.elements ▸ List.prefix_append _ _
  · rw [claims_open, if_pos (hgains.scopes.trans hscopes), hscope]
    simp
  · rw [kind?_create, if_pos rfl]

theorem turn_closeScope {p : Drafting Step} {owner : ElementId} {scope : Scope}
    {scopes : List Scope} (hscopes : d.block.scopes = scope :: scopes)
    (h : (adoptComments owner >>= fun _ ↦ closeScope scope.head) d = .ok step d') :
    Turn Step.outcome R p d step d' := by
  obtain ⟨⟨⟩, d₁, hadopt, h⟩ := bind_eq_ok.mp h
  replace h := of_modifyBlock_bind h
  have hadopted := gains_adoptComments (n := d.tree.size) hadopt
  have hgains := gains_emit (n := d.tree.size) h
  have helements : d₁.block.elements = d.block.elements := by simpa using hadopted.elements
  have hscopes₁ : d₁.block.scopes = scope :: scopes := hadopted.scopes.trans hscopes
  have hscopes' : d'.block.scopes = scopes := hgains.scopes.trans (by simp [hscopes₁])
  have helements' : d'.block.elements =
      d.block.elements ++ if scopes = [] then [scope.head] else [] := by
    rw [hgains.elements, ← helements]
    simp [hscopes₁]
  refine .other (outcome_emit h) (hadopted.spares.trans hgains.spares) ?_
    (helements' ▸ List.prefix_append _ _) ?_ fun hnil ↦ ?_
  · -- The outermost scope was claimed before, and is an element now.
    rw [Block.claims, Block.claims, hscopes, hscopes', helements']
    cases scopes with
    | nil => simp
    | cons s ss => simp [List.getLast?_cons]
  · rw [hscopes', helements']
    cases scopes with
    | nil => simp
    | cons s ss => simp
  · rw [hscopes] at hnil
    cases hnil

theorem turns_openRegion (name : Text) (isDirective : Bool) :
    Turns Step.outcome R (openRegion name isDirective) :=
  turns_openScope Scope.region rfl fun _ ↦ rfl

theorem turns_closeRegion : Turns Step.outcome R closeRegion := by
  intro d step d' hclose
  obtain ⟨id, scopes, hscopes, h⟩ := closeRegion_eq_ok hclose
  exact turn_closeScope hscopes h

theorem turns_openConditional (condition : Text) :
    Turns Step.outcome R (openConditional condition) :=
  turns_openScope (fun id ↦ Scope.conditional id id) rfl fun _ ↦ rfl

theorem turns_nextBranch (condition : Option Text) (directive : Text) :
    Turns Step.outcome R (nextBranch condition directive) := by
  intro d step d' hnext
  obtain ⟨head, current, scopes, d₁, t, hscopes, -, hadopt, ht, rfl, rfl⟩ := nextBranch_eq_ok hnext
  have hgains := gains_adoptComments (n := d.tree.size) hadopt
  have hspares : Spares d.tree.size d.tree t :=
    (hgains.spares.trans (spares_create _ _ _ _)).trans (spares_setOtherwise ht)
  have helements : d₁.block.elements = d.block.elements := by simpa using hgains.elements
  refine .other rfl hspares ?_ (helements ▸ List.prefix_rfl) (.inl (by simp)) fun hnil ↦ ?_
  · rw [Block.claims, Block.claims, hscopes]
    simp only [hgains.scopes, hscopes, helements, List.tail_cons]
    cases scopes with
    | nil => simp [Scope.head]
    | cons s ss => simp [List.getLast?_cons]
  · rw [hscopes] at hnil
    cases hnil

theorem turns_closeConditional : Turns Step.outcome R closeConditional := by
  intro d step d' hclose
  obtain ⟨head, current, scopes, hscopes, h⟩ := innermost_eq_ok hclose
  exact turn_closeScope hscopes h

theorem turns_carryOut (directive argument : Text) :
    Turns Step.outcome R (carryOut directive argument) :=
  .ite (turns_openRegion _ _) <| .ite turns_closeRegion <| .ite (turns_openConditional _) <|
    .ite (turns_nextBranch _ _) <| .ite (turns_nextBranch _ _) <|
      .ite turns_closeConditional (turns_throw _)

theorem turns_directive : Turns Step.outcome R directive := by
  refine (plain_read _).bind_excluded fun line ↦ turns_block_bind (fun b ↦ ?_) fun b b' h ↦ ?_
  · exact .ite (turns_throw _) (turns_carryOut _ _)
  · rw [h]

/-! ## Comments and attributes -/

theorem turns_keepComment (c : Comment) : Turns Step.outcome R (keepComment c) := by
  intro d step d' h
  replace h := of_create_bind h
  replace h := of_modifyBlock_bind h
  cases h
  exact .held rfl (.of_spares (spares_create _ _ _ _) rfl rfl) (.inl (by simp)) fun k ↦ rfl

theorem turns_placeComment (m : RegionMarkers) (c : Comment) :
    Turns Step.outcome R (placeComment m c) := by
  refine .ite ?_ (turns_keepComment c)
  cases m.opened? c.text with
  | some name => exact turns_openRegion name false
  | none => exact .ite turns_closeRegion (turns_keepComment c)

theorem turns_slash (m : RegionMarkers) : Turns Step.outcome Lasting (slash m) := by
  refine (plain_read _).bind_turns (S := Filled) (fun found ↦ ?_) fun _ h h' ↦ absurd h' h
  cases found with
  | some c => exact turns_placeComment m c
  | none =>
    exact (plain_push '/').bind_turns (fun _ ↦ turns_pure rfl)
      fun h h' ↦ h' ▸ h

/-- The operation has nothing to do with the block. -/
def Blind {α : Type} (p : Drafting α) : Prop :=
  ∀ ⦃d a d'⦄, p d = .ok a d' → Spares d.tree.size d.tree d'.tree ∧
    ∀ b, p ⟨d.cursor, d.tree, b⟩ = .ok a ⟨d'.cursor, d'.tree, b⟩

section Blind

variable {α β : Type} {p : Drafting α} {q : α → Drafting β}

theorem blind_pure (a : α) : Blind (pure a) := by
  intro d _ d' h
  cases h
  exact ⟨.refl _ _, fun b ↦ rfl⟩

theorem blind_read (r : Reading α) : Blind (read r) := by
  intro d a d' h
  obtain ⟨c, hc, rfl⟩ := read_eq_ok h
  refine ⟨.refl _ _, fun b ↦ ?_⟩
  rw [read]
  simp only [hc]

theorem blind_create (name : Text) (e : Element) : Blind (create name e) := by
  intro d x d' h
  cases h
  exact ⟨spares_create _ _ name e, fun b ↦ rfl⟩

theorem blind_addChild (owner c : ElementId) : Blind (edit fun t ↦ t.addChild owner c) := by
  intro d a d' h
  obtain ⟨t, ht, rfl⟩ := edit_eq_ok.mp h
  exact ⟨spares_addChild ht, fun b ↦ edit_eq_ok.mpr ⟨t, ht, rfl⟩⟩

theorem Blind.bind (hp : Blind p) (hq : ∀ a, Blind (q a)) : Blind (p >>= q) := by
  intro d b d' h
  obtain ⟨a, d₁, ha, h⟩ := bind_eq_ok.mp h
  obtain ⟨hspares, hp⟩ := hp ha
  obtain ⟨hspares', hq⟩ := hq a h
  exact ⟨hspares.trans (hspares'.mono hspares.size), fun b ↦
    bind_eq_ok.mpr ⟨a, _, hp b, hq b⟩⟩

end Blind

theorem blind_furtherAttributes (head : ElementId) (n : Nat) :
    Blind (furtherAttributes head n) := by
  induction n with
  | zero => exact nofun
  | succ n ih =>
    refine (blind_read _).bind fun more ↦ ?_
    cases more with
    | false => exact blind_pure ()
    | true =>
      exact (blind_read _).bind fun a ↦ (blind_create _ _).bind fun id ↦
        (blind_addChild head id).bind fun _ ↦ ih

/-- A list of attributes is read without regard to the block, and stands for an attribute. -/
theorem attributeList_eq_ok {r : ElementId × Option Text} (h : attributeList d = .ok r d') :
    Spares d.tree.size d.tree d'.tree ∧ d'.tree.kind? r.1 = some .attributeUse ∧
      ∀ b, attributeList ⟨d.cursor, d.tree, b⟩ = .ok r ⟨d'.cursor, d'.tree, b⟩ := by
  obtain ⟨a, d₁, hread, h⟩ := bind_eq_ok.mp h
  obtain ⟨c, hc, rfl⟩ := read_eq_ok hread
  replace h := of_create_bind h
  replace h := of_get_bind h
  obtain ⟨⟨⟩, d₅, hfurther, h⟩ := bind_eq_ok.mp h
  cases h
  obtain ⟨hspares, hall⟩ := blind_furtherAttributes _ _ hfurther
  have hcreated := spares_create d.tree.size d.tree a.name (.attributeUse a.data)
  refine ⟨hcreated.trans (hspares.mono hcreated.size), ?_, fun b ↦ ?_⟩
  · have hlt : d.tree.size < (d.tree.create a.name (.attributeUse a.data)).size := by
      rw [size_create]
      exact Nat.lt_succ_self _
    rw [hspares.kind hlt, kind?_create, if_pos rfl]
    rfl
  · have hread' : read (Reading.attributeUse true) ⟨d.cursor, d.tree, b⟩ =
        .ok a ⟨c, d.tree, b⟩ := by
      rw [read]
      simp only [hc]
    exact bind_eq_ok.mpr ⟨a, _, hread', bind_eq_ok.mpr ⟨_, _, rfl, bind_eq_ok.mpr ⟨_, _, rfl,
      bind_eq_ok.mpr ⟨(), _, hall b, rfl⟩⟩⟩⟩

theorem turns_squareBracket : Turns Step.outcome Lasting squareBracket := by
  refine turns_block_bind (fun b ↦ .ite ?_ ?_) fun b b' h ↦ by rw [h]
  · refine (plain_read _).bind_turns (S := Filled) (fun inside ↦ ?_) fun _ h h' ↦ absurd h' h
    exact (plain_pushBracketed '[' ']' inside).bind_turns
      (fun _ ↦ turns_pure rfl) fun h h' ↦ h' ▸ h
  · intro d step d' h
    obtain ⟨⟨head, target⟩, d₁, hlist, h⟩ := bind_eq_ok.mp h
    obtain ⟨hspares, hkind, hall⟩ := attributeList_eq_ok hlist
    obtain ⟨c, t, b⟩ := d₁
    obtain rfl : d.block = b :=
      congrArg Draft.block (EStateM.Result.ok.inj ((hall d.block).symm.trans hlist)).2
    dsimp only at h
    -- Attributes of the assembly become an element, others wait.
    split at h
    · obtain ⟨⟨⟩, d₂, hflush, h⟩ := bind_eq_ok.mp h
      have hgains := (gains_flushComments (n := d.tree.size) hflush).trans (gains_emit h)
      have hspares' : Spares d.tree.size d.tree d'.tree := hspares.trans hgains.spares
      refine .other (outcome_emit h) hspares' hgains.claims
        (hgains.elements ▸ List.prefix_append _ _) ?_
        fun hscopes ↦ ⟨head, ?_, .attributeUse, ?_, rfl⟩
      · by_cases hscopes : d.block.scopes = []
        · rw [hgains.elements, if_pos hscopes]
          simp
        · exact .inl fun hnil ↦ hscopes (hgains.scopes.symm.trans hnil)
      · rw [Block.claims, hgains.elements, if_pos hscopes]
        simp
      · obtain ⟨m, hm, -⟩ := Option.map_eq_some_iff.mp hkind
        rw [hgains.spares.kind (lt_of_get? hm), hkind]
    · rename_i htarget
      replace h := of_modifyBlock_bind h
      cases h
      refine .held rfl (.of_spares hspares rfl rfl) (.inr (by simp)) fun k ↦ ?_
      refine bind_eq_ok.mpr ⟨_, _, hall (d.block.noted k), ?_⟩
      dsimp only
      rw [if_neg htarget]
      rfl

/-! ## Members -/

/-- The turns of all operations that declare something. -/
theorem Declaring.turns {α : Type} {r : α → Signal} {p : Drafting α} (h : Declaring r p) :
    Turns (fun a ↦ (r a).outcome) R p := by
  induction h generalizing R with
  | fails h =>
    intro d a d' hd
    obtain ⟨f, -, hf⟩ := h d
    cases hd.symm.trans hf
  | read _ _ ih => exact (plain_read _).bind_excluded fun a ↦ ih a
  | value _ _ ih => exact (plain_ofExcept _).bind_excluded fun a ↦ ih a
  | takeText _ ih => exact plain_takeText.bind_excluded fun a ↦ ih a
  | member he => exact turns_create_bind he announces_emitMember outcome_emitMember
  | names he => exact turns_create_bind he (announces_emitNames _ · _) outcome_emitNames
  | closed he =>
    refine turns_create_bind he
      (fun x ↦ (plain_read _).bind_announces fun _ ↦ (announces_emitMember x).bind_pure)
      fun {x d a d'} h ↦ ?_
    obtain ⟨⟨⟩, d₁, -, h⟩ := bind_eq_ok.mp h
    obtain ⟨step, d₂, hemit, h⟩ := bind_eq_ok.mp h
    cases h
    exact outcome_emitMember hemit
  | opened he => exact turns_opened he fun _ ↦ rfl

theorem turns_parenthesis : Turns Step.outcome Lasting parenthesis := by
  refine turns_block_bind (fun b ↦ .ite ?_ ?_) fun b b' h ↦ by rw [h]
  · refine (plain_read _).bind_turns (S := Filled) (fun inside ↦ ?_) fun _ h h' ↦ absurd h' h
    refine (plain_modifyBlock (R := Filled) (g := fun t ↦
      (if t.isEmpty || t.getLast? == some ' ' then t else t ++ [' ']) ++ '(' :: inside ++ [')'])
      (fun _ ↦ rfl) fun _ ↦ by simp).bind_turns
        (fun _ ↦ turns_pure rfl) fun h h' ↦ h' ▸ h
  · exact plain_takeText.bind_excluded fun text ↦ (declaring_signature text).turns

theorem turns_takeText_bind {q : Text → Drafting Step}
    (hq : ∀ text, Turns Step.outcome Excluded (q text)) : Turns Step.outcome Lasting
      (takeText >>= fun text ↦ if text.isEmpty then pure .more else q text) := by
  intro d step d' h
  by_cases htrim : Text.trim d.block.text = []
  · have hidle : ∀ (t : Tree) (b : Block), b.text = d.block.text →
        (takeText >>= fun text ↦ if text.isEmpty then pure .more else q text) ⟨d.cursor, t, b⟩ =
          .ok Step.more ⟨d.cursor, t, { b with text := [] }⟩ := by
      intro t b hb
      refine bind_eq_ok.mpr ⟨_, _, rfl, ?_⟩
      rw [if_pos (by rw [hb, htrim]; rfl)]
      rfl
    cases h.symm.trans (hidle d.tree d.block rfl)
    exact .wrote rfl (fun _ ↦ htrim) hidle
  · have hsame : ∀ (t : Tree) (b : Block), b.text = d.block.text →
        (takeText >>= fun text ↦ if text.isEmpty then pure .more else q text) ⟨d.cursor, t, b⟩ =
          (takeText >>= q) ⟨d.cursor, t, b⟩ := by
      intro t b hb
      change (if (Text.trim b.text).isEmpty then _ else _ : Drafting Step) _ = _
      rw [hb, if_neg (by simpa using htrim), ← hb]
      rfl
    refine (plain_takeText.bind_excluded hq ((hsame d.tree d.block rfl).symm.trans h)).lift rfl id
      fun {t e b} hb hok ↦ ?_
    rwa [Block.with_text hb, ← hsame t b hb] at hok

theorem turns_semicolon : Turns Step.outcome Lasting semicolon := by
  obtain ⟨q, hq, heq⟩ := declaring_semicolon
  rw [heq]
  exact turns_takeText_bind fun text ↦ (hq text).turns

/-! ## Keywords -/

theorem turns_wordEnd : Turns Signal.outcome Unchanged wordEnd := by
  have hmore : Turns Signal.outcome Unchanged (pure (.done .more)) := turns_pure rfl
  have hdrop : Plain Emptied (modifyBlock fun b ↦ { b with text := [] }) :=
    plain_modifyBlock (g := fun _ ↦ []) (fun _ ↦ rfl) fun _ ↦ rfl
  refine turns_block_bind (fun b ↦ ?_) fun b b' h ↦ by rw [h]
  dsimp only
  cases (phraseWords (Text.trim b.text)).getLast? with
  | none => exact hmore
  | some last =>
    refine .ite ?_ <| .ite ?_ <| .ite ?_ hmore
    · exact hdrop.bind_excluded fun _ ↦ declaring_openNamespace.turns
    · exact hdrop.bind_excluded fun _ ↦ declaring_usingDirective.turns.bind_pure fun _ ↦ rfl
    · exact hdrop.bind_excluded fun _ ↦ (declaring_openType _).turns

/-! ## Characters -/

theorem turns_letter (c : Char) : Turns Signal.outcome Lasting (letter c) := by
  refine (plain_push c).bind_turns (S := Unchanged) (fun _ ↦ (plain_read _).bind_turns
    (S := Unchanged) (fun next ↦ .ite turns_wordEnd (turns_pure rfl)) ?_) ?_
  · exact fun h h' ↦ h'.trans h
  · exact fun hfilled hsame hnil ↦ absurd (hsame.symm.trans hnil) hfilled

theorem turns_blank : Turns Step.outcome Lasting blank := by
  refine (plain_modifyBlock (R := Lasting) (g := fun t ↦
    if t.isEmpty || t.getLast? == some ' ' then t else t ++ [' ']) (fun b ↦ ?_)
      fun t ht ↦ ?_).bind_turns (fun _ ↦ turns_pure rfl) fun h h' ↦ h' ▸ h
  · split <;> rfl
  · split at ht
    · rw [ht]
      rfl
    · simp at ht

theorem turns_questionMark : Turns Step.outcome Lasting questionMark := by
  refine (plain_modifyBlock (R := Filled) (g := fun t ↦ Text.trimEnd t ++ ['?']) (fun _ ↦ rfl)
    fun _ ↦ by simp).bind_turns (S := Unchanged) (fun _ ↦ turns_pure rfl) ?_
  exact fun hfilled hsame hnil ↦ absurd (hsame.symm.trans hnil) hfilled

theorem turns_angleBracket : Turns Step.outcome Lasting angleBracket := by
  refine (plain_read _).bind_turns (S := Filled) (fun inside ↦ ?_) fun _ h h' ↦ absurd h' h
  exact (plain_pushBracketed '<' '>' inside).bind_turns
    (fun _ ↦ turns_pure rfl) fun h h' ↦ h' ▸ h

theorem turns_react (m : RegionMarkers) (c : Char) : Turns Signal.outcome Lasting (react m c) := by
  have hdone {p : Drafting Step} (hp : Turns Step.outcome Lasting p) :
      Turns Signal.outcome Lasting (done p) := hp.bind_pure fun _ ↦ rfl
  refine turns_block_bind (fun b ↦ ?_) fun b b' h ↦ by rw [h]
  exact .ite (hdone (turns_slash m)) <| .ite (hdone turns_directive) <|
    .ite (hdone turns_squareBracket) <| .ite (hdone turns_angleBracket) <|
    .ite (hdone turns_questionMark) <| .ite (hdone turns_blank) <|
    .ite (hdone turns_parenthesis) <| .ite (hdone turns_semicolon) <|
    .ite (hdone declaring_equalsSign.turns) <| .ite (hdone declaring_brace.turns) (turns_letter c)

/-- **No character ends a block** once it has been passed: a block ends where one of its ends is
found, and nothing has been read. -/
theorem advance_eq_finished {m : RegionMarkers} (h : advance m d = .ok (.done .finished) d') :
    endsBlock d.cursor.peek = true ∧ d' = d := by
  rw [advance] at h
  split at h
  · rename_i hend
    exact ⟨hend, (EStateM.Result.ok.inj h).2.symm⟩
  · cases turns_react m _ h with
    | wrote ho | held ho | opened ho | member ho | other ho => cases ho

/-- **One character** of a block, unless the block ends before it. -/
theorem turn_advance {m : RegionMarkers} {signal : Signal}
    (h : advance m d = .ok signal d') (hsignal : signal ≠ .done .finished) :
    Turn Signal.outcome Lasting (advance m) d signal d' := by
  have hend : endsBlock d.cursor.peek = false := by
    by_contra hend
    rw [advance, if_pos (by simpa using hend)] at h
    exact hsignal (EStateM.Result.ok.inj h).1.symm
  -- The character is passed before anything is done.
  have hpass (t : Tree) (b : Block) : advance m ⟨d.cursor, t, b⟩ =
      react m d.cursor.peek ⟨d.cursor.advance, t, b⟩ := by
    rw [advance, if_neg (by simp [hend])]
  refine (turns_react m d.cursor.peek ((hpass d.tree d.block).symm.trans h)).lift rfl id
    fun {t e b} hb hok ↦ ?_
  rwa [Block.with_text hb, ← hpass] at hok

end Drafting

end SharpOutline
