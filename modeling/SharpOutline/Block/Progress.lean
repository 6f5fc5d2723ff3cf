import SharpOutline.Block.Step

/-!
# Progress

Nothing that is done with a draft moves its cursor backwards: whatever the outcome, the cursor
afterwards is the cursor before, some characters further on. All readings have this property, and
none of them is refused anything (`Reading.Tidy`). All work on a draft is built from a few basic
operations (`Drafting.Built`), which is checked once for each thing that a character can start, and
each of these operations moves the cursor forward. A step that does not end the block has passed at
least one character, so reading a block comes to an end.
-/

namespace SharpOutline

open Reading

/-- The state that is left, whatever the outcome. -/
def finalState {ε σ α : Type} : EStateM.Result ε σ α → σ
  | .ok _ s => s
  | .error _ s => s

/-- An edit of the tree was refused. -/
def Fault.isRefusal : Fault → Bool
  | refused _ => true
  | _ => false

/-! ## Readings -/

namespace Reading

/-- The reading only moves the cursor forward. -/
def Forward {α : Type} (r : Reading α) : Prop := ∀ c, ∃ n, finalState (r c) = c.skip n

/-- The reading only moves the cursor forward, and meets no refusal. -/
structure Tidy {α : Type} (r : Reading α) : Prop where
  forward : Forward r
  unrefused : ∀ ⦃c f c'⦄, r c = .error f c' → f.isRefusal = false

variable {α β : Type}

/-- A reading that always succeeds. -/
theorem tidy_of_ok {r : Reading α} {g : Cursor → α} {n : Cursor → Nat}
    (h : ∀ c, r c = .ok (g c) (c.skip (n c))) : Tidy r := by
  refine ⟨fun c ↦ ⟨n c, by rw [h]; rfl⟩, fun c f c' hf ↦ ?_⟩
  rw [h] at hf
  cases hf

theorem tidy_pure (a : α) : Tidy (pure a) := tidy_of_ok (n := fun _ ↦ 0) fun _ ↦ rfl

theorem tidy_throw {f : Fault} (h : f.isRefusal = false) : Tidy (throw f : Reading α) := by
  refine ⟨fun _ ↦ ⟨0, rfl⟩, ?_⟩
  rintro c _ _ ⟨⟩
  exact h

theorem tidy_get : Tidy (get : Reading Cursor) := tidy_of_ok (n := fun _ ↦ 0) fun _ ↦ rfl

theorem Tidy.bind {r : Reading α} {g : α → Reading β} (hr : Tidy r) (hg : ∀ a, Tidy (g a)) :
    Tidy (r >>= g) := by
  constructor
  · intro c
    obtain ⟨m, hm⟩ := hr.forward c
    change ∃ n, finalState (EStateM.bind r g c) = c.skip n
    unfold EStateM.bind
    cases h : r c with
    | ok a d =>
      obtain ⟨n, hn⟩ := (hg a).forward d
      rw [h] at hm
      exact ⟨m + n, by rw [hn, show d = c.skip m from hm, Cursor.skip_skip]⟩
    | error e d =>
      rw [h] at hm
      exact ⟨m, hm⟩
  · intro c f c' hf
    change EStateM.bind r g c = _ at hf
    unfold EStateM.bind at hf
    cases h : r c with
    | ok a d =>
      rw [h] at hf
      exact (hg a).unrefused hf
    | error f' d =>
      rw [h] at hf
      cases hf
      exact hr.unrefused h

theorem Tidy.ite {p : Prop} [Decidable p] {r s : Reading α} (hr : Tidy r) (hs : Tidy s) :
    Tidy (if p then r else s) := by
  split
  · exact hr
  · exact hs

theorem tidy_peek : Tidy peek := tidy_of_ok (n := fun _ ↦ 0) fun _ ↦ rfl

theorem tidy_skip (n : Nat) : Tidy (skip n) := tidy_of_ok fun _ ↦ rfl

theorem tidy_skipBlanks : Tidy skipBlanks := tidy_of_ok fun _ ↦ rfl

theorem tidy_skipSpaces : Tidy skipSpaces := tidy_of_ok fun _ ↦ rfl

theorem tidy_line : Tidy line := tidy_of_ok fun _ ↦ rfl

theorem tidy_span (find : Text → Option (α × Nat)) (expected : Text) :
    Tidy (span find expected) := by
  refine ⟨fun c ↦ ?_, fun c f c' hf ↦ ?_⟩
  · unfold span
    split <;> exact ⟨_, rfl⟩
  · unfold span at hf
    split at hf
    · cases hf
    · cases hf
      rfl

theorem tidy_expect (e : Char) : Tidy (expect e) :=
  tidy_skipBlanks.bind fun _ ↦ tidy_peek.bind fun _ ↦
    (tidy_skip 1).ite ((tidy_throw rfl).ite (tidy_throw rfl))

theorem tidy_bracketed (opener closer : Char) : Tidy (bracketed opener closer) :=
  tidy_span _ _

theorem tidy_bracketedTrimmed (opener closer : Char) :
    Tidy (bracketedTrimmed opener closer) :=
  (tidy_bracketed _ _).bind fun _ ↦ tidy_pure _

theorem tidy_enclosed (opener closer : Char) : Tidy (enclosed opener closer) :=
  tidy_get.bind fun _ ↦ tidy_skipBlanks.bind fun _ ↦ (tidy_expect _).bind fun _ ↦
    (tidy_bracketed _ _).bind fun _ ↦ tidy_pure _

theorem tidy_statement : Tidy statement := tidy_span _ _

theorem tidy_tail : Tidy tail := tidy_span _ _

theorem tidy_header : Tidy header := tidy_span _ _

theorem tidy_blockComment : Tidy blockComment := tidy_span _ _

theorem tidy_body (start : BodyStart) : Tidy (body start) := by
  cases start
  · exact (tidy_bracketed _ _).bind fun _ ↦ tidy_pure _
  · exact tidy_statement.bind fun _ ↦ tidy_pure _
  · exact tidy_pure _

theorem tidy_word (generics : Bool) : Tidy (word generics) :=
  tidy_skipBlanks.bind fun _ ↦ tidy_span _ _

theorem tidy_typeName : Tidy typeName :=
  (tidy_word _).bind fun _ ↦ (tidy_span _ _).bind fun _ ↦ tidy_pure _

theorem tidy_lineCommentKind : Tidy lineCommentKind :=
  tidy_peek.bind fun _ ↦
    ((tidy_skip 1).bind fun _ ↦ tidy_pure _).ite (tidy_pure _)

theorem tidy_comment? : Tidy comment? :=
  tidy_peek.bind fun _ ↦
    ((tidy_skip 1).bind fun _ ↦ tidy_lineCommentKind.bind fun _ ↦ tidy_line.bind
      fun _ ↦ tidy_pure _).ite
      (((tidy_skip 1).bind fun _ ↦ tidy_blockComment.bind fun _ ↦ tidy_pure _).ite
        (tidy_pure _))

theorem tidy_trailingComment? : Tidy trailingComment? :=
  tidy_skipSpaces.bind fun _ ↦ tidy_peek.bind fun _ ↦
    ((tidy_skip 1).bind fun _ ↦ tidy_comment?.bind fun found ↦ by
      cases found
      · exact tidy_throw rfl
      · exact tidy_pure _).ite (tidy_pure _)

theorem tidy_targetedName : Tidy targetedName :=
  (tidy_word _).bind fun _ ↦ tidy_skipBlanks.bind fun _ ↦ tidy_peek.bind fun _ ↦
    ((tidy_skip 1).bind fun _ ↦ (tidy_word _).bind fun _ ↦ tidy_skipBlanks.bind fun _ ↦
      tidy_pure _).ite (tidy_pure _)

theorem tidy_plainName : Tidy plainName :=
  (tidy_word _).bind fun _ ↦ tidy_skipBlanks.bind fun _ ↦ tidy_pure _

theorem tidy_attributeUse (isFirst : Bool) : Tidy (attributeUse isFirst) := by
  refine Tidy.bind ?_ fun _ ↦ (tidy_throw rfl).ite (tidy_peek.bind fun _ ↦
    ((tidy_enclosed _ _).bind fun _ ↦ tidy_pure _).ite (tidy_pure _))
  cases isFirst
  · exact tidy_plainName
  · exact tidy_targetedName

theorem tidy_attributeSeparator : Tidy attributeSeparator :=
  tidy_skipBlanks.bind fun _ ↦ tidy_peek.bind fun _ ↦
    ((tidy_skip 1).bind fun _ ↦ tidy_pure _).ite
      (((tidy_skip 1).bind fun _ ↦ tidy_pure _).ite
        ((tidy_throw rfl).ite (tidy_throw rfl)))

end Reading

/-! ## Work on drafts -/

namespace Drafting

/-- Work on a draft that is built from basic operations. The type parameters of an element that is
created come from names and from clauses that constrain them. -/
inductive Built : {α : Type} → Drafting α → Prop
  | look {α : Type} (f : Draft → α) : Built fun d ↦ .ok (f d) d
  | alter {α : Type} (f : Draft → α) (g : Block → Block) :
      Built fun d ↦ .ok (f d) { d with block := g d.block }
  | throw {α : Type} (f : Fault) : Built (throw f : Drafting α)
  | read {α : Type} {r : Reading α} (h : r.Tidy) : Built (read r)
  | create {name clauses : Text} {e : Element} {names : List Text}
      (h : applyConstraints clauses (typeParametersOf names) = .ok e.typeParameters) :
      Built (create name e)
  | copyAs (first : ElementId) (n : DeclaredName) : Built (copyAs first n)
  | addRoot (id : ElementId) : Built (edit fun t ↦ t.addRoot id)
  | addChild (owner id : ElementId) : Built (edit fun t ↦ t.addChild owner id)
  | addHeaderComment (owner id : ElementId) : Built (edit fun t ↦ t.addHeaderComment owner id)
  | addAttribute (owner id : ElementId) : Built (edit fun t ↦ t.addAttribute owner id)
  | setOtherwise (id : ElementId) (branch : Option ElementId) :
      Built (edit fun t ↦ t.setOtherwise id branch)
  | bind {α β : Type} {x : Drafting α} {f : α → Drafting β} (hx : Built x)
      (hf : ∀ a, Built (f a)) : Built (x >>= f)

/-- The work only moves the cursor forward. -/
def Forward {α : Type} (x : Drafting α) : Prop :=
  ∀ d, ∃ n, (finalState (x d)).cursor = d.cursor.skip n

variable {α β : Type}

/-- Where a sequence succeeds, both of its parts do. -/
theorem bind_eq_ok {σ : Type} {x : EStateM Fault σ α} {f : α → EStateM Fault σ β} {d d'' : σ}
    {b : β} : (x >>= f) d = .ok b d'' ↔ ∃ a d', x d = .ok a d' ∧ f a d' = .ok b d'' := by
  change EStateM.bind x f d = _ ↔ _
  unfold EStateM.bind
  cases x d with
  | ok a d' => simp [and_assoc]
  | error e d' => simp

theorem Forward.bind {x : Drafting α} {f : α → Drafting β} (hx : Forward x)
    (hf : ∀ a, Forward (f a)) : Forward (x >>= f) := by
  intro d
  obtain ⟨m, hm⟩ := hx d
  change ∃ n, (finalState (EStateM.bind x f d)).cursor = d.cursor.skip n
  unfold EStateM.bind
  cases h : x d with
  | ok a e =>
    obtain ⟨n, hn⟩ := hf a e
    rw [h] at hm
    exact ⟨m + n, by rw [hn, show e.cursor = d.cursor.skip m from hm, Cursor.skip_skip]⟩
  | error f e =>
    rw [h] at hm
    exact ⟨m, hm⟩

theorem forward_edit (change : Tree → Except Refusal Tree) : Forward (edit change) := by
  intro d
  unfold edit
  split <;> exact ⟨0, rfl⟩

theorem Built.forward {x : Drafting α} (h : Built x) : Forward x := by
  induction h with
  | look | alter | throw | create => exact fun _ ↦ ⟨0, rfl⟩
  | @read _ r hr =>
    intro d
    obtain ⟨n, hn⟩ := hr.forward d.cursor
    refine ⟨n, ?_⟩
    unfold Drafting.read
    cases h : r d.cursor <;> rw [h] at hn <;> exact hn
  | copyAs =>
    intro d
    unfold Drafting.copyAs
    split <;> exact ⟨0, rfl⟩
  | addRoot | addChild | addHeaderComment | addAttribute | setOtherwise => exact forward_edit _
  | bind _ _ hx hf => exact hx.bind hf

theorem built_pure (a : α) : Built (pure a) := .look fun _ ↦ a

theorem built_get : Built (get : Drafting Draft) := .look id

theorem built_block : Built block := .look Draft.block

theorem built_nameOf (id : ElementId) : Built (nameOf id) := .look fun d ↦ d.tree.nameOf id

theorem built_modifyBlock (f : Block → Block) : Built (modifyBlock f) := .alter (fun _ ↦ ()) f

/-- An element without type parameters. -/
theorem built_create (name : Text) {e : Element} (h : e.typeParameters = []) :
    Built (create name e) := by
  have hnone : applyConstraints [] (typeParametersOf []) = .ok e.typeParameters := by rw [h]; rfl
  exact .create hnone

theorem Built.ite {p : Prop} [Decidable p] {x y : Drafting α} (hx : Built x) (hy : Built y) :
    Built (if p then x else y) := by
  split
  · exact hx
  · exact hy

theorem Built.ofExcept_bind {e : Except Fault α} {f : α → Drafting β}
    (hf : ∀ a, e = .ok a → Built (f a)) : Built (ofExcept e >>= f) := by
  cases e with
  | ok a => exact hf a rfl
  | error e => exact .throw e

theorem built_push (c : Char) : Built (push c) := built_modifyBlock _

theorem built_pushBracketed (opener closer : Char) (t : Text) :
    Built (pushBracketed opener closer t) := built_modifyBlock _

theorem built_takeText : Built takeText :=
  .alter (fun d ↦ Text.trim d.block.text) fun b ↦ { b with text := [] }

theorem built_takeComments : Built takeComments :=
  .alter (fun d ↦ d.block.comments) fun b ↦ { b with comments := [] }

theorem built_takeAttributes : Built takeAttributes :=
  .alter (fun d ↦ d.block.attributes) fun b ↦ { b with attributes := [] }

theorem built_attach (id : ElementId) : Built (attach id) :=
  built_block.bind fun b ↦ by
    cases b.scopes
    · exact built_modifyBlock _
    · exact .addChild _ _

theorem built_attachAll (ids : List ElementId) : Built (attachAll ids) := by
  induction ids with
  | nil => exact built_pure _
  | cons id ids ih => exact (built_attach id).bind fun _ ↦ ih

theorem built_emit (ids : List ElementId) : Built (emit ids) :=
  (built_attachAll ids).bind fun _ ↦ built_pure _

theorem built_editAll {change : ElementId → Tree → Except Refusal Tree}
    (h : ∀ id, Built (edit (change id))) (ids : List ElementId) : Built (editAll change ids) := by
  induction ids with
  | nil => exact built_pure _
  | cons id ids ih => exact (h id).bind fun _ ↦ ih

theorem built_applyHeader (id : ElementId) : Built (applyHeader id) :=
  built_takeComments.bind fun _ ↦ (built_editAll (.addHeaderComment id) _).bind fun _ ↦
    built_takeAttributes.bind fun _ ↦ built_editAll (.addAttribute id) _

theorem built_flushComments : Built flushComments :=
  built_takeComments.bind fun _ ↦ built_attachAll _

theorem built_adoptComments (owner : ElementId) : Built (adoptComments owner) :=
  built_takeComments.bind fun _ ↦ built_editAll (.addChild owner) _

theorem built_checkNoAttributes : Built checkNoAttributes :=
  built_block.bind fun b ↦ by
    cases b.attributes
    · exact built_pure _
    · exact (built_nameOf _).bind fun _ ↦ .throw _

theorem built_withTrailingComment (ids : List ElementId) : Built (withTrailingComment ids) :=
  (Built.read tidy_trailingComment?).bind fun found ↦ by
    cases found
    · exact built_pure _
    · exact (built_create _ rfl).bind fun _ ↦ built_pure _

theorem built_emitMember (id : ElementId) : Built (emitMember id) :=
  (built_applyHeader id).bind fun _ ↦ (built_withTrailingComment _).bind fun _ ↦
    built_emit _

theorem built_finishBlock : Built finishBlock := by
  refine built_takeText.bind fun text ↦ built_block.bind fun b ↦ (Built.throw _).ite ?_
  split
  · exact (built_nameOf _).bind fun _ ↦ .throw _
  · exact (built_nameOf _).bind fun _ ↦ .throw _
  · exact built_checkNoAttributes.bind fun _ ↦ built_flushComments.bind fun _ ↦
      built_block.bind fun _ ↦ built_pure _

/-! ## Scopes -/

theorem built_openRegion (name : Text) (isDirective : Bool) :
    Built (openRegion name isDirective) :=
  built_checkNoAttributes.bind fun _ ↦ built_flushComments.bind fun _ ↦
    (built_create _ rfl).bind fun _ ↦ (built_modifyBlock _).bind fun _ ↦ built_pure _

theorem built_closeScope (id : ElementId) : Built (closeScope id) :=
  (built_modifyBlock _).bind fun _ ↦ built_emit _

theorem built_closeRegion : Built closeRegion := by
  refine built_checkNoAttributes.bind fun _ ↦ built_block.bind fun b ↦ ?_
  split
  · exact (built_adoptComments _).bind fun _ ↦ built_closeScope _
  · exact .throw _

theorem built_openConditional (condition : Text) : Built (openConditional condition) :=
  built_checkNoAttributes.bind fun _ ↦ built_flushComments.bind fun _ ↦
    (built_create _ rfl).bind fun _ ↦ (built_modifyBlock _).bind fun _ ↦ built_pure _

theorem built_innermostConditional (directive : Text) :
    Built (innermostConditional directive) := by
  refine built_block.bind fun b ↦ ?_
  split
  · exact built_pure _
  · exact (built_nameOf _).bind fun _ ↦ .throw _
  · exact .throw _

theorem built_nextBranch (condition : Option Text) (directive : Text) :
    Built (nextBranch condition directive) :=
  built_checkNoAttributes.bind fun _ ↦ (built_innermostConditional _).bind fun _ ↦
    built_get.bind fun _ ↦ (Built.throw _).ite ((built_adoptComments _).bind fun _ ↦
      (built_create _ rfl).bind fun _ ↦ (Built.setOtherwise _ _).bind fun _ ↦
        (built_modifyBlock _).bind fun _ ↦ built_pure _)

theorem built_closeConditional : Built closeConditional :=
  built_checkNoAttributes.bind fun _ ↦ (built_innermostConditional _).bind fun _ ↦
    (built_adoptComments _).bind fun _ ↦ built_closeScope _

theorem built_carryOut (name argument : Text) : Built (carryOut name argument) :=
  (built_openRegion _ _).ite (built_closeRegion.ite ((built_openConditional _).ite
    ((built_nextBranch _ _).ite ((built_nextBranch _ _).ite
      (built_closeConditional.ite (.throw _))))))

theorem built_directive : Built directive :=
  (Built.read tidy_line).bind fun _ ↦ built_block.bind fun _ ↦
    (Built.throw _).ite (built_carryOut _ _)

theorem built_keepComment (c : Comment) : Built (keepComment c) :=
  (built_create _ rfl).bind fun _ ↦ (built_modifyBlock _).bind fun _ ↦ built_pure _

theorem built_placeComment (m : RegionMarkers) (c : Comment) : Built (placeComment m c) := by
  refine Built.ite ?_ (built_keepComment c)
  split
  · exact built_openRegion _ _
  · exact built_closeRegion.ite (built_keepComment c)

theorem built_slash (m : RegionMarkers) : Built (slash m) :=
  (Built.read tidy_comment?).bind fun found ↦ by
    cases found
    · exact (built_push _).bind fun _ ↦ built_pure _
    · exact built_placeComment m _

/-! ## Attributes -/

theorem built_furtherAttributes (head : ElementId) (n : Nat) :
    Built (furtherAttributes head n) := by
  induction n with
  | zero => exact .throw _
  | succ n ih =>
    exact (Built.read tidy_attributeSeparator).bind fun _ ↦
      ((Built.read (tidy_attributeUse _)).bind fun _ ↦ (built_create _ rfl).bind
        fun _ ↦ (Built.addChild _ _).bind fun _ ↦ ih).ite (built_pure _)

theorem built_attributeList : Built attributeList :=
  (Built.read (tidy_attributeUse _)).bind fun _ ↦ (built_create _ rfl).bind fun _ ↦
    built_get.bind fun _ ↦ (built_furtherAttributes _ _).bind fun _ ↦ built_pure _

theorem built_squareBracket : Built squareBracket :=
  built_block.bind fun _ ↦
    ((Built.read (tidy_bracketedTrimmed _ _)).bind fun _ ↦
      (built_pushBracketed _ _ _).bind fun _ ↦ built_pure _).ite
      (built_attributeList.bind fun _ ↦
        (built_flushComments.bind fun _ ↦ built_emit _).ite
          ((built_modifyBlock _).bind fun _ ↦ built_pure _))

/-! ## Members -/

theorem built_copiesAs (first : ElementId) (names : List DeclaredName) :
    Built (copiesAs first names) := by
  induction names with
  | nil => exact built_pure _
  | cons n ns ih =>
    exact (Built.copyAs _ _).bind fun _ ↦ ih.bind fun _ ↦ built_pure _

theorem built_emitNames (isField : Bool) (first : ElementId) (names : List DeclaredName) :
    Built (emitNames isField first names) :=
  (built_applyHeader _).bind fun _ ↦ (built_copiesAs _ _).bind fun _ ↦
    (built_emit _).ite ((built_withTrailingComment _).bind fun _ ↦ built_emit _)

theorem exists_methodName_eq (s : Signature) :
    ∃ names, s.methodName.2.2 = typeParametersOf names := by
  unfold Signature.methodName
  split
  · exact ⟨[], rfl⟩
  · exact ⟨_, rfl⟩

theorem built_method (s : Signature) : Built (method s) := by
  obtain ⟨names, hnames⟩ := exists_methodName_eq s
  refine (Built.read (tidy_bracketed _ _)).bind fun _ ↦
    (Built.read tidy_tail).bind fun _ ↦ (Built.read (tidy_body _)).bind fun _ ↦
      .ofExcept_bind fun ps (hps : applyConstraints _ s.methodName.2.2 = _) ↦ ?_
  rw [hnames] at hps
  exact .create hps

theorem built_constructor (s : Signature) : Built (constructor s) :=
  (Built.read (tidy_bracketed _ _)).bind fun _ ↦
    (Built.read tidy_tail).bind fun _ ↦ .ofExcept_bind fun _ _ ↦
      (Built.read (tidy_body _)).bind fun _ ↦ built_create _ rfl

theorem built_delegate (s : Signature) : Built (delegate s) :=
  (Built.read (tidy_bracketed _ _)).bind fun _ ↦
    (Built.read tidy_tail).bind fun _ ↦
      (built_get.bind fun _ ↦ .throw _).ite (.ofExcept_bind fun _ hps ↦ .create hps)

theorem built_parameterized (s : Signature) (kind : Kind) : Built (parameterized s kind) := by
  unfold parameterized
  split
  · exact built_delegate s
  · exact built_constructor s
  · exact built_method s

theorem built_parenthesis : Built parenthesis :=
  built_block.bind fun _ ↦
    ((Built.read (tidy_bracketedTrimmed _ _)).bind fun _ ↦
      (built_modifyBlock _).bind fun _ ↦ built_pure _).ite
      (built_takeText.bind fun _ ↦ .ofExcept_bind fun _ _ ↦ .ofExcept_bind fun _ _ ↦
        (built_parameterized _ _).bind fun _ ↦ built_emitMember _)

theorem built_semicolon : Built semicolon :=
  built_takeText.bind fun _ ↦ (built_pure _).ite (.ofExcept_bind fun _ _ ↦
    .ofExcept_bind fun _ _ ↦
      ((built_create _ rfl).bind fun _ ↦ built_emitNames _ _ _).ite
        ((Built.read tidy_trailingComment?).bind fun _ ↦
          (built_create _ rfl).bind fun _ ↦ built_emitNames _ _ _))

theorem built_initialValue (text : Text) : Built (initialValue text) :=
  .ofExcept_bind fun _ _ ↦ .ofExcept_bind fun _ _ ↦
    (Built.read tidy_statement).bind fun _ ↦
      ((Built.read tidy_trailingComment?).bind fun _ ↦ .ofExcept_bind fun _ _ ↦
        (built_create _ rfl).bind fun _ ↦ built_emitNames _ _ _).ite
        (.ofExcept_bind fun _ _ ↦ (built_create _ rfl).bind fun _ ↦ built_emitNames _ _ _)

theorem built_expressionBody (text : Text) : Built (expressionBody text) :=
  .ofExcept_bind fun _ _ ↦ .ofExcept_bind fun _ _ ↦
    (Built.read tidy_statement).bind fun _ ↦ (built_create _ rfl).bind fun _ ↦
      built_emitMember _

theorem built_equalsSign : Built equalsSign :=
  built_takeText.bind fun _ ↦ (Built.throw _).ite
    ((Built.read tidy_peek).bind fun _ ↦
      ((Built.read (tidy_skip 1)).bind fun _ ↦ built_expressionBody _).ite
        (built_initialValue _))

theorem built_propertyValue : Built propertyValue :=
  (Built.read tidy_skipBlanks).bind fun _ ↦
    (Built.read tidy_peek).bind fun _ ↦
      ((Built.read (tidy_skip 1)).bind fun _ ↦
        (Built.read tidy_statement).bind fun _ ↦ built_pure _).ite
        (built_pure _)

theorem built_brace : Built brace :=
  built_takeText.bind fun _ ↦ (Built.throw _).ite (.ofExcept_bind fun _ _ ↦
    .ofExcept_bind fun _ _ ↦ (Built.read (tidy_bracketed _ _)).bind fun _ ↦
      ((built_create _ rfl).bind fun _ ↦ built_emitMember _).ite
        (built_propertyValue.bind fun _ ↦ (built_create _ rfl).bind fun _ ↦
          built_emitMember _))

/-! ## Namespaces, using directives and types -/

theorem built_openNamespace : Built openNamespace :=
  (Built.read (tidy_word _)).bind fun _ ↦ (Built.throw _).ite
    ((Built.read tidy_skipBlanks).bind fun _ ↦
      (Built.read tidy_peek).bind fun _ ↦
        ((Built.read (tidy_skip 1)).bind fun _ ↦ (built_create _ rfl).bind fun _ ↦
          built_pure _).ite
          (((Built.read (tidy_skip 1)).bind fun _ ↦ (built_create _ rfl).bind
            fun _ ↦ built_pure _).ite ((Built.throw _).ite (.throw _))))

theorem tidy_aliasTarget : aliasTarget.Tidy :=
  tidy_skipBlanks.bind fun _ ↦ tidy_peek.bind fun _ ↦
    ((tidy_skip 1).bind fun _ ↦ (tidy_bracketedTrimmed _ _).bind fun _ ↦
      tidy_pure _).ite tidy_typeName

theorem tidy_aliasClause? (name : Text) : (aliasClause? name).Tidy :=
  tidy_skipBlanks.bind fun _ ↦ tidy_peek.bind fun _ ↦
    ((tidy_skip 1).bind fun _ ↦ tidy_aliasTarget.bind fun _ ↦
      (tidy_throw rfl).ite (tidy_pure _)).ite (tidy_pure _)

theorem tidy_usingName : usingName.Tidy :=
  (tidy_word _).bind fun _ ↦
    ((tidy_word _).bind fun _ ↦ tidy_pure _).ite (tidy_pure _)

theorem built_usingDirective : Built usingDirective :=
  (Built.read tidy_usingName).bind fun _ ↦ (Built.throw _).ite
    ((Built.read (tidy_aliasClause? _)).bind fun _ ↦
      (Built.read (tidy_expect _)).bind fun _ ↦ (built_create _ rfl).bind fun _ ↦
        built_emitMember _)

theorem tidy_skipSemicolon : skipSemicolon.Tidy :=
  tidy_skipSpaces.bind fun _ ↦ tidy_peek.bind fun _ ↦
    (tidy_skip 1).ite (tidy_pure _)

theorem withHeader_eq_ok {header : Text} {t t' : TypeDeclaration}
    (h : withHeader header t = .ok t') :
    ∃ clauses, applyConstraints clauses t.typeParameters = .ok t'.typeParameters := by
  unfold withHeader at h
  dsimp only at h
  generalize basesOf _ = bases at h
  generalize hps : applyConstraints _ t.typeParameters = ps at h
  cases bases with
  | error f => cases h
  | ok bases =>
    cases ps with
    | error f => cases h
    | ok ps =>
      cases h
      exact ⟨_, hps⟩

theorem built_openType (words : List Text) : Built (openType words) := by
  refine .ofExcept_bind fun s _ ↦ ?_
  split
  · refine (Built.read (tidy_word _)).bind fun _ ↦ (Built.throw _).ite
      ((Built.read tidy_header).bind fun _ ↦ .ofExcept_bind fun t ht ↦ ?_)
    obtain ⟨clauses, hps⟩ := withHeader_eq_ok ht
    exact ((Built.read (tidy_bracketed _ _)).bind fun _ ↦ (Built.create hps).bind
      fun _ ↦ (Built.read tidy_skipSemicolon).bind fun _ ↦
        (built_emitMember _).bind fun _ ↦ built_pure _).ite
          ((Built.create hps).bind fun _ ↦ built_pure _)
  · exact .throw _

theorem built_wordEnd : Built wordEnd := by
  refine built_block.bind fun b ↦ ?_
  dsimp only
  split
  · exact built_pure _
  · exact ((built_modifyBlock _).bind fun _ ↦ built_openNamespace).ite
      (((built_modifyBlock _).bind fun _ ↦ built_usingDirective.bind fun _ ↦
        built_pure _).ite
        (((built_modifyBlock _).bind fun _ ↦ built_openType _).ite (built_pure _)))

/-! ## Steps -/

theorem built_blank : Built blank :=
  (built_modifyBlock _).bind fun _ ↦ built_pure _

theorem built_questionMark : Built questionMark :=
  (built_modifyBlock _).bind fun _ ↦ built_pure _

theorem built_angleBracket : Built angleBracket :=
  (Built.read (tidy_bracketedTrimmed _ _)).bind fun _ ↦
    (built_pushBracketed _ _ _).bind fun _ ↦ built_pure _

theorem built_letter (c : Char) : Built (letter c) :=
  (built_push c).bind fun _ ↦ (Built.read tidy_peek).bind fun _ ↦
    built_wordEnd.ite (built_pure _)

theorem Built.done {x : Drafting Step} (hx : Built x) : Built (done x) :=
  hx.bind fun _ ↦ built_pure _

theorem built_react (m : RegionMarkers) (c : Char) : Built (react m c) :=
  built_block.bind fun _ ↦
    (built_slash m).done.ite (built_directive.done.ite (built_squareBracket.done.ite
      (built_angleBracket.done.ite (built_questionMark.done.ite (built_blank.done.ite
        (built_parenthesis.done.ite (built_semicolon.done.ite (built_equalsSign.done.ite
          (built_brace.done.ite (built_letter c))))))))))

theorem peek_ne_endMark {c : Cursor} (h : c.peek ≠ endMark) : c.rest ≠ [] := by
  intro hc
  exact h (by simp [Cursor.peek, hc])

/-- A step that does not end the block passes at least one character. -/
theorem advance_passes {m : RegionMarkers} {d : Draft} (h : endsBlock d.cursor.peek = false) :
    d.cursor.rest ≠ [] ∧
      ∃ n, (finalState (advance m d)).cursor = d.cursor.skip (n + 1) := by
  refine ⟨peek_ne_endMark fun hp ↦ ?_, ?_⟩
  · simp [endsBlock, hp] at h
  · obtain ⟨n, hn⟩ := (built_react m d.cursor.peek).forward { d with cursor := d.cursor.advance }
    exact ⟨n, by simpa [advance, h] using hn⟩

end Drafting

end SharpOutline
