import SharpOutline.Proofs.Block.Foreseen
import SharpOutline.Proofs.Block.Gains

/-!
# Operations that declare something

The end of a signature and the keywords all start operations of one form. Something is read, values
are made of it, and in the end an element is created. It is added to the block with its header, as
the first of several names perhaps, or it opens a block of its own. Such an operation may fail at
any point before the element is there. `Drafting.Declaring` says this once, so that a property of
these operations has to be checked for the parts of which they are made only.
-/

namespace SharpOutline

namespace Drafting

/-- The operation reads until it adds a new declaration, or opens the block of one. What its result
signals is said by `r`. -/
inductive Declaring : {α : Type} → (α → Signal) → Drafting α → Prop
  | fails {α : Type} {r : α → Signal} {p : Drafting α}
      (h : ∀ d, ∃ f, f.Foreseen ∧ p d = .error f d) : Declaring r p
  | read {α β : Type} {r : β → Signal} {s : Reading α} {q : α → Drafting β} (hs : s.Tidy)
      (hq : ∀ a, Declaring r (q a)) : Declaring r (read s >>= q)
  | value {α β : Type} {r : β → Signal} {e : Except Fault α} {q : α → Drafting β}
      (he : Foreseeable e) (hq : ∀ a, Declaring r (q a)) : Declaring r (ofExcept e >>= q)
  | takeText {β : Type} {r : β → Signal} {q : Text → Drafting β}
      (hq : ∀ t, Declaring r (q t)) : Declaring r (takeText >>= q)
  | member {name : Text} {e : Element} (he : e.kind.isDeclaration = true) :
      Declaring .done (create name e >>= emitMember)
  | names {name : Text} {e : Element} {isField : Bool} {names : List DeclaredName}
      (he : e.kind.isDeclaration = true) :
      Declaring .done (create name e >>= fun x ↦ emitNames isField x names)
  /-- An enumeration, of which the end is read before it is added. -/
  | closed {name : Text} {e : Element} {s : Reading Unit} (he : e.kind.isDeclaration = true)
      (hs : s.Tidy) : Declaring id (do
        let x ← create name e
        read s
        let step ← emitMember x
        return .done step)
  | opened {name : Text} {e : Element} {ending : Ending} (he : e.kind.isDeclaration = true)
      (hfile : ending = .outerEnd → e = .nameSpace true) :
      Declaring id (create name e >>= fun x ↦ pure (.opened x ending))

namespace Declaring

variable {α : Type} {r : α → Signal} {p p' : Drafting α}

theorem throw {f : Fault} (h : f.Foreseen) : Declaring r (throw f) := .fails fun _ ↦ ⟨f, h, rfl⟩

theorem ite {c : Prop} [Decidable c] (hp : Declaring r p) (hp' : Declaring r p') :
    Declaring r (if c then p else p') := by
  split
  · exact hp
  · exact hp'

end Declaring

open Reading

/-! ## Members -/

theorem declaring_parameterized (s : Signature) (kind : Kind) :
    Declaring .done (parameterized s kind >>= emitMember) := by
  unfold parameterized
  split
  · rw [delegate]
    simp only [bind_assoc]
    refine .read (tidy_bracketed _ _) fun _ ↦ .read tidy_tail fun _ ↦ ?_
    split
    · exact .fails fun d ↦ ⟨.expectedCharacter ';' d.cursor.current, trivial, rfl⟩
    · rw [bind_assoc]
      exact .value (foreseeable_applyConstraints _ _) fun _ ↦ .member rfl
  · simp only [constructor, bind_assoc]
    exact .read (tidy_bracketed _ _) fun _ ↦ .read tidy_tail fun _ ↦
      .value (foreseeable_constructorCall _) fun _ ↦ .read (tidy_body _) fun _ ↦ .member rfl
  · simp only [method, bind_assoc]
    exact .read (tidy_bracketed _ _) fun _ ↦ .read tidy_tail fun _ ↦ .read (tidy_body _) fun _ ↦
      .value (foreseeable_applyConstraints _ _) fun _ ↦ .member rfl

/-- A signature with its parameters. -/
theorem declaring_signature (text : Text) : Declaring .done (do
    let s ← ofExcept (Signature.ofWords (phraseWords text))
    let kind ← ofExcept (s.declares .parameters)
    let id ← parameterized s kind
    emitMember id) :=
  .value (Signature.foreseeable_ofWords _) fun s ↦ .value (s.foreseeable_declares _) fun kind ↦
    declaring_parameterized s kind

/-- A semicolon does nothing behind blanks. -/
theorem declaring_semicolon : ∃ q : Text → Drafting Step, (∀ text, Declaring .done (q text)) ∧
    semicolon = takeText >>= fun text ↦ if text.isEmpty then pure .more else q text := by
  refine ⟨_, fun text ↦ ?_, rfl⟩
  exact .value (foreseeable_declaredNames text) fun r ↦ .value (r.1.foreseeable_declares _)
    fun _ ↦ .ite (.names rfl) (.read tidy_trailingComment? fun _ ↦ .names rfl)

theorem declaring_initialValue (text : Text) : Declaring .done (initialValue text) :=
  .value (foreseeable_declaredNames text) fun r ↦ .value (r.1.foreseeable_declares _) fun _ ↦
    .read tidy_statement fun value ↦ .ite
      (.read tidy_trailingComment? fun _ ↦
        .value (foreseeable_initializedNames text value _ _) fun _ ↦ .names rfl)
      (.value (foreseeable_initializedNames text value _ _) fun _ ↦ .names rfl)

theorem declaring_expressionBody (text : Text) : Declaring .done (expressionBody text) :=
  .value (Signature.foreseeable_ofWords _) fun s ↦ .value (s.foreseeable_declares _) fun _ ↦
    .read tidy_statement fun _ ↦ .member rfl

theorem declaring_equalsSign : Declaring .done equalsSign :=
  .takeText fun text ↦ .ite (.throw trivial) (.read tidy_peek fun _ ↦
    .ite (.read (tidy_skip 1) fun _ ↦ declaring_expressionBody text) (declaring_initialValue text))

theorem declaring_brace : Declaring .done brace := by
  refine .takeText fun text ↦ .ite (.throw trivial) <| .value (Signature.foreseeable_ofWords _)
    fun s ↦ .value (s.foreseeable_declares _) fun _ ↦ .read (tidy_bracketed _ _) fun _ ↦
      .ite (.member rfl) ?_
  simp only [propertyValue, bind_assoc]
  refine .read tidy_skipBlanks fun _ ↦ .read tidy_peek fun _ ↦ ?_
  split
  · simp only [bind_assoc, pure_bind]
    exact .read (tidy_skip 1) fun _ ↦ .read tidy_statement fun _ ↦ .member rfl
  · rw [pure_bind]
    exact .member rfl

/-! ## Namespaces, using directives and types -/

theorem declaring_openNamespace : Declaring id openNamespace :=
  .read (tidy_word _) fun _ ↦ .ite (.throw trivial) <| .read tidy_skipBlanks fun _ ↦
    .read tidy_peek fun _ ↦ .ite (.read (tidy_skip 1) fun _ ↦ .opened rfl fun _ ↦ rfl) <|
      .ite (.read (tidy_skip 1) fun _ ↦ .opened rfl nofun) (.ite (.throw trivial) (.throw trivial))

theorem declaring_usingDirective : Declaring .done usingDirective :=
  .read tidy_usingName fun _ ↦ .ite (.throw trivial) <| .read (tidy_aliasClause? _) fun _ ↦
    .read (tidy_expect _) fun _ ↦ .member rfl

theorem declaring_openType (words : List Text) : Declaring id (openType words) := by
  refine .value (Signature.foreseeable_ofKeywords words) fun s ↦ ?_
  split
  · exact .read (tidy_word _) fun _ ↦ .ite (.throw trivial) <| .read tidy_header fun _ ↦
      .value (foreseeable_withHeader _ _) fun _ ↦ .ite
        (.read (tidy_bracketed _ _) fun _ ↦ .closed rfl tidy_skipSemicolon) (.opened rfl nofun)
  · exact .throw trivial

end Drafting

end SharpOutline
