import SharpOutline.Proofs.Block.Declarators
import SharpOutline.Proofs.Block.QualifiedNames
import SharpOutline.Proofs.Block.WrittenSignatures
import SharpOutline.Proofs.Layout.Bodies

/-!
# Members are read back

The lines of a field, an event, a property, a method, a constructor or a delegate add one
declaration of the same kind under the same name. A field is read back as it was; of the others the
blanks around parameters, expressions and accessors may be lost, and bodies are moved.

All of them begin with a row of words (`Signature.written`), and the character behind the row says
what follows (`declares_row`). Behind the accessors of a property the reader looks for a value, over
all blanks; so what is read there depends on what stands below the property.
-/

namespace SharpOutline

open Drafting SharpOutline.Tree Machine Reading

/-! ## Rows of words -/

namespace Signature

variable {m : RegionMarkers} {g : Signature} {t : Tree} {b : Block} {c : Char} {u v : Text}

/-- The row of the signature consists of keywords and identifiers, and it does not declare a
type. -/
@[mk_iff]
structure IsPlain (g : Signature) : Prop where
  modifiers : Modifiers.full.contains g.modifiers = true
  kind : g.kind ∈ [SignatureKind.member, .event, .delegate]
  type : ∀ w ∈ g.returnType, isIdentifier w = true ∧ isKeyword w = false
  name : isIdentifier g.name = true ∧ isKeyword g.name = false
  operator : g.operator = none

instance (g : Signature) : Decidable g.IsPlain := decidable_of_iff _ (isPlain_iff g).symm

namespace IsPlain

theorem isRegular (h : g.IsPlain) : g.IsRegular where
  modifiers := h.modifiers
  type w hw := by
    obtain ⟨hw, hkeyword⟩ := h.type w hw
    rw [leadingIdentifier_of_forall fun c hc ↦ isIdentifierCharacter_of_mem hw hc]
    exact ⟨.identifier hw, isDeclarationWord_of_isKeyword hkeyword,
      ne_operator_of_isKeyword hkeyword⟩
  name := ⟨h.name.1, isDeclarationWord_of_isKeyword h.name.2⟩
  operator := h.operator

theorem isWord_name (h : g.IsPlain) : IsWord g.name := isWord_of_isIdentifier h.name.1

theorem startsNothing_keyword (h : g.IsPlain) {w : Text} (hw : w ∈ g.keywords) (ws : List Text) :
    StartsNothing ws w := by
  rcases List.mem_append.mp hw with hw | hw
  · exact startsNothing_of_isLeadingWord (isLeadingWord_of_mem_leadingWords w hw)
  · rcases mem_closingWords_iff.mp hw with ⟨rfl, -⟩ | ⟨rfl, -⟩ | ⟨rfl, -⟩ | ⟨rfl, -⟩
    · exact startsNothing_of_isLeadingWord (by decide)
    · exact startsNothing_of_isLeadingWord (by decide)
    · exact startsNothing_of_isLeadingWord (by decide)
    · have hkind := h.kind
      simp only [List.mem_cons, List.not_mem_nil, or_false] at hkind
      rcases hkind with hkind | hkind | hkind <;> rw [hkind] <;>
        exact startsNothing_of_ne (by decide) (by decide) fun k ↦ by cases k <;> decide

theorem words (h : g.IsPlain) : ∀ w ∈ g.keywords ++ g.returnType.toList,
    IsWord w ∧ (∀ ws, StartsNothing ws w) ∧ ∀ c ∈ w, isMild c = true := by
  refine List.forall_mem_append.mpr ⟨fun w hw ↦ ?_, fun w hw ↦ ?_⟩
  · have hword := isDeclarationWord_of_mem_keywords w hw
    exact ⟨isWord_of_isDeclarationWord hword, h.startsNothing_keyword hw, fun c hc ↦
      isMild_of_isNameCharacter ((isNameCharacter_of_isDeclarationWord hword).2 c hc)⟩
  · obtain ⟨hw, hkeyword⟩ := h.type w (by simpa using hw)
    exact ⟨isWord_of_isIdentifier hw, fun _ ↦ startsNothing_of_isKeyword hkeyword,
      fun _ ↦ isMild_of_isIdentifier hw⟩

theorem written_ne_nil (h : g.IsPlain) : g.written ≠ [] := by
  simp [h.isRegular.written_eq, h.isWord_name.1]

theorem trim_written (h : g.IsPlain) : Text.trim g.written = g.written := by
  rw [h.isRegular.written_eq]
  exact trim_spaced_append (fun w hw ↦ (h.words w hw).1) h.isWord_name

theorem ofWords_eq (h : g.IsPlain) : ofWords (phraseWords g.written) = .ok g := by
  rw [h.isRegular.phraseWords_written]
  refine ofWords_eq_ok_iff.mpr ⟨(g.bare, g.returnType.toList ++ [g.name]), ?_,
    h.isRegular.completed_eq _⟩
  exact (strip_eq_ok_iff isDeclarationWord_of_mem_keywords
    h.isRegular.isDeclarationWord_head?).mpr ⟨isStatedBy_keywords h.modifiers, rfl⟩

theorem declaredNames_eq (h : g.IsPlain) :
    declaredNames g.written = .ok (g, { name := g.name }, []) := by
  have hmild : ∀ c ∈ g.written, isMild c = true := by
    rw [h.isRegular.written_eq]
    exact List.forall_mem_append.mpr ⟨forall_mem_spaced (by decide) fun w hw ↦ (h.words w hw).2.2,
      fun _ ↦ isMild_of_isIdentifier h.name.1⟩
  rw [declaredNames, listParts_of_isMild hmild, h.trim_written]
  dsimp only
  rw [h.ofWords_eq]
  rfl

/-- A row and the blanks behind it are kept up to the character that ends the row. -/
theorem passes (h : g.IsPlain) (hb : b.text = []) (hu : ∀ d ∈ u, isBlank d = true)
    (hc : endsWord c = true) : Passes m ⟨g.written ++ (u ++ c :: v), t, b⟩
      ⟨c :: v, t, { b with text := g.written ++ if u.isEmpty then [] else [' '] }⟩ := by
  have hrow (hnext : endsWord (ahead (u ++ c :: v)) = true) :
      Passes m ⟨g.written ++ (u ++ c :: v), t, b⟩
        ⟨u ++ c :: v, t, { b with text := g.written }⟩ := by
    rw [h.isRegular.written_eq, List.append_assoc]
    refine (passes_words hb (fun w hw ↦ (h.words w hw).1) fun w hw ↦ (h.words w hw).2.1).trans
      (passes_word h.isWord_name hnext (runs_wordEnd_of_text rfl
        (fun w hw ↦ (h.words w hw).1.isToken) h.isWord_name.isToken ?_))
    exact startsNothing_of_isKeyword h.name.2
  cases u with
  | nil => simpa using hrow hc
  | cons d u =>
    have hd := hu d (by simp)
    have hlast : ∀ x ∈ g.written.getLast?, isBlank x = false := by
      rw [h.isRegular.written_eq]
      exact getLast?_spaced_append h.isWord_name.isToken
    refine (hrow (by rw [List.cons_append, ahead_cons, endsWord, hd]; rfl)).trans
      ((passes_blank hd h.written_ne_nil hlast).trans
        (passes_blanks (fun x hx ↦ hu x (by simp [hx])) (by simp)))

end IsPlain

end Signature

/-! ## What follows a row -/

section Ends

variable {m : RegionMarkers} {g : Signature} {t x : Tree} {b b' : Block} {y : Sketch} {c : Char}
  {rest u v name : Text} {e : Element}

/-- What the row declares is added by what the character behind the row leads to. -/
theorem declares_row {p : Text → Drafting Step} (hg : g.IsPlain) (hu : ∀ d ∈ u, isBlank d = true)
    (hc : endsWord c = true) (hend : endsBlock c = false)
    (hreact : ∀ {x step y}, x.block.text = (g.written ++ if u.isEmpty then [] else [' ']) →
      Runs (takeText >>= p) x step y → Runs (react m c) x (.done step) y)
    (h : ∀ {t x b b' y}, Runs (applyHeader t.size) ⟨rest, t.create name e, b⟩ () ⟨rest, x, b'⟩ →
      Runs (emit [t.size]) ⟨rest, x, b'⟩ (.produced 1) y →
      Runs (p g.written) ⟨v, t, b⟩ (.produced 1) y) :
    Declares m (g.written ++ (u ++ c :: v)) rest name e := by
  intro t x b b' y fs hb happly hemit
  have htrim : Text.trim (g.written ++ if u.isEmpty then [] else [' ']) = g.written := by
    split
    · rw [List.append_nil, hg.trim_written]
    · rw [Text.trim_append_singleton (by decide), hg.trim_written]
  have hstep := hreact rfl ((runs_takeText hb htrim v).bind (h happly hemit))
  exact (hg.passes hb hu hc).leads.trans (leads_of_done (runs_advance hend hstep) (by simp))

/-- A field or an event without further names is added like any other declaration. -/
theorem runs_emitNames {isField : Bool} {id : ElementId}
    (hrest : isField = false → trailingComment?.Yields rest none rest)
    (happly : Runs (applyHeader id) ⟨rest, t, b⟩ () ⟨rest, x, b'⟩)
    (hemit : Runs (emit [id]) ⟨rest, x, b'⟩ (.produced 1) y) :
    Runs (emitNames isField id []) ⟨rest, t, b⟩ (.produced 1) y := by
  refine happly.bind (Runs.pure.bind ?_)
  cases isField with
  | true => exact hemit
  | false =>
    have htrailing : Runs (withTrailingComment [id]) ⟨rest, x, b'⟩ [id] ⟨rest, x, b'⟩ :=
      (runs_read (hrest rfl)).bind .pure
    exact htrailing.bind hemit

/-- An expression that is read as one statement. -/
def isValue (v : Text) : Bool := !v.isEmpty && Text.trim v == v && decide v.IsClean

theorem isValue_iff : isValue v = true ↔ v ≠ [] ∧ Text.trim v = v ∧ v.IsClean := by
  simp [isValue, and_assoc]

theorem yields_statement_of_isValue (hv : isValue v = true) (rest : Text) :
    statement.Yields (' ' :: (v ++ ';' :: rest)) v rest := by
  have hstatement := @FieldDeclaration.yields_statement v [] (isValue_iff.mp hv) (by simp) rest
  rwa [List.map_nil, join_partSeparator_singleton] at hstatement

theorem initializedNames_eq (hv : isValue v = true) (text name : Text) :
    initializedNames text v { name } [] = .ok (⟨name, some v⟩, []) := by
  obtain ⟨hne, htrim, hclean⟩ := isValue_iff.mp hv
  have hparts : listParts (Text.join partSeparator [v]) = [v] :=
    listPartsFrom_join PartScan.fresh_start (by simp)
      (List.forall_mem_singleton.mpr (hclean.isPart htrim)) (by simp)
  rw [join_partSeparator_singleton] at hparts
  obtain ⟨c, cs, rfl⟩ := List.exists_cons_of_ne_nil hne
  rw [initializedNames, hparts]
  rfl

theorem runs_react_equalsSign (hg : g.IsPlain) {z : Sketch} {step : Step}
    (hz : z.block.text = g.written ++ [' ']) (h : Runs equalsSign z step y) :
    Runs (react m '=') z (.done step) y := by
  have hoperator : endsInOperator z.block.text = false := by
    rw [hz, hg.isRegular.written_eq]
    exact endsInOperator_spaced (fun w hw ↦ (hg.words w hw).1.isToken) hg.isWord_name.isToken
      (ne_operator_of_isKeyword hg.name.2) (gluedOperator?_of_isIdentifier hg.name.1)
  refine runs_block.bind ?_
  simp only [hoperator]
  exact runs_done h

end Ends

/-! ## Members -/

section Members

open Signature

variable {m : RegionMarkers} {g : Signature} {c : Char} {rest u v w p : Text} {value : Option Text}
  {k : Kind} {e : Element} {start : BodyStart} {n : Nat}

theorem qualifiedName_of_isIdentifier {name : Text} (h : isIdentifier name = true) :
    qualifiedName name = (none, name) := by
  have hdot : '.' ∉ name := fun hmem ↦
    absurd (isIdentifierCharacter_of_mem h hmem) (by decide +kernel)
  rw [qualifiedName, lastDotFrom_eq_none hdot]

theorem toField_fst (hg : g.IsPlain) (comment : Option Comment) :
    (g.toField ⟨g.name, value⟩ comment).1 = g.name := by
  have hname : '[' ∉ g.name := not_mem_of_isIdentifier hg.name.1 (by decide)
  cases hfixed : g.isFixed <;> simp [toField, hfixed, fixedSize_of_not_mem hname]

theorem toEvent_fst (hg : g.IsPlain) (body : MemberBody) :
    (g.toEvent ⟨g.name, value⟩ body).1 = g.name := by
  rw [toEvent, qualifiedName_of_isIdentifier hg.name.1]

theorem toProperty_fst (hg : g.IsPlain) (body : MemberBody) :
    (g.toProperty body value).1 = g.name := by
  rw [toProperty, qualifiedName_of_isIdentifier hg.name.1]

theorem declares_field (hg : g.IsPlain) {comment : Option Comment}
    (hkind : ∀ e ∈ [Terminator.statement, .assignment], g.declares e = .ok .field)
    (hvalue : ∀ x ∈ value, isValue x = true)
    (hcomment : trailingComment?.Yields v comment rest) :
    Declares m (g.written ++ (initializerText value ++ ';' :: v)) rest g.name
      (.field (g.toField ⟨g.name, value⟩ comment).2) := by
  cases value with
  | none =>
    refine declares_row (u := []) hg (by simp) (by decide) (by decide)
      (fun _ ↦ runs_react_semicolon) fun happly hemit ↦ ?_
    rw [if_neg (by simpa using hg.written_ne_nil)]
    refine (runs_ofExcept hg.declaredNames_eq).bind ((runs_ofExcept (hkind _ (by simp))).bind
      ((runs_read hcomment).bind ?_))
    dsimp only
    rw [toField_fst hg]
    exact (runs_create _ _).bind (runs_emitNames (by simp) happly hemit)
  | some x =>
    have hx := hvalue x rfl
    rw [initializerText, (isValue_iff.mp hx).2.1, List.append_assoc]
    refine declares_row (u := [' ']) hg (List.forall_mem_singleton.mpr rfl) (by decide) (by decide)
      (fun hz ↦ runs_react_equalsSign hg hz) fun happly hemit ↦ ?_
    rw [if_neg (by simpa using hg.written_ne_nil)]
    refine (runs_read yields_peek).bind ((runs_ofExcept hg.declaredNames_eq).bind
      ((runs_ofExcept (hkind _ (by simp))).bind ((runs_read (yields_statement_of_isValue hx v)).bind
        ((runs_read hcomment).bind ((runs_ofExcept (initializedNames_eq hx _ _)).bind ?_)))))
    dsimp only
    rw [toField_fst hg]
    exact (runs_create _ _).bind (runs_emitNames (by simp) happly hemit)

theorem declares_event (hg : g.IsPlain) (hkind : g.declares .statement = .ok .event)
    (hc : EndsLine c) : Declares m (g.written ++ ';' :: c :: rest) (c :: rest) g.name
      (.event (g.toEvent { name := g.name } .absent).2) := by
  refine declares_row (u := []) hg (by simp) (by decide) (by decide)
    (fun _ ↦ runs_react_semicolon) fun happly hemit ↦ ?_
  rw [if_neg (by simpa using hg.written_ne_nil)]
  refine (runs_ofExcept hg.declaredNames_eq).bind ((runs_ofExcept hkind).bind ?_)
  dsimp only
  rw [toEvent_fst hg]
  exact (runs_create _ _).bind (runs_emitNames (fun _ ↦ yields_trailingComment? hc) happly
    hemit)

/-- The brace behind the row of an event or a property, and what is read behind its accessors. -/
theorem declares_accessors (hg : g.IsPlain) (hkind : g.declares .block = .ok k)
    (hu : ∀ d ∈ u, isBlank d = true) (hw : ∀ t, bracketed '\x7b' '\x7d' (w ++ '\x7d' :: t) = some w)
    (h : (k = .event ∧ v = rest ∧ e = .event (g.toEvent { name := g.name } (.block w)).2) ∨
      (k = .property ∧ (∀ t b, Runs propertyValue ⟨v, t, b⟩ value ⟨rest, t, b⟩) ∧
        e = .property (g.toProperty (.block w) value).2))
    (hrest : trailingComment?.Yields rest none rest) :
    Declares m (g.written ++ (u ++ '\x7b' :: (w ++ '\x7d' :: v))) rest g.name e := by
  refine declares_row hg hu (by decide) (by decide) (fun _ h ↦ runs_block.bind (runs_done h))
    fun happly hemit ↦ ?_
  rw [if_neg (by simpa using hg.written_ne_nil)]
  refine (runs_ofExcept hg.ofWords_eq).bind ((runs_ofExcept hkind).bind
    ((runs_read (yields_bracketed (hw v))).bind ?_))
  rcases h with ⟨rfl, rfl, rfl⟩ | ⟨rfl, hvalue, rfl⟩
  · rw [if_pos rfl]
    dsimp only
    rw [toEvent_fst hg]
    exact (runs_create _ _).bind (runs_emitMember hrest happly hemit)
  · rw [if_neg (by decide)]
    refine (hvalue _ _).bind ?_
    dsimp only
    rw [toProperty_fst hg]
    exact (runs_create _ _).bind (runs_emitMember hrest happly hemit)

/-! ## Parameters and bodies -/

open Scanner in
theorem tailFrom_of_isBlank (hu : ∀ d ∈ u, isBlank d = true)
    (hv : ∀ l b, tailFrom (ready [] l b) 0 v = some ([], start, n)) (l b : Char) :
    tailFrom (ready [] l b) 0 (u ++ v) = some (u, start, u.length + n) := by
  induction u generalizing l b with
  | nil => simpa using hv l b
  | cons d u ih =>
    have hne {x : Char} (hx : isBlank x = false) : d ≠ x := ne_of_isBlank (hu d (by simp)) hx
    have hlevel : roundLevelAfter d 0 = 0 := by
      simp [roundLevelAfter, hne (x := '(') rfl, hne (x := '[') rfl]
    rw [List.cons_append, tailFrom, step_of_isCalm
      (isCalm_of_isMild (isMild_of_isBlank (hu d (by simp))))]
    dsimp only
    rw [if_neg (by simp [hne (x := '\x7b') rfl]), if_neg (by simp [hne (x := ';') rfl]),
      if_neg (by simp [hne (x := '=') rfl]), hlevel, ih fun x hx ↦ hu x (by simp [hx])]
    simp [prependTo, Nat.add_right_comm]

/-- What is written behind the parameters of a member and its body, up to the end of the line. -/
def bodyText (s : LayoutSettings) (depth : Nat) : MemberBody → Text
  | .absent => [';']
  | .expression e => " => ".toList ++ Text.trim e ++ [';']
  | .block t => s.lineEnding.text ++ Line.indentation s depth ++
      '\x7b' :: (writtenBody s depth t ++ ['\x7d'])

theorem allToText_memberLines (s : LayoutSettings) (depth : Nat) {signature : Text}
    (h : signature ≠ []) (body : MemberBody) :
    Line.allToText s (memberLines depth signature body) =
      Line.indentation s depth ++ (signature ++ (bodyText s depth body ++ s.lineEnding.text)) := by
  cases body with
  | block t =>
    rw [memberLines, allToText_blockLines, Line.toText_eq s depth h]
    simp [bodyText]
  | _ =>
    rw [memberLines, Line.allToText_singleton, Line.toText_eq s depth (by simp)]
    simp [bodyText]

/-- The lines of a body are read back as a body. -/
def isBlockText (t : Text) : Bool := decide (IsBody t ∧ ¬['\r', '\r'] <:+: t)

def MemberBody.isPlain : MemberBody → Bool
  | .absent => true
  | .expression e => isValue (Text.trim e)
  | .block t => isBlockText t

theorem bracketed_writtenBody (s : LayoutSettings) (depth : Nat) {t : Text}
    (h : isBlockText t = true) (rest : Text) :
    bracketed '\x7b' '\x7d' (writtenBody s depth t ++ '\x7d' :: rest) =
      some (writtenBody s depth t) := by
  obtain ⟨hbody, hreturns⟩ := of_decide_eq_true h
  exact bracketed_eq_some_iff.mpr
    (closed_writtenBody s depth (bracketed_eq_some_iff.mp (isBody_iff.mp hbody)) hreturns).1

theorem yields_tail (hu : ∀ d ∈ u, isBlank d = true)
    (hv : ∀ l b, tailFrom (Scanner.ready [] l b) 0 v = some ([], start, n)) (hw : v.drop n = w) :
    Reading.tail.Yields (u ++ v) ([], start) w := by
  have hfrom : tailFrom {} 0 (u ++ v) = _ := tailFrom_of_isBlank hu hv endMark endMark
  have hspan : tailSpan (u ++ v) = some (([], start), u.length + n) := by
    rw [tailSpan, hfrom, Option.map_some, Text.trim_eq_nil_iff.mpr hu]
  have hyields := yields_span ['\x7b'] hspan
  rwa [← List.drop_drop, List.drop_left, hw] at hyields

theorem exists_yields_body (s : LayoutSettings) (depth : Nat) {body : MemberBody}
    (h : body.isPlain = true) : ∃ start body', (body = .absent → start = .statement) ∧ ∀ rest, ∃ w,
      Reading.tail.Yields (bodyText s depth body ++ rest) ([], start) w ∧
        (Reading.body start).Yields w body' rest := by
  cases body with
  | absent =>
    refine ⟨.statement, .absent, fun _ ↦ rfl, fun rest ↦ ⟨rest, ?_, .pure⟩⟩
    exact yields_tail (u := []) (by simp) (fun _ _ ↦ rfl) rfl
  | expression e =>
    refine ⟨.expression, .expression (Text.trim e), by simp, fun rest ↦ ⟨_, ?_,
      (yields_statement_of_isValue h rest).bind .pure⟩⟩
    rw [bodyText, List.append_assoc, List.append_assoc]
    exact yields_tail (u := [' ']) (List.forall_mem_singleton.mpr rfl) (fun _ _ ↦ rfl) rfl
  | block t =>
    have hblanks : ∀ d ∈ s.lineEnding.text ++ Line.indentation s depth, isBlank d = true :=
      List.forall_mem_append.mpr ⟨Line.isBlank_of_mem_lineEnding, fun _ ↦
        Line.isBlank_of_mem_indentation⟩
    refine ⟨.block, .block (writtenBody s depth t), by simp, fun rest ↦
      ⟨writtenBody s depth t ++ '\x7d' :: rest, ?_, ?_⟩⟩
    · have htail := yields_tail hblanks (v := '\x7b' :: (writtenBody s depth t ++ '\x7d' :: rest))
        (fun _ _ ↦ rfl) rfl
      simpa [bodyText] using htail
    · exact (yields_bracketed (bracketed_writtenBody s depth h rest)).bind .pure

/-- The parenthesis behind the row of a method, a constructor or a delegate. -/
theorem declares_parameters (hg : g.IsPlain) (hkind : g.declares .parameters = .ok k)
    (h : ∀ t b, Runs (parameterized g k) ⟨v, t, b⟩ t.size ⟨rest, t.create g.name e, b⟩)
    (hrest : trailingComment?.Yields rest none rest) :
    Declares m (g.written ++ '(' :: v) rest g.name e := by
  have hleading : ((phraseWords (Text.trim g.written)).all isLeadingWord &&
      !endsInOperator g.written) = false := by
    have hname : isLeadingWord g.name = false := by
      have := isDeclarationWord_of_isKeyword hg.name.2
      simp only [isDeclarationWord, Bool.or_eq_false_iff] at this
      exact this.1.1.1
    simp [hg.trim_written, hg.isRegular.phraseWords_written, hname]
  refine declares_row (u := []) (p := fun text ↦ do
      let s ← Drafting.ofExcept (ofWords (phraseWords text))
      let kind ← Drafting.ofExcept (s.declares .parameters)
      let id ← parameterized s kind
      emitMember id) hg (by simp) (by decide) (by decide)
    (fun hz hsteps ↦ runs_block.bind (runs_done (runs_block.bind ?_))) fun happly hemit ↦ ?_
  · rw [hz, List.isEmpty_nil, if_pos rfl, List.append_nil, hleading, if_neg (by simp)]
    exact hsteps
  · exact (runs_ofExcept hg.ofWords_eq).bind ((runs_ofExcept hkind).bind
      ((h _ _).bind (runs_emitMember hrest happly hemit)))

theorem isInert_bodyText (s : LayoutSettings) (depth : Nat) (body : MemberBody) (rest : Text) :
    isInert (ahead (bodyText s depth body ++ rest)) = true := by
  cases body with
  | block t => rw [bodyText]; cases s.lineEnding <;> rfl
  | _ => rfl

end Members

/-! ## Lines of members -/

/-- What is written between the braces of a block, which may stand on one line. -/
def rawBody (s : LayoutSettings) (depth : Nat) (t : Text) : Text :=
  if !t.contains '\n' then
    if (Text.trim t).isEmpty then [' '] else ' ' :: (Text.trim t ++ [' '])
  else writtenBody s depth t

/-- The text of a block is read back as one, on one line if it has one line. -/
def isRawText (t : Text) : Bool :=
  if !t.contains '\n' then decide (IsBody (rawBody {} 0 t)) else isBlockText t

def MemberBody.isRawBlock : MemberBody → Bool
  | .block t => isRawText t
  | _ => false

/-- The row of words with which a member begins. -/
def Element.heading (name : Text) (e : Element) : Signature where
  kind := match e with
    | .event _ => .event
    | .delegate _ => .delegate
    | _ => .member
  access := e.access
  modifiers := e.modifiers
  isAsync := match e with
    | .method d => d.isAsync
    | _ => false
  isVolatile := match e with
    | .field d => d.isVolatile
    | _ => false
  isFixed := match e with
    | .field d => d.isFixed
    | _ => false
  name := name
  returnType := e.declaredType

/-- What stands before the body of a member with parameters, the parameters and the body. -/
def Element.parameterized? (name : Text) : Element → Option (Text × Text × MemberBody)
  | .method d => some (d.signature name, d.parameters, d.body)
  | .constructor d => some (d.signature name, d.parameters, d.body)
  | .delegate d => some ((d.written name).dropLast, d.parameters, .absent)
  | _ => none

/-- The element is a member whose lines are read back as a member of the same kind: nothing but the
row of words stands before its parameters, accessors or value. -/
def Element.isPlain (plain : Comment → Bool) (name : Text) (e : Element) : Bool :=
  let g := e.heading name
  decide g.IsPlain &&
    match e.parameterized? name, e with
    | some (signature, p, body), _ =>
      signature == g.written ++ '(' :: (Text.trim p ++ [')']) &&
        decide (IsArguments (Text.trim p)) && body.isPlain &&
        (g.declares .parameters).toOption == some e.kind
    | none, .field d =>
      d.fixedSize.isNone && d.initialValue.all isValue && d.trailingComment.all plain
    | none, .event d => d.signature name == g.written && d.initialValue.isNone &&
      (d.body.isAbsent || d.body.isRawBlock)
    | none, .property d =>
      d.signature name == g.written && d.initialValue.all isValue && d.body.isRawBlock
    | _, _ => false

/-- Behind the element the reader goes on over all blanks. -/
def Element.isOpen : Element → Bool
  | .property d => d.initialValue.isNone
  | _ => false

section Heads

open Line

variable {m : RegionMarkers} {s : LayoutSettings} {g : Signature} {name : Text} {depth : Nat}
  {plain : Comment → Bool} {after : Text → Prop} {signature p : Text} {e : Element}
  {body : MemberBody}

theorem yields_trailingComment?_lineEnding (s : LayoutSettings) (rest : Text) :
    trailingComment?.Yields (s.lineEnding.text ++ rest) none (s.lineEnding.text ++ rest) := by
  obtain ⟨c, u, hending, hc, -⟩ := lineEnding_text_eq s.lineEnding
  rw [hending]
  exact yields_trailingComment? hc

theorem Signature.IsPlain.startsWord (h : g.IsPlain) (u : Text) : StartsWord (g.written ++ u) := by
  rw [h.isRegular.written_eq, List.append_assoc]
  exact startsWord_spaced (fun w hw ↦ (h.words w hw).1) h.isWord_name u

theorem bracketed_rawBody (s : LayoutSettings) (depth : Nat) {t : Text} (h : isRawText t = true)
    (rest : Text) : bracketed '\x7b' '\x7d' (rawBody s depth t ++ '\x7d' :: rest) =
      some (rawBody s depth t) := by
  rw [isRawText] at h
  rw [rawBody]
  split at h
  · rename_i hline
    have hbody := bracketed_eq_some_iff.mp (isBody_iff.mp (of_decide_eq_true h))
    rw [rawBody, if_pos hline] at hbody
    rw [if_pos hline]
    exact bracketed_eq_some_iff.mpr hbody
  · rename_i hline
    rw [if_neg hline]
    exact bracketed_writtenBody s depth h rest

theorem exists_allToText_rawBlockLines (s : LayoutSettings) (depth : Nat) (h : signature ≠ [])
    (t afterwards : Text) : ∃ x u, isBlank x = true ∧
      (∀ d ∈ u, isBlank d = true) ∧ allToText s (rawBlockLines depth signature t afterwards) =
        indentation s depth ++ (signature ++ (x :: u ++
          '\x7b' :: (rawBody s depth t ++ '\x7d' :: afterwards)) ++ s.lineEnding.text) := by
  rw [rawBlockLines, rawBody]
  split
  · refine ⟨' ', [], by decide, by simp, ?_⟩
    dsimp only
    split <;> rw [allToText_singleton, toText_eq s depth (by simp)] <;> simp
  · obtain ⟨c, u, hending, hc, hu⟩ := lineEnding_text_eq s.lineEnding
    refine ⟨c, u ++ indentation s depth, hc.isBlank, List.forall_mem_append.mpr
      ⟨hu, fun _ ↦ isBlank_of_mem_indentation⟩, ?_⟩
    rw [allToText_blockLines, toText_eq s depth h]
    simp [hending]

section Fields

variable {f : Field} (hg : ((Element.field f).heading name).IsPlain) (hsize : f.fixedSize = none)
  (hcomment : ∀ c ∈ f.trailingComment, m.isPlain c = true)

include hsize hcomment in
/-- Behind the row of a field stand its value and its comment, if it has them. -/
theorem exists_yields_trailing (s : LayoutSettings) (name : Text) : ∃ v,
    f.written name =
      ((Element.field f).heading name).written ++ (initializerText f.initialValue ++ ';' :: v) ∧
    ∀ rest, ∃ rest', Text.trimStart rest' = Text.trimStart rest ∧
      trailingComment?.Yields (v ++ (s.lineEnding.text ++ rest)) f.trailingComment rest' := by
  have hsignature : f.signature name = ((Element.field f).heading name).written ++
      (initializerText f.initialValue ++ [';']) := by
    rw [Field.signature, hsize, List.append_nil, List.append_assoc]
    rfl
  rw [Field.written, hsignature]
  cases hf : f.trailingComment with
  | none =>
    exact ⟨[], by simp, fun rest ↦ ⟨s.lineEnding.text ++ rest,
      trimStart_append isBlank_of_mem_lineEnding rest, yields_trailingComment?_lineEnding s rest⟩⟩
  | some c =>
    refine ⟨' ' :: c.written, by simp, fun rest ↦ ?_⟩
    obtain ⟨u, hyields, hu⟩ := yields_trailingComment?_some s.lineEnding rest (hcomment c hf)
    exact ⟨u ++ rest, trimStart_append (List.all_eq_true.mp hu) rest, hyields⟩

include hg hsize in
theorem toField_heading : (((Element.field f).heading name).toField ⟨name, f.initialValue⟩
    f.trailingComment).2 = f := by
  have hname : fixedSize name = (name, none) :=
    fixedSize_of_not_mem (not_mem_of_isIdentifier hg.name.1 (by decide))
  simp [Signature.toField, Element.heading, hname, Element.access, Element.modifiers,
    Element.declaredType, ← hsize]

include hg hsize hcomment in
theorem heads_field (hvalue : ∀ v ∈ f.initialValue, isValue v = true) (k : ElementId) :
    Heads m s after [⟨depth, f.written name⟩] k name (.field f) [] := by
  obtain ⟨v, hwritten, htrailing⟩ := exists_yields_trailing hsize hcomment s name
  have hstarts := hg.startsWord (initializerText f.initialValue ++ ';' :: v)
  rw [hwritten]
  refine heads_of_declares (allToText_line hstarts) hstarts rfl (fun rest _ ↦ ?_) k
  obtain ⟨rest', htrim, hyields⟩ := htrailing rest
  have hdeclares := declares_field (m := m) hg
    (by simp only [List.forall_mem_cons]; exact ⟨rfl, rfl, by simp⟩) hvalue hyields
  rw [show ((Element.field f).heading name).name = name from rfl, toField_heading hg hsize]
    at hdeclares
  refine ⟨rest', htrim, ?_⟩
  simpa using hdeclares

end Fields

/-- The lines of an event or a property with accessors, behind which more may be read. -/
theorem heads_accessors {t v : Text} (hg : g.IsPlain) (ht : isRawText t = true)
    (he : e.kind.isCommentable = true) (hkind : g.declares .block = .ok e.kind)
    (h : ∀ rest, after rest → ∃ value rest', Text.trimStart rest' = Text.trimStart rest ∧
      trailingComment?.Yields rest' none rest' ∧
      ((e.kind = .event ∧ v ++ (s.lineEnding.text ++ rest) = rest' ∧
          e = .event (g.toEvent { name := g.name } (.block (rawBody s depth t))).2) ∨
        (e.kind = .property ∧
          (∀ t b, Runs propertyValue ⟨v ++ (s.lineEnding.text ++ rest), t, b⟩ value ⟨rest', t, b⟩) ∧
          e = .property (g.toProperty (.block (rawBody s depth t)) value).2))) (k : ElementId) :
    Heads m s after (rawBlockLines depth g.written t v) k g.name e [] := by
  obtain ⟨x, u, hx, hu, htext⟩ := exists_allToText_rawBlockLines s depth hg.written_ne_nil t v
  refine heads_of_declares htext (hg.startsWord _) he (fun rest hrest ↦ ?_) k
  obtain ⟨value, rest', htrim, hrest', hread⟩ := h rest hrest
  have htexts : g.written ++ (x :: u ++ '\x7b' :: (rawBody s depth t ++ '\x7d' :: v)) ++
      (s.lineEnding.text ++ rest) = g.written ++ (x :: u ++
        '\x7b' :: (rawBody s depth t ++ '\x7d' :: (v ++ (s.lineEnding.text ++ rest)))) := by
    simp
  rw [htexts]
  exact ⟨rest', htrim, declares_accessors hg hkind (List.forall_mem_cons.mpr ⟨hx, hu⟩)
    (bracketed_rawBody s depth ht) hread hrest'⟩

theorem heads_enum {t : Text} {d : TypeDeclaration} (hname : IsWord name) (hd : d.HasRegularHeader)
    (hkind : d.kind = .enumType) (ht : isRawText t = true) (k : ElementId) :
    Heads m s after (rawBlockLines depth (d.signature name) t []) k name
      (.typeDeclaration { d with bodyText := some (rawBody s depth t) }) [] := by
  have hne : d.signature name ≠ [] := by
    obtain ⟨c, w, hw, -⟩ := startsWord_signature d name []
    rw [← List.append_nil (d.signature name), hw]
    exact List.cons_ne_nil c w
  obtain ⟨x, u, hx, hu, htext⟩ := exists_allToText_rawBlockLines s depth hne t []
  refine heads_of_declares_line htext (startsWord_signature d name _) rfl (fun c rest hc ↦ ?_) k
  have hdeclares := declares_enum (m := m) hname hd hkind hx hu
    (bracketed_rawBody s depth ht (c :: rest)) hc
  simpa using hdeclares

/-- What is written behind the accessors of a property. -/
def valueText : Option Text → Text
  | none => []
  | some v => initializerText (some v) ++ [';']

/-- Behind the accessors of a property its value is read, or all blanks are passed. -/
theorem exists_runs_propertyValue {value : Option Text} (hvalue : ∀ v ∈ value, isValue v = true)
    (s : LayoutSettings) {rest : Text} (hrest : value = none → Quiet rest) : ∃ rest',
      Text.trimStart rest' = Text.trimStart rest ∧
      trailingComment?.Yields rest' none rest' ∧ ∀ t b, Runs propertyValue
        ⟨valueText value ++ (s.lineEnding.text ++ rest), t, b⟩ value ⟨rest', t, b⟩ := by
  cases value with
  | none =>
    have htrim : List.dropWhile isBlank (s.lineEnding.text ++ rest) = Text.trimStart rest :=
      trimStart_append isBlank_of_mem_lineEnding rest
    have hquiet := hrest rfl
    have hblank {c : Char} (hc : c ∈ (Text.trimStart rest).head?) {x : Char}
        (hx : isBlank x = true) : c ≠ x := by
      rintro rfl
      have hhead := List.head?_dropWhile_not isBlank rest
      rw [show (List.dropWhile isBlank rest).head? = some c from hc] at hhead
      exact absurd (hx.symm.trans hhead) Bool.true_eq_false.mp
    refine ⟨Text.trimStart rest, List.dropWhile_idempotent _ rest, ?_, fun t b ↦ ?_⟩
    · exact yields_trailingComment?_none fun c hc ↦
        ⟨hblank hc (by decide), hblank hc (by decide), (hquiet c hc).1⟩
    · rw [← htrim]
      refine runs_propertyValue_none ?_
      rw [valueText, List.nil_append, htrim]
      cases hhead : Text.trimStart rest with
      | nil => decide
      | cons c u => exact (hquiet c (by rw [hhead]; rfl)).2
  | some v =>
    have hv := hvalue v rfl
    refine ⟨s.lineEnding.text ++ rest, trimStart_append isBlank_of_mem_lineEnding rest,
      yields_trailingComment?_lineEnding s rest, fun t b ↦ ?_⟩
    simp only [valueText, initializerText, (isValue_iff.mp hv).2.1, List.append_assoc]
    exact (runs_read yields_skipBlanks).bind ((runs_read yields_peek).bind
      ((runs_read (yields_skip 1)).bind
        ((runs_read (yields_statement_of_isValue hv _)).bind .pure)))

section Parameters

variable {kind : Kind} (hg : g.IsPlain)
  (hk : kind = .method ∨ kind = .constructor ∨ (kind = .delegate ∧ body = .absent))
  (hp : IsArguments p) (hbody : body.isPlain = true)

include hg hk hp hbody

/-- What is read behind the row does not depend on the text behind the line. -/
theorem exists_runs_parameterized (s : LayoutSettings) (depth : Nat) :
    ∃ e : Element, e.kind = kind ∧ ∀ (c : Char) (rest : Text) (t : Tree) (b : Block),
      Runs (parameterized g kind) ⟨p ++ ')' :: (bodyText s depth body ++ c :: rest), t, b⟩ t.size
        ⟨c :: rest, t.create g.name e, b⟩ := by
  obtain ⟨start, body', hstart, hread⟩ := exists_yields_body s depth hbody
  have harguments (c : Char) (rest : Text) := yields_bracketed
    (hp.bracketed_append (isInert_bodyText s depth body (c :: rest)))
  rcases hk with rfl | rfl | ⟨rfl, hk⟩
  · have hname : g.methodName = ([], g.name, []) := by
      simp [Signature.methodName, hg.operator, qualifiedName_of_isIdentifier hg.name.1,
        genericName_of_isWord hg.isWord_name, interfaceReferences, typeParametersOf]
    refine ⟨.method (g.toMethod p [] [] body'), rfl, fun c rest t b ↦ ?_⟩
    obtain ⟨w, htail, hread⟩ := hread (c :: rest)
    refine (runs_read (harguments c rest)).bind ((runs_read htail).bind ((runs_read hread).bind ?_))
    rw [hname]
    exact (runs_ofExcept rfl).bind (runs_create _ _)
  · refine ⟨.constructor ⟨g.access, g.modifiers, p, none, body'⟩, rfl, fun c rest t b ↦ ?_⟩
    obtain ⟨w, htail, hread⟩ := hread (c :: rest)
    exact (runs_read (harguments c rest)).bind ((runs_read htail).bind ((runs_ofExcept rfl).bind
      ((runs_read hread).bind (runs_create _ _))))
  · obtain rfl := hstart hk
    refine ⟨.delegate ⟨g.access, g.modifiers, g.returnType.getD [], p, []⟩, rfl,
      fun c rest t b ↦ ?_⟩
    obtain ⟨w, htail, hread⟩ := hread (c :: rest)
    obtain ⟨_, ⟨⟩, hw⟩ := hread (Cursor.start w) rfl
    obtain rfl : w = c :: rest := hw
    refine (runs_read (harguments c rest)).bind ((runs_read htail).bind ?_)
    dsimp only
    rw [if_neg (by simp), genericName_of_isWord hg.isWord_name]
    exact (runs_ofExcept rfl).bind (runs_create _ _)

/-- Methods, constructors and delegates. -/
theorem exists_heads_parameters (hkind : g.declares .parameters = .ok kind) (k : ElementId) :
    ∃ e : Element, e.kind = kind ∧ Heads m s after
      (memberLines depth (g.written ++ '(' :: (p ++ [')'])) body) k g.name e [] := by
  obtain ⟨e, he, hread⟩ := exists_runs_parameterized hg hk hp hbody s depth
  have htext : allToText s (memberLines depth (g.written ++ '(' :: (p ++ [')'])) body) =
      indentation s depth ++ (g.written ++ '(' :: (p ++ ')' :: bodyText s depth body) ++
        s.lineEnding.text) := by
    rw [allToText_memberLines s depth (by simp)]
    simp
  have hcommentable : e.kind.isCommentable = true := by
    rw [he]
    rcases hk with rfl | rfl | ⟨rfl, -⟩ <;> rfl
  refine ⟨e, he, heads_of_declares_line htext (hg.startsWord _) hcommentable
    (fun c rest hc ↦ ?_) k⟩
  have hdeclares := declares_parameters (m := m) hg hkind (hread c rest)
    (yields_trailingComment? hc)
  simpa using hdeclares

end Parameters

theorem exists_heads_event {d : Event} (s : LayoutSettings) (depth : Nat)
    (hg : ((Element.event d).heading name).IsPlain)
    (hsignature : d.signature name = ((Element.event d).heading name).written)
    (hvalue : d.initialValue = none) (hbody : (d.body.isAbsent || d.body.isRawBlock) = true)
    (k : ElementId) : ∃ d', Heads m s after (d.lines depth name) k name (.event d') [] := by
  rw [Event.lines.eq_def, hsignature, hvalue]
  cases hd : d.body with
  | absent =>
    have hstarts := hg.startsWord [';']
    refine ⟨(Signature.toEvent ((Element.event d).heading name) { name } .absent).2,
      heads_of_declares_line (allToText_line hstarts) hstarts rfl (fun c rest hc ↦ ?_) k⟩
    rw [List.append_assoc]
    exact declares_event hg rfl hc
  | block t =>
    rw [hd] at hbody
    refine ⟨(Signature.toEvent ((Element.event d).heading name) { name }
      (.block (rawBody s depth t))).2, heads_accessors hg hbody rfl rfl (fun rest _ ↦ ?_) k⟩
    exact ⟨none, s.lineEnding.text ++ rest, trimStart_append isBlank_of_mem_lineEnding rest,
      yields_trailingComment?_lineEnding s rest, .inl ⟨rfl, rfl, rfl⟩⟩
  | expression t =>
    rw [hd] at hbody
    exact absurd hbody Bool.false_ne_true

theorem exists_heads_property {d : Property} (s : LayoutSettings) (depth : Nat)
    (hg : ((Element.property d).heading name).IsPlain)
    (hsignature : d.signature name = ((Element.property d).heading name).written)
    (hvalue : ∀ v ∈ d.initialValue, isValue v = true) (hbody : d.body.isRawBlock = true)
    (k : ElementId) : ∃ d', Heads m s (fun rest ↦ (Element.property d).isOpen = true → Quiet rest)
      (d.lines depth name) k name (.property d') [] := by
  rw [Property.lines.eq_def, hsignature]
  cases hd : d.body with
  | block t =>
    rw [hd] at hbody
    refine ⟨(Signature.toProperty ((Element.property d).heading name) (.block (rawBody s depth t))
      d.initialValue).2, heads_accessors (v := valueText d.initialValue) hg hbody rfl rfl
        (fun rest hrest ↦ ?_) k⟩
    obtain ⟨rest', htrim, hrest', hruns⟩ := exists_runs_propertyValue hvalue s fun hnone ↦
      hrest (by simp [Element.isOpen, hnone])
    exact ⟨_, rest', htrim, hrest', .inr ⟨rfl, hruns, rfl⟩⟩
  | _ =>
    rw [hd] at hbody
    exact absurd hbody Bool.false_ne_true

theorem Element.kind_of_parameterized? (h : e.parameterized? name = some (signature, p, body))
    (s : LayoutSettings) (depth : Nat) (k : ElementId) :
    (e.kind = .method ∨ e.kind = .constructor ∨ (e.kind = .delegate ∧ body = .absent)) ∧
      (Outline.node k name e [] [] [] none).lines s depth = memberLines depth signature body := by
  cases e with
  | method => cases h; exact ⟨.inl rfl, rfl⟩
  | constructor => cases h; exact ⟨.inr (.inl rfl), rfl⟩
  | delegate d =>
    cases h
    refine ⟨.inr (.inr ⟨rfl, rfl⟩), ?_⟩
    rw [memberLines, Delegate.written, List.dropLast_concat]
    rfl
  | _ => cases h

/-- The lines of a member add one of the same kind under the same name; a field is as it was. -/
theorem Element.exists_heads (hplain : ∀ c, plain c = true → m.isPlain c = true)
    (h : e.isPlain plain name = true) (s : LayoutSettings) (depth : Nat) (k : ElementId) :
    ∃ e' : Element, e'.kind = e.kind ∧ (e.kind = .field → e' = e) ∧
      Heads m s (fun rest ↦ e.isOpen = true → Quiet rest)
        ((Outline.node k name e [] [] [] none).lines s depth) k name e' [] := by
  rw [Element.isPlain.eq_def, Bool.and_eq_true] at h
  obtain ⟨hg, h⟩ := h
  replace hg := of_decide_eq_true hg
  cases hparameters : e.parameterized? name with
  | some x =>
    obtain ⟨signature, p, body⟩ := x
    simp only [hparameters, Bool.and_eq_true, beq_iff_eq, decide_eq_true_eq] at h
    obtain ⟨⟨⟨hsignature, hp⟩, hbody⟩, hkind⟩ := h
    have hkind : (e.heading name).declares .parameters = .ok e.kind := by
      cases hdeclares : (e.heading name).declares .parameters <;> simp_all [Except.toOption]
    obtain ⟨hk, hlines⟩ := kind_of_parameterized? hparameters s depth k
    obtain ⟨e', he', hheads⟩ := exists_heads_parameters (m := m) hg hk hp hbody hkind k
    rw [hlines, hsignature]
    refine ⟨e', he', fun hfield ↦ ?_, hheads⟩
    rcases hk with hk | hk | ⟨hk, -⟩ <;> cases hk.symm.trans hfield
  | none =>
    rw [hparameters] at h
    cases e with
    | field f =>
      simp only [Bool.and_eq_true, Option.isNone_iff_eq_none] at h
      obtain ⟨⟨hsize, hvalue⟩, hcomment⟩ := h
      exact ⟨.field f, rfl, fun _ ↦ rfl, heads_field hg hsize
        (fun c hc ↦ hplain c ((Option.all_eq_true _ _).mp hcomment c hc))
        ((Option.all_eq_true _ _).mp hvalue) k⟩
    | event d =>
      simp only [Bool.and_eq_true, Option.isNone_iff_eq_none, beq_iff_eq] at h
      obtain ⟨d', hheads⟩ := exists_heads_event s depth hg h.1.1 h.1.2 h.2 k
      exact ⟨.event d', rfl, by simp [kind], hheads⟩
    | property d =>
      simp only [Bool.and_eq_true, beq_iff_eq] at h
      obtain ⟨d', hheads⟩ := exists_heads_property s depth hg h.1.1
        ((Option.all_eq_true _ _).mp h.1.2) h.2 k
      exact ⟨.property d', rfl, by simp [kind], hheads⟩
    | _ => exact absurd h Bool.false_ne_true

end Heads

end SharpOutline
