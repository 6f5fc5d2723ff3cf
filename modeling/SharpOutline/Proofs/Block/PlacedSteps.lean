import SharpOutline.Proofs.Block.Placement

/-!
# Steps inside a longer text

What a character starts, under a placement. Whatever ends with a sign or a declaration does so
before the end of the text, and a comment or a directive ends with its line. So nothing but the
accessors of a property looks beyond the text: their braces may be followed by blanks and an initial
value. That case comes last.
-/

namespace SharpOutline

open Pairing Reading

namespace Drafting

variable {w : Placement} {v : Text} {prior : List ElementId}

/-! ## The end of a declaration -/

theorem last_withTrailingComment (ids : List ElementId) :
    w.Last v prior Ready Any (List.map w.shift) (withTrailingComment ids)
      (withTrailingComment (ids.map w.shift)) := by
  refine Placement.Last.then (steady_read last_trailingComment?) fun u found ↦ ?_
  cases found with
  | none => exact still_pure _ (List.map w.shift) ids
  | some comment =>
    refine (still_create [] rfl).bind fun x ↦ ?_
    have hids : ids.map w.shift ++ [(w.followed u).shift x] = (ids ++ [x]).map w.shift := by
      rw [List.map_append]
      rfl
    rw [hids]
    exact still_pure _ (List.map w.shift) (ids ++ [x])

theorem last_emitMember (x : ElementId) :
    w.Last v prior Ready Any id (emitMember x) (emitMember (w.shift x)) :=
  (still_applyHeader x).bind_steady fun _ ↦
    Placement.Last.then (last_withTrailingComment [x]) fun _ ↦ still_emit

theorem still_emitNames_field (first : ElementId) (names : List DeclaredName) :
    (w.pairing prior).Still id (emitNames true first names)
      (emitNames true (w.shift first) names) :=
  (still_applyHeader first).bind fun _ ↦ (still_copiesAs first names).bind fun copies ↦
    still_emit (first :: copies)

theorem last_emitNames_event (first : ElementId) (names : List DeclaredName) :
    w.Last v prior Ready Any id (emitNames false first names)
      (emitNames false (w.shift first) names) :=
  (still_applyHeader first).bind_steady fun _ ↦ (still_copiesAs first names).bind_steady
    fun copies ↦ Placement.Last.then (last_withTrailingComment (first :: copies)) fun _ ↦ still_emit

/-! ## Comments and directives -/

theorem last_slash (m : RegionMarkers) : w.Last v prior Ready Any id (slash m) (slash m) := by
  refine Placement.Last.then (steady_read last_comment?) fun u found ↦ ?_
  cases found with
  | none => exact (still_push '/').bind fun _ ↦ still_pure _ id Step.more
  | some c => exact still_placeComment m c

theorem last_directive : w.Last v prior Ready Any id directive directive :=
  Placement.Last.then (steady_read last_line) fun _ _ ↦ still_block.bind fun _ ↦
    .ite (still_throw _ _ _ _) (still_carryOut _ _)

/-! ## Brackets -/

/-- A list of attributes that ends does so within any larger limit. -/
theorem firm_furtherAttributes (head : ElementId) {n n' : Nat} (h : n ≤ n') :
    w.Firm v prior Sound Clear id (furtherAttributes head n)
      (furtherAttributes (w.shift head) n') := by
  induction n generalizing n' with
  | zero => exact steady_of_fails (throw_ne_ok _)
  | succ n ih =>
    obtain ⟨n', rfl⟩ := Nat.exists_eq_succ_of_ne_zero (Nat.ne_zero_of_lt h)
    refine Firm.bind (steady_read firm_attributeSeparator) (Q := Any) fun more ↦
      .ite (fun _ ↦ ?_) fun _ ↦ (still_pure _ id ()).steady
    refine Steady.ready <| (local_read (local_attributeUse false)).bind_steady fun a ↦
      (still_create _ rfl).bind_steady fun x ↦ still_addChild.bind_steady fun _ ↦ ?_
    exact ih (Nat.le_of_succ_le_succ h)

theorem firm_attributeList :
    w.Firm v prior Sound Clear (Prod.map w.shift id) attributeList attributeList := by
  refine (local_read (local_attributeUse true)).bind_steady fun a ↦
    (still_create _ rfl).bind_steady fun head d r d' hd ↦ ?_
  -- In the longer text the limit is larger.
  have hle : d.cursor.rest.length + 1 ≤ (d.cursor.rest ++ w.after).length + 1 := by
    rw [List.length_append]
    omega
  have hlist : w.Firm v prior Sound Clear (Prod.map w.shift id)
      (do
        furtherAttributes head (d.cursor.rest.length + 1)
        return (head, a.data.target))
      (do
        furtherAttributes (w.shift head) ((d.cursor.rest ++ w.after).length + 1)
        return (w.shift head, a.data.target)) :=
    (firm_furtherAttributes head hle).bind fun _ ↦
      (still_pure _ (Prod.map w.shift id) (head, a.data.target)).steady
  refine ⟨(hlist hd).1, fun hsound ↦ .inl ?_⟩
  obtain ⟨hm, hready⟩ := hlist.mirrors hd hsound
  refine ⟨fun e he ↦ ?_, hready⟩
  obtain ⟨e', he', hpairs⟩ := hm e he
  rw [← he.rest] at he'
  exact ⟨e', he', hpairs⟩

theorem firm_squareBracket : w.Firm v prior Ready Any id squareBracket squareBracket := by
  refine still_block.bind_steady fun b ↦ .ite (fun _ ↦ ?_) fun _ ↦ ?_
  · exact Steady.ready <| Firm.bind (steady_read (firm_bracketedTrimmed (by decide)))
      fun inside ↦ Still.steady <| (still_pushBracketed '[' ']' inside).bind fun _ ↦
        still_pure _ id Step.more
  · refine Steady.ready <| firm_attributeList.bind fun r ↦ Still.steady <| .ite ?_ ?_
    · exact still_flushComments.bind fun _ ↦ still_emit [r.1]
    · refine (still_modifyBlock fun b ↦ ?_).bind fun _ ↦ still_pure _ id Step.more
      simp [Block.shift, Placement.shift]

theorem firm_angleBracket : w.Firm v prior Ready Any id angleBracket angleBracket :=
  Steady.ready <| Firm.bind (steady_read (firm_bracketedTrimmed (by decide))) fun inside ↦
    Still.steady <| (still_pushBracketed '<' '>' inside).bind fun _ ↦ still_pure _ id Step.more

/-! ## Parameters -/

theorem firm_method (s : Signature) :
    w.Firm v prior Sound Clear w.shift (method s) (method s) :=
  Firm.bind (steady_read (firm_bracketed (by decide))) fun _ ↦ Steady.ready <|
    Firm.bind (steady_read firm_tail) fun t ↦
      Firm.bind (steady_read (firm_body t.2)) fun _ ↦
        Still.steady <| (still_ofExcept _).bind fun _ ↦ still_create _ rfl

theorem firm_constructor (s : Signature) :
    w.Firm v prior Sound Clear w.shift (constructor s) (constructor s) :=
  Firm.bind (steady_read (firm_bracketed (by decide))) fun _ ↦ Steady.ready <|
    Firm.bind (steady_read firm_tail) fun t ↦ (still_ofExcept _).bind_steady fun _ ↦
      Firm.bind (steady_read (firm_body t.2)) fun _ ↦ (still_create _ rfl).steady

theorem firm_delegate (s : Signature) :
    w.Firm v prior Sound Clear w.shift (delegate s) (delegate s) :=
  Firm.bind (steady_read (firm_bracketed (by decide))) fun _ ↦ Steady.ready <|
    Firm.bind (steady_read firm_tail) fun _ ↦ Still.steady <|
      .ite (still_of_fails nofun) ((still_ofExcept _).bind fun _ ↦ still_create _ rfl)

theorem firm_parameterized (s : Signature) (kind : Kind) :
    w.Firm v prior Sound Clear w.shift (parameterized s kind) (parameterized s kind) := by
  unfold parameterized
  split
  · exact firm_delegate s
  · exact firm_constructor s
  · exact firm_method s

theorem last_parenthesis : w.Last v prior Ready Any id parenthesis parenthesis := by
  refine still_block.bind_steady fun b ↦ .ite (fun _ ↦ ?_) fun _ ↦ ?_
  · exact Steady.ready <| Firm.bind (steady_read (firm_bracketedTrimmed (by decide)))
      fun inside ↦ Still.steady <| (still_modifyBlock fun _ ↦ by rfl).bind fun _ ↦
        still_pure _ id Step.more
  · exact Steady.ready <| still_takeText.bind_steady fun _ ↦ (still_ofExcept _).bind_steady fun s ↦
      (still_ofExcept _).bind_steady fun kind ↦ (firm_parameterized s kind).bind last_emitMember

/-! ## Fields, events and properties -/

theorem last_semicolon : w.Last v prior Ready Any id semicolon semicolon := by
  refine still_takeText.bind_steady fun text ↦ .ite (fun _ ↦ ?_) fun _ ↦ ?_
  · exact (still_pure _ id Step.more).steady
  · refine (still_ofExcept _).bind_steady fun ⟨s, first, names⟩ ↦
      (still_ofExcept _).bind_steady fun kind ↦ .ite (fun _ ↦ ?_) fun _ ↦ ?_
    · exact (still_create _ rfl).bind_steady fun x ↦ last_emitNames_event x names
    · exact Placement.Last.then (steady_read last_trailingComment?) fun _ _ ↦
        (still_create _ rfl).bind fun x ↦ still_emitNames_field x names

theorem last_initialValue (text : Text) :
    w.Last v prior Sound Clear id (initialValue text) (initialValue text) := by
  refine (still_ofExcept _).bind_steady fun ⟨s, first, names⟩ ↦
    (still_ofExcept _).bind_steady fun kind ↦
      Firm.bind (steady_read firm_statement) (Q := Any) fun value ↦
        .ite (fun _ ↦ ?_) fun _ ↦ ?_
  · exact Placement.Last.then (steady_read last_trailingComment?) fun _ _ ↦
      (still_ofExcept _).bind fun r ↦ (still_create _ rfl).bind fun x ↦ still_emitNames_field x r.2
  · exact (still_ofExcept _).bind_steady fun r ↦
      (still_create _ rfl).bind_steady fun x ↦ last_emitNames_event x r.2

theorem last_expressionBody (text : Text) :
    w.Last v prior Sound Clear id (expressionBody text) (expressionBody text) :=
  (still_ofExcept _).bind_steady fun _ ↦ (still_ofExcept _).bind_steady fun _ ↦
    Firm.bind (steady_read firm_statement) fun _ ↦
      (still_create _ rfl).bind_steady last_emitMember

theorem last_equalsSign : w.Last v prior Ready Any id equalsSign equalsSign := by
  refine still_takeText.bind_steady fun text ↦
    .ite (fun _ ↦ steady_of_fails (throw_ne_ok _)) fun _ ↦ ?_
  have hvalue : w.Last v prior Ready Any id (initialValue text) (initialValue text) :=
    (last_initialValue text).ready
  refine looks_peek.bind_steady (fun c ↦ .ite (fun hc ↦ ?_) fun _ ↦ hvalue.at) hvalue
  exact Firm.bind (steady_read (firm_skip (by rw [hc]; decide))) fun _ ↦
    (last_expressionBody text).ready

/-! ## Declarations with blocks -/

theorem firm_openNamespace : w.Firm v prior Sound Clear (Signal.shift w.before.size) openNamespace
    openNamespace := by
  refine (local_read (local_word false)).bind_steady fun name ↦
    .ite (fun _ ↦ steady_of_fails (throw_ne_ok _)) fun _ ↦
      (local_read local_skipBlanks).bind_steady fun _ ↦
        looks_peek.bind_sound (fun _ _ _ ↦ throw_ne_ok _ _ _ _) fun c ↦ ?_
  refine .ite (fun hc ↦ ?_) fun _ ↦ .ite (fun hc ↦ ?_) fun _ ↦ ?_
  · exact Firm.bind (steady_read (firm_skip (by rw [hc]; decide))) fun _ ↦ Still.steady <|
      (still_create name rfl).bind fun x ↦
        still_pure _ (Signal.shift w.before.size) (.opened x .outerEnd)
  · exact Firm.bind (steady_read (firm_skip (by rw [hc]; decide))) fun _ ↦ Still.steady <|
      (still_create name rfl).bind fun x ↦
        still_pure _ (Signal.shift w.before.size) (.opened x .namespaceBrace)
  · exact .ite (fun _ ↦ steady_of_fails (throw_ne_ok _)) fun _ ↦ steady_of_fails (throw_ne_ok _)

theorem last_usingDirective : w.Last v prior Sound Clear id usingDirective usingDirective :=
  (local_read local_usingName).bind_steady fun r ↦
    .ite (fun _ ↦ steady_of_fails (throw_ne_ok _)) fun _ ↦
      (local_read (local_aliasClause? r.2)).bind_steady fun _ ↦
        Firm.bind (steady_read (firm_expect (by decide))) fun _ ↦
          (still_create _ rfl).bind_steady last_emitMember

theorem last_openType (words : List Text) : w.Last v prior Sound Clear
    (Signal.shift w.before.size) (openType words) (openType words) := by
  refine (still_ofExcept _).bind_steady fun s ↦ ?_
  rw [id_eq]
  cases s.kind with
  | type kind =>
    refine (local_read (local_word true)).bind_steady fun fullName ↦
      .ite (fun _ ↦ steady_of_fails (throw_ne_ok _)) fun _ ↦ ?_
    refine Firm.bind (steady_read firm_header) (Q := Any) fun _ ↦
      (still_ofExcept _).bind_steady fun t ↦ .ite (fun _ ↦ ?_) fun _ ↦ ?_
    · exact Steady.ready <| Firm.bind (steady_read (firm_bracketed (by decide))) fun _ ↦
        (still_create _ rfl).bind_steady fun x ↦
          Firm.bind (steady_read firm_skipSemicolon) fun _ ↦
            Placement.Last.then (last_emitMember x) fun _ step ↦
              still_pure _ (Signal.shift w.before.size) (.done step)
    · exact Still.steady <| (still_create _ rfl).bind fun x ↦
        still_pure _ (Signal.shift w.before.size) (.opened x .typeBrace)
  | _ => exact steady_of_fails (throw_ne_ok _)

/-! ## Characters -/

theorem last_done {p : Drafting Step} (h : w.Last v prior Ready Any id p p) :
    w.Last v prior Ready Any (Signal.shift w.before.size) (done p) (done p) :=
  Placement.Last.then h fun _ step ↦ still_pure _ (Signal.shift w.before.size) (.done step)

theorem last_wordEnd :
    w.Last v prior Ready Any (Signal.shift w.before.size) wordEnd wordEnd := by
  have hmore : w.Last v prior Ready Any (Signal.shift w.before.size) (pure (.done .more))
      (pure (.done .more)) :=
    (still_pure _ (Signal.shift w.before.size) (.done .more)).steady
  refine still_block.bind_steady fun b ↦ ?_
  rw [show (b.shift w.before.size prior).text = b.text from rfl]
  dsimp only
  cases (phraseWords (Text.trim b.text)).getLast? with
  | none => exact hmore
  | some last =>
    refine .ite (fun _ ↦ ?_) fun _ ↦ .ite (fun _ ↦ ?_) fun _ ↦ .ite (fun _ ↦ ?_) fun _ ↦ hmore
    · exact (still_modifyBlock fun _ ↦ by rfl).bind_steady fun _ ↦ firm_openNamespace.last.ready
    · exact (still_modifyBlock fun _ ↦ by rfl).bind_steady fun _ ↦
        last_done last_usingDirective.ready
    · exact (still_modifyBlock fun _ ↦ by rfl).bind_steady fun _ ↦ (last_openType _).ready

theorem last_letter (c : Char) :
    w.Last v prior Ready Any (Signal.shift w.before.size) (letter c) (letter c) := by
  refine (still_push c).bind_steady fun _ ↦ looks_peek.bind_steady (fun next ↦
    .ite (fun _ ↦ last_wordEnd.at) fun _ ↦ Steady.at ?_) last_wordEnd
  exact (still_pure _ (Signal.shift w.before.size) (.done .more)).steady

theorem still_questionMark : (w.pairing prior).Still id questionMark questionMark :=
  (still_modifyBlock fun _ ↦ by rfl).bind fun _ ↦ still_pure _ id Step.more

theorem still_blank : (w.pairing prior).Still id blank blank := by
  refine (still_modifyBlock fun b ↦ ?_).bind fun _ ↦ still_pure _ id Step.more
  rw [apply_ite (Block.shift w.before.size prior)]
  rfl

/-- **What a character starts**, unless it is an opening brace. -/
theorem last_react (m : RegionMarkers) {c : Char} (hc : c ≠ '\x7b') :
    w.Last v prior Ready Any (Signal.shift w.before.size) (react m c) (react m c) :=
  still_block.bind_steady fun _ ↦
    .ite (fun _ ↦ last_done (last_slash m)) fun _ ↦
    .ite (fun _ ↦ last_done last_directive) fun _ ↦
    .ite (fun _ ↦ last_done firm_squareBracket.last) fun _ ↦
    .ite (fun _ ↦ last_done firm_angleBracket.last) fun _ ↦
    .ite (fun _ ↦ last_done still_questionMark.steady) fun _ ↦
    .ite (fun _ ↦ last_done still_blank.steady) fun _ ↦
    .ite (fun _ ↦ last_done last_parenthesis) fun _ ↦
    .ite (fun _ ↦ last_done last_semicolon) fun _ ↦
    .ite (fun _ ↦ last_done last_equalsSign) fun _ ↦
    .ite (fun h ↦ absurd h hc) fun _ ↦ last_letter c

/-! ## Accessors -/

/-- Reads the accessors of a property or event, up to the brace that closes them. -/
def accessors : Drafting (Kind × Signature × Text) := do
  let text ← takeText
  if text.isEmpty then throw (.unexpectedCharacter '\x7b')
  else do
    let s ← ofExcept (Signature.ofWords (phraseWords text))
    let kind ← ofExcept (s.declares .block)
    let inside ← read (Reading.bracketed '\x7b' '\x7d')
    return (kind, s, inside)

/-- What follows the accessors of a property. -/
def finishProperty (s : Signature) (accessors : Text) : Drafting Step := do
  let value ← propertyValue
  let (name, p) := s.toProperty (.block accessors) value
  let id ← create name (.property p)
  emitMember id

/-- What follows the accessors of a property or event. -/
def finishAccessors (r : Kind × Signature × Text) : Drafting Step :=
  if r.1 = .event then do
    let (name, e) := r.2.1.toEvent { name := r.2.1.name } (.block r.2.2)
    let id ← create name (.event e)
    emitMember id
  else finishProperty r.2.1 r.2.2

theorem brace_eq : brace = accessors >>= finishAccessors := by
  rw [brace, accessors, bind_assoc]
  congr
  funext text
  split
  · rfl
  · simp only [bind_assoc, pure_bind]
    rfl

theorem react_brace (m : RegionMarkers) (d : Draft) :
    react m '\x7b' d = done (accessors >>= finishAccessors) d := by
  rw [← brace_eq]
  rfl

theorem firm_accessors : w.Firm v prior Sound Clear id accessors accessors :=
  still_takeText.bind_steady fun _ ↦ .ite (fun _ ↦ steady_of_fails (throw_ne_ok _)) fun _ ↦
    (still_ofExcept _).bind_steady fun s ↦ (still_ofExcept _).bind_steady fun kind ↦
      Firm.bind (steady_read (firm_bracketed (by decide))) fun inside ↦
        (still_pure _ id (kind, s, inside)).steady

theorem firm_propertyValue : w.Firm v prior Inked Any id propertyValue propertyValue := by
  have hnone : w.Firm v prior Ready Any id (pure (none : Option Text)) (pure none) :=
    (still_pure _ id none).steady
  refine Firm.bind (steady_read firm_skipBlanks) fun _ ↦
    looks_peek.bind_steady (fun c ↦ .ite (fun hc ↦ ?_) fun _ ↦ hnone.at) hnone
  exact Firm.bind (steady_read (firm_skip (by rw [hc]; decide))) fun _ ↦ Steady.ready <|
    Firm.bind (steady_read firm_statement) fun value ↦
      (still_pure _ id (some value)).steady

/-- What follows accessors does not meet the end of the text where it looks for a value, if
something but blanks is left. -/
theorem last_finishAccessors {S : Text → Text → Text → Prop} {r : Kind × Signature × Text}
    (hS : ∀ t, S w.after v t → Ready w.after v t ∧ (r.1 ≠ .event → Written t)) :
    w.Last v prior S Any id (finishAccessors r) (finishAccessors r) := by
  refine .ite (fun _ ↦ ?_) fun hevent ↦ ?_
  · refine Steady.mono (S := Ready) (P := Any) ?_ (fun t ht ↦ (hS t ht).1) fun _ h ↦ h
    exact (still_create _ rfl).bind_steady last_emitMember
  · have hfinish : w.Last v prior Inked Any id (finishProperty r.2.1 r.2.2)
        (finishProperty r.2.1 r.2.2) :=
      firm_propertyValue.bind fun _ ↦ (still_create _ rfl).bind_steady last_emitMember
    exact hfinish.mono (fun t ht ↦ ⟨(hS t ht).1.sound, (hS t ht).2 hevent⟩) fun _ h ↦ h

/-- An operation that does the work of an opening brace. -/
theorem reaches_react_brace {m : RegionMarkers} {D : Pairing Draft} {d d' : Draft} {step : Step}
    (h : (w.pairing prior).Reaches D (accessors >>= finishAccessors) d step d') :
    (w.pairing prior).Reaches D (react m '\x7b') d (.done step) d' := by
  have hdone {D : Pairing Draft} (hp : (w.pairing prior).Passes D (accessors >>= finishAccessors) d
      step d') : (w.pairing prior).Passes D (react m '\x7b') d (.done step) d' := by
    intro e he
    obtain ⟨e', he', hpairs⟩ := hp e he
    refine ⟨e', ?_, hpairs⟩
    rw [react_brace]
    exact done_eq_ok.mpr ⟨step, he', rfl⟩
  exact h.imp hdone (And.imp_right hdone)

end Drafting

/-! ## In front of blanks -/

namespace Placement

variable {w : Placement}

/-- The placement with the blanks behind the text taken away. -/
def trimmed (w : Placement) : Placement := w.followed (w.after.dropWhile isBlank)

/-- Behind the text follows neither a comment nor a value. -/
def Quiet (w : Placement) : Prop := ∀ c ∈ (w.after.dropWhile isBlank).head?, c ≠ '/' ∧ c ≠ '='

theorem Quiet.ahead_ne (h : w.Quiet) : ahead w.trimmed.after ≠ '=' := by
  change ahead (w.after.dropWhile isBlank) ≠ '='
  cases ht : w.after.dropWhile isBlank with
  | nil => decide
  | cons c t => exact (h c (by rw [ht]; rfl)).2

theorem isBlank_of_mem_head?_trimmed {c : Char} (h : c ∈ w.trimmed.after.head?) :
    isBlank c = false := by
  have hhead := List.head?_dropWhile_not isBlank w.after
  rwa [show (w.after.dropWhile isBlank).head? = some c from h] at hhead

end Placement

namespace Drafting

variable {w : Placement} {prior : List ElementId}

variable {d d' : Draft} {step : Step}

/-- An operation of which one knows what it reads, in two placements behind the same tree. -/
theorem passes_of_runs {α : Type} {p : Drafting α} {v : Placement} {a : α}
    (h : ∀ tree block,
      Runs p ⟨d.cursor.rest ++ w.after, tree, block⟩ a ⟨d'.cursor.rest ++ v.after, tree, block⟩)
    (hbefore : v.before = w.before) (htree : d'.tree = d.tree) (hblock : d'.block = d.block) :
    (w.pairing prior).Passes (v.pairing prior) p d a d' := by
  intro e he
  obtain ⟨e', he', hsketch⟩ := h e.tree e.block e (by rw [← he.rest]; rfl)
  refine ⟨e', he', congrArg Sketch.rest hsketch, ?_, ?_⟩
  · rw [hbefore, htree, ← he.tree]
    exact congrArg Sketch.tree hsketch
  · rw [hbefore, hblock, ← he.block]
    exact congrArg Sketch.block hsketch

theorem runs_withTrailingComment_none {t : Text} {tree : Tree} {block : Block}
    (h : ∀ c ∈ t.head?, isBlank c = false ∧ c ≠ '/') (ids : List ElementId) :
    Runs (withTrailingComment ids) ⟨t, tree, block⟩ ids ⟨t, tree, block⟩ :=
  have hne {x c : Char} (hc : c ∈ t.head?) (hx : isBlank x = true) : c ≠ x := fun heq ↦
    absurd ((h c hc).1.symm.trans (heq ▸ hx)) Bool.false_ne_true
  (runs_read (yields_trailingComment?_none fun _ hc ↦
    ⟨hne hc (by decide), hne hc (by decide), (h _ hc).2⟩)).bind .pure

/-- No comment is found at the end of a text. -/
theorem withTrailingComment_at_end {ids ids' : List ElementId} (hrest : d.cursor.rest = [])
    (h : withTrailingComment ids d = .ok ids' d') :
    ids' = ids ∧ d'.cursor.rest = [] ∧ d'.tree = d.tree ∧ d'.block = d.block := by
  obtain ⟨d₁, hd₁, hsketch⟩ := runs_withTrailingComment_none (t := []) nofun ids d
    (by rw [← hrest]; rfl)
  cases h.symm.trans hd₁
  exact ⟨rfl, congrArg Sketch.rest hsketch, congrArg Sketch.tree hsketch,
    congrArg Sketch.block hsketch⟩

/-- No comment is found at the end of the text, nor in the longer text if none follows there. -/
theorem mirrors_emitMember_end {x : ElementId}
    (hafter : ∀ c ∈ w.after.head?, isBlank c = false ∧ c ≠ '/') (hrest : d.cursor.rest = [])
    (h : emitMember x d = .ok step d') :
    d'.cursor.rest = [] ∧ (w.pairing prior).Mirrors (emitMember (w.shift x)) d step d' := by
  obtain ⟨⟨⟩, d₁, hheader, h⟩ := bind_eq_ok.mp h
  obtain ⟨ids, d₂, htrailing, h⟩ := bind_eq_ok.mp h
  have hstill : (w.pairing prior).Still id (applyHeader x) _ := still_applyHeader x
  obtain ⟨hrest₁, hm₁⟩ := hstill hheader
  have hend : d₁.cursor.rest = [] := hrest₁.trans hrest
  obtain ⟨rfl, hrest₂, htree, hblock⟩ := withTrailingComment_at_end hend htrailing
  have hm₂ : (w.pairing prior).Mirrors (withTrailingComment [w.shift x]) d₁ [w.shift x] d₂ := by
    refine passes_of_runs (fun tree block ↦ ?_) rfl htree hblock
    rw [hend, hrest₂]
    exact runs_withTrailingComment_none hafter _
  have hstill' : (w.pairing prior).Still id (emit [x]) _ := still_emit [x]
  obtain ⟨hrest₃, hm₃⟩ := hstill' h
  exact ⟨hrest₃.trans hrest₂, hm₁.bind (hm₂.bind hm₃)⟩

/-- If only blanks are left in the text, there is no value, and in the longer text the blanks behind
it are passed as well. -/
theorem passes_propertyValue_end {value : Option Text} (hquiet : w.Quiet)
    (hblank : d.cursor.rest.dropWhile isBlank = []) (h : propertyValue d = .ok value d') :
    value = none ∧ d'.cursor.rest = [] ∧
      (w.pairing prior).Passes (w.trimmed.pairing prior) propertyValue d none d' := by
  obtain ⟨d₁, hd₁, hsketch⟩ := runs_propertyValue_none (by rw [hblank]; decide) d rfl
  cases h.symm.trans hd₁
  have hrest : d'.cursor.rest = [] := (congrArg Sketch.rest hsketch).trans hblank
  refine ⟨rfl, hrest, passes_of_runs (fun tree block ↦ ?_) rfl (congrArg Sketch.tree hsketch)
    (congrArg Sketch.block hsketch)⟩
  have hdrop : (d.cursor.rest ++ w.after).dropWhile isBlank = [] ++ w.trimmed.after := by
    rw [List.dropWhile_append, hblank]
    rfl
  rw [hrest, ← hdrop]
  refine runs_propertyValue_none ?_
  rw [hdrop]
  exact hquiet.ahead_ne

/-- If only blanks follow the accessors in the text, there is no value and no comment after them, in
the longer text either. -/
theorem reaches_finishProperty (hquiet : w.Quiet) {s : Signature} {accessors : Text}
    (hblank : d.cursor.rest.dropWhile isBlank = [])
    (h : finishProperty s accessors d = .ok step d') :
    (w.pairing prior).Reaches (w.trimmed.pairing prior) (finishProperty s accessors) d step d' := by
  obtain ⟨value, d₁, hvalue, h⟩ := bind_eq_ok.mp h
  obtain ⟨rfl, hrest, hm⟩ := passes_propertyValue_end hquiet hblank hvalue
  obtain ⟨x, d₂, hcreate, hemit⟩ := bind_eq_ok.mp h
  obtain ⟨hrest₂, hm₂⟩ := still_create (w := w.trimmed) _ rfl hcreate
  obtain ⟨hrest', hm'⟩ := mirrors_emitMember_end (w := w.trimmed)
    (fun c hc ↦ ⟨Placement.isBlank_of_mem_head?_trimmed hc, (hquiet c hc).1⟩)
    (hrest₂.trans hrest) hemit
  exact .inr ⟨hrest', hm.bind (hm₂.bind hm')⟩

/-- **An opening brace** in front of a text that begins with neither a comment nor a value. -/
theorem last_react_brace (hquiet : w.Quiet) (m : RegionMarkers) :
    w.Last (w.after.dropWhile isBlank) prior Ready Any (Signal.shift w.before.size)
      (react m '\x7b') (react m '\x7b') := by
  intro d signal d' hd
  refine ⟨trivial, fun hready ↦ .inr ⟨trivial, ?_⟩⟩
  rw [react_brace] at hd
  obtain ⟨step, hstep, rfl⟩ := done_eq_ok.mp hd
  obtain ⟨r, d₁, hread, hfinish⟩ := bind_eq_ok.mp hstep
  have haccessors : w.Firm (w.after.dropWhile isBlank) prior Sound Clear id accessors accessors :=
    firm_accessors
  obtain ⟨hm, hready₁⟩ := haccessors.mirrors hread hready.sound
  refine reaches_react_brace (hm.bind_reaches ?_)
  -- The blanks after the accessors are all that can lead across the end of the text.
  by_cases hwritten : r.1 ≠ .event → Written d₁.cursor.rest
  · have hlast : w.Last (w.after.dropWhile isBlank) prior (fun u v t ↦ Ready u v t ∧
        (r.1 ≠ .event → Written t)) Any id (finishAccessors r) (finishAccessors r) :=
      last_finishAccessors fun _ ht ↦ ht
    exact hlast.reaches hfinish ⟨hready₁, hwritten⟩
  · obtain ⟨hevent, hblank⟩ := Classical.not_imp.mp hwritten
    rw [finishAccessors, if_neg hevent] at hfinish
    rw [id_eq, finishAccessors, if_neg hevent]
    exact reaches_finishProperty hquiet (not_not.mp hblank) hfinish

end Drafting

end SharpOutline
