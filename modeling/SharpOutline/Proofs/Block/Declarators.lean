import SharpOutline.Proofs.Block.Comments
import SharpOutline.Proofs.Block.Declarations
import SharpOutline.Proofs.Block.FieldRows

/-!
# Declarations of several fields

A declaration of fields is read up to the end of its last name, or up to the first equals sign, and
from there to its semicolon at once. Either way all names are known in the end, with their initial
values; the first one gets what waited and the comment behind the declaration, and the others are
made from it (`FieldDeclaration.produces_fields`).
-/

namespace SharpOutline

open Drafting Machine Relation

/-! ## The comment behind a declaration -/

/-- The line with which a text begins, without its end, and what is left behind it. -/
def Text.BeginsWithLine (t line rest : Text) : Prop :=
  '\n' ∉ line ∧ (t = line ++ '\n' :: rest ∨ t = line ∧ rest = [])

/-- The comment that follows on the same line, if there is one, and what is left behind it. -/
inductive Text.FollowedBy : Text → Option Comment → Text → Prop
  | nothing {rest : Text} (h : ∀ c ∈ rest.head?, c ≠ ' ' ∧ c ≠ '\t' ∧ c ≠ '/') :
    FollowedBy rest none rest
  | line {t line rest : Text} (h : BeginsWithLine t line rest) (hslash : line.head? ≠ some '/') :
    FollowedBy ("//".toList ++ t) (some ⟨.line, dropReturn line⟩) rest
  | documentation {t line rest : Text} (h : BeginsWithLine t line rest) :
    FollowedBy ("///".toList ++ t) (some ⟨.documentation, dropReturn line⟩) rest
  | block {text rest : Text} (h : includes "*/".toList text = false) :
    FollowedBy ("/*".toList ++ (text ++ ("*/".toList ++ rest))) (some ⟨.block, text⟩) rest
  | space {c : Char} {t rest : Text} {comment : Option Comment} (hc : c = ' ' ∨ c = '\t')
    (h : FollowedBy t comment rest) : FollowedBy (c :: t) comment rest

namespace Reading

variable {t line rest text : Text} {comment : Option Comment}

theorem yields_line_of_beginsWithLine (h : Text.BeginsWithLine t line rest) :
    Yields Reading.line t (Text.dropReturn line) rest := by
  obtain ⟨hline, rfl | ⟨rfl, rfl⟩⟩ := h
  · exact yields_line hline
  · intro c hc
    have hall : t.takeWhile (· != '\n') = t := by
      rw [List.takeWhile_eq_self_iff]
      intro x hx
      rw [bne_iff_ne]
      rintro rfl
      exact hline hx
    refine ⟨c.skipLine, ?_, ?_⟩
    · have ht : c.line = Text.dropReturn t := by rw [Cursor.line, hc, hall]
      rw [← ht]
      rfl
    · rw [Cursor.skipLine, Cursor.rest_skip, hc, hall]
      simp

/-- What is read of a comment after the spaces before it. -/
def commentAhead? : Reading (Option Comment) := do
  let c ← peek
  if c = '/' then do
    skip 1
    let found ← comment?
    match found with
    | some comment => return some comment
    | none => throw (.unexpectedCharacter '/')
  else return none

theorem yields_commentAhead? {w : Text} {c : Comment} (h : comment?.Yields w (some c) rest) :
    commentAhead?.Yields ('/' :: w) (some c) rest := by
  have hskip : (skip 1).Yields ('/' :: w) () w := yields_skip 1
  exact yields_peek.bind (hskip.bind (h.bind .pure))

theorem yields_trailingComment?_of_followedBy (h : Text.FollowedBy t comment rest) :
    trailingComment?.Yields t comment rest := by
  have hskip {d : Char} (t : Text) : (skip 1).Yields (d :: t) () t := yields_skip 1
  suffices hahead : commentAhead?.Yields (t.dropWhile fun c ↦ c == ' ' || c == '\t') comment
      rest from yields_skipSpaces.bind hahead
  induction h with
  | @nothing rest h =>
    have hrest : rest.dropWhile (fun c ↦ c == ' ' || c == '\t') = rest := by
      cases rest with
      | nil => rfl
      | cons c rest =>
        obtain ⟨hspace, htab, -⟩ := h c rfl
        exact List.dropWhile_cons_of_neg (by simp [hspace, htab])
    have hslash : ahead rest ≠ '/' := by
      cases rest with
      | nil => decide
      | cons c rest => exact (h c rfl).2.2
    rw [hrest]
    refine yields_peek.bind ?_
    rw [if_neg hslash]
    exact .pure
  | @line t line rest h hslash =>
    have hahead : ahead t ≠ '/' := by
      obtain ⟨-, rfl | ⟨rfl, rfl⟩⟩ := h
      · cases line with
        | nil => simp
        | cons d line => simpa using hslash
      · cases t with
        | nil => decide
        | cons d t => simpa using hslash
    refine yields_commentAhead? (yields_peek.bind ((hskip t).bind ?_))
    have hkind : lineCommentKind.Yields t .line t := by
      refine yields_peek.bind ?_
      rw [if_neg hahead]
      exact .pure
    exact hkind.bind ((yields_line_of_beginsWithLine h).bind .pure)
  | @documentation t line rest h =>
    refine yields_commentAhead? (yields_peek.bind ((hskip ('/' :: t)).bind ?_))
    have hkind : lineCommentKind.Yields ('/' :: t) .documentation t :=
      yields_peek.bind ((hskip t).bind .pure)
    exact hkind.bind ((yields_line_of_beginsWithLine h).bind .pure)
  | @block text rest h =>
    have hspan := yields_span "*/".toList (blockCommentSpan_append rest h)
    rw [show (text ++ ("*/".toList ++ rest)).drop (text.length + 2) = rest by simp] at hspan
    refine yields_commentAhead? ?_
    exact yields_peek.bind ((hskip _).bind (hspan.bind .pure))
  | @space c t rest comment hc h ih =>
    rwa [List.dropWhile_cons_of_pos (by rcases hc with rfl | rfl <;> rfl)]

end Reading

/-! ## Reading a row of names -/

section Row

variable {m : RegionMarkers} {rest : Text} {t : Tree} {b : Block} {vs ws : List Text} {w v : Text}

variable {n : Text}

theorem startsNothing_of_mem (hv : v ∈ vs) (h : isLeadingWord v = false) : StartsNothing vs w where
  nameSpace hw := by
    rw [hw.2] at hv
    cases hv
  usingDirective hw := by
    rw [hw.2] at hv
    cases hv
  type hw := by
    rw [List.all_eq_true.mp hw.2 v hv] at h
    cases h

theorem passes_comma {y : Sketch} (hnext : endsWord (ahead rest) = true)
    (h : Runs wordEnd ⟨rest, t, { b with text := b.text ++ [','] }⟩ (.done .more) y) :
    Passes m ⟨',' :: rest, t, b⟩ y := by
  refine passes_of_done (runs_advance (by decide) (runs_block.bind ?_))
  refine (runs_push ',').bind ((runs_read Reading.yields_peek).bind ?_)
  rw [hnext, if_pos rfl]
  exact h

theorem isToken_append_comma (h : IsWord w) : IsToken (w ++ [',']) :=
  ⟨by simp, List.forall_mem_append.mpr
    ⟨h.isToken.2, List.forall_mem_singleton.mpr ⟨by decide, by decide⟩⟩⟩

/-- Names with commas between them are kept, where a type stands before them. -/
theorem passes_row (ns : List Text) (hvs : ∀ v ∈ vs, IsToken v) (hv : v ∈ vs)
    (hleading : isLeadingWord v = false) (hns : ∀ k ∈ ns ++ [n], IsWord k)
    (hnext : endsWord (ahead rest) = true) :
    Passes m ⟨Text.join partSeparator (ns ++ [n]) ++ rest, t, { b with text := spaced vs }⟩
      ⟨rest, t, { b with text := spaced vs ++ Text.join partSeparator (ns ++ [n]) }⟩ := by
  simp only [join_partSeparator_concat]
  induction ns generalizing vs with
  | nil =>
    have hn := hns n (by simp)
    exact passes_word hn hnext (runs_wordEnd_of_text rfl hvs hn.isToken
      (startsNothing_of_mem hv hleading))
  | cons k ns ih =>
    have hk := hns k (by simp)
    have htoken := isToken_append_comma hk
    let later := spaced (ns.map (· ++ [','])) ++ n ++ rest
    have hword : Passes m ⟨k ++ ',' :: ' ' :: later, t, { b with text := spaced vs }⟩
        ⟨',' :: ' ' :: later, t, { b with text := spaced vs ++ k }⟩ :=
      passes_word hk (by rw [ahead_cons]; decide)
        (runs_wordEnd_of_text rfl hvs hk.isToken (startsNothing_of_mem hv hleading))
    have hcomma : Passes m ⟨',' :: ' ' :: later, t, { b with text := spaced vs ++ k }⟩
        ⟨' ' :: later, t, { b with text := spaced vs ++ (k ++ [',']) }⟩ := by
      rw [← List.append_assoc]
      exact passes_comma (by rw [ahead_cons]; decide) (runs_wordEnd_of_text
        (List.append_assoc _ _ _) hvs htoken (startsNothing_of_mem hv hleading))
    have hspace : Passes m ⟨' ' :: later, t, { b with text := spaced vs ++ (k ++ [',']) }⟩
        ⟨later, t, { b with text := spaced (vs ++ [k ++ [',']]) }⟩ := by
      have hspaced : spaced (vs ++ [k ++ [',']]) = spaced vs ++ (k ++ [',']) ++ [' '] := by simp
      rw [hspaced]
      exact passes_blank (by decide) (by simp) (getLast?_spaced_append htoken)
    have hlater := ih (List.forall_mem_append.mpr ⟨hvs, List.forall_mem_singleton.mpr htoken⟩)
      (List.mem_append_left _ hv)
      (fun j hj ↦ hns j (List.mem_cons_of_mem k hj))
    have hall := ((hword.trans hcomma).trans hspace).trans hlater
    simpa [later] using hall

theorem endsInOperator_spaced (hvs : ∀ v ∈ vs, IsToken v) (hn : IsToken n)
    (hoperator : n ≠ "operator".toList) (hglued : Signature.gluedOperator? n = none) :
    endsInOperator (spaced vs ++ n ++ [' ']) = false := by
  have hspaced : spaced vs ++ n ++ [' '] = spaced (vs ++ [n]) := by simp
  have hwords : Text.words (spaced (vs ++ [n])) = vs ++ [n] :=
    words_spaced (List.forall_mem_append.mpr ⟨hvs, List.forall_mem_singleton.mpr hn⟩)
  rw [endsInOperator, hspaced, hwords, List.reverse_append, List.reverse_singleton,
    List.singleton_append, ← hspaced]
  simpa [hglued] using hoperator

end Row

/-! ## Ends of declarations -/

namespace Drafting

variable {α β : Type} {p : Drafting α} {f : α → Drafting β} {x y : Sketch} {a : α}
  {q : β → Draft → Prop}

/-- From the sketch `x` the operation succeeds, and its outcome is as `q` says. -/
def Ends (p : Drafting α) (x : Sketch) (q : α → Draft → Prop) : Prop :=
  ∀ d : Draft, d.sketch = x → ∃ a d', p d = .ok a d' ∧ q a d'

variable {m : RegionMarkers} {step : Step}

theorem Runs.bind_ends (h : Runs p x a y) (h' : Ends (f a) y q) : Ends (p >>= f) x q := by
  intro d hd
  obtain ⟨d', hp, hd'⟩ := h d hd
  obtain ⟨b, d'', hf, hq⟩ := h' d' hd'
  exact ⟨b, d'', bind_eq_ok.mpr ⟨a, d', hp, hf⟩, hq⟩

theorem ends_advance {c : Char} {t : Text} {tree : Tree} {block : Block} {q : Signal → Draft → Prop}
    (hc : endsBlock c = false) (h : Ends (react m c) ⟨t, tree, block⟩ q) :
    Ends (Drafting.advance m) ⟨c :: t, tree, block⟩ q := by
  intro d hd
  obtain ⟨hadvance, hd⟩ := advance_eq m hc hd
  rw [hadvance]
  exact h _ hd

theorem ends_done {p : Drafting Step} {q : Draft → Prop} (h : Ends p x fun s d ↦ s = step ∧ q d) :
    Ends (done p) x fun signal d ↦ signal = .done step ∧ q d := by
  intro d hd
  obtain ⟨s, d', hp, rfl, hq⟩ := h d hd
  exact ⟨.done s, d', bind_eq_ok.mpr ⟨s, d', hp, rfl⟩, rfl, hq⟩

theorem ends_react_semicolon {q : Draft → Prop} (h : Ends semicolon x fun s d ↦ s = step ∧ q d) :
    Ends (react m ';') x fun signal d ↦ signal = .done step ∧ q d :=
  runs_block.bind_ends (ends_done h)

theorem ends_react_equalsSign {q : Draft → Prop} (hoperator : endsInOperator x.block.text = false)
    (h : Ends equalsSign x fun s d ↦ s = step ∧ q d) :
    Ends (react m '=') x fun signal d ↦ signal = .done step ∧ q d := by
  refine runs_block.bind_ends ?_
  simp only [hoperator]
  exact ends_done h

end Drafting

/-- The machine reads on until so many elements are complete. -/
def Machine.Produces (m : RegionMarkers) (s : Machine) (count : Nat) (s' : Machine) : Prop :=
  ∃ r, ReflTransGen (Goes m) s r ∧ r.move m = .ok (.produced count) s'

theorem Machine.produces_of_passes {m : RegionMarkers} {d : Draft} {x : Sketch} {count : Nat}
    {q : Draft → Prop} (h : Passes m d.sketch x)
    (hends : Ends (Drafting.advance m) x fun signal d' ↦ signal = .done (.produced count) ∧ q d')
    (fs : List Frame) : ∃ d', Produces m ⟨d, fs⟩ count ⟨d', fs⟩ ∧ q d' := by
  obtain ⟨e, he, hgoes⟩ := h d rfl
  obtain ⟨signal, d', hadvance, rfl, hq⟩ := hends e he
  refine ⟨d', ⟨⟨e, fs⟩, hgoes fs, ?_⟩, hq⟩
  rw [move, hadvance]

/-! ## Declarations of fields -/

/-- The parts of a declaration of fields. -/
structure FieldDeclaration where
  /-- Keywords that state access, modifiers and flags, in any order. -/
  keywords : List Text
  /-- What the keywords state. -/
  signature : Signature
  type : Text
  names : List DeclaredName
  leading : ∀ w ∈ keywords, isLeadingWord w = true
  resolves : Signature.ofKeywords keywords = .ok signature
  typed : isIdentifier type = true ∧ isKeyword type = false
  named : names ≠ []
  regular : ∀ n ∈ names, n.IsRegular ∧ isKeyword n.name = false

namespace FieldDeclaration

variable (p : FieldDeclaration)

def written : Text :=
  spaced (p.keywords ++ [p.type]) ++
    (Text.join partSeparator (p.names.map DeclaredName.written) ++ [';'])

def field (comment : Option Comment) (n : DeclaredName) : Text × Field :=
  (n.name,
    { access := p.signature.access, modifiers := p.signature.modifiers, type := p.type
      initialValue := n.initialValue, isVolatile := p.signature.isVolatile
      isFixed := p.signature.isFixed, fixedSize := none, trailingComment := comment })

/-- The fields of the names in their order. Only the first one has the comment. -/
def fields (comment : Option Comment) : List (Text × Field) :=
  (p.names.take 1).map (p.field comment) ++ (p.names.drop 1).map (p.field none)

end FieldDeclaration

/-- A declaration may begin: the text of none has been read, and what waits can be given to it. -/
structure Draft.Awaits (d : Draft) (around : List Stem) : Prop where
  holds : d.Holds [] around
  text : d.block.text = []
  attributes : ∀ a ∈ d.block.attributes, d.tree.kind? a = some .attributeUse

namespace FieldDeclaration

variable {p : FieldDeclaration} {d : Draft} {around : List Stem} {rest after : Text}
  {comment : Option Comment} {first : DeclaredName} {names : List DeclaredName}

/-- What has become of the draft `d` when the fields have been declared. -/
def Declared (p : FieldDeclaration) (comment : Option Comment) (d : Draft) (around : List Stem)
    (rest : Text) (d' : Draft) : Prop :=
  d'.cursor.rest = rest ∧ d'.Holds [] around ∧ ∃ ids, d.DeclaresFields d' ids (p.fields comment)

/-- The signature with a type and a name, as the words of the declaration are sorted. -/
def sorted (p : FieldDeclaration) (name : Text) : Signature :=
  { p.signature with name := name, returnType := some p.type, operator := none }

variable {ns ks : List Text} {n v : Text} {later : List DeclaredName}

theorem toField_sorted (name : Text) (hn : first.IsRegular) (comment : Option Comment) :
    (p.sorted name).toField first comment = p.field comment first := by
  have hbracket : '[' ∉ first.name := not_mem_of_isIdentifier hn.isIdentifier (by decide)
  cases hfixed : p.signature.isFixed <;>
    simp [Signature.toField, sorted, field, hfixed, fixedSize_of_not_mem hbracket]

theorem kind_signature (p : FieldDeclaration) : p.signature.kind = .member :=
  Signature.kind_of_ofKeywords p.leading p.resolves

/-- The fields are made when all names are known. -/
theorem ends_create (hd : d.Awaits around) (hp : p.names = first :: names) :
    Ends (do
      let id ← create (p.field comment first).1 (.field (p.field comment first).2)
      emitNames true id names) ⟨rest, d.tree, d.block⟩
      fun step d' ↦ step = .produced p.names.length ∧ p.Declared comment d around rest d' := by
  intro e he
  obtain ⟨cursor, tree, block⟩ := d
  obtain ⟨rfl, rfl, rfl⟩ := Sketch.mk.inj he
  have hfurther : ∀ n ∈ names, '[' ∉ n.name := fun n hn ↦
    not_mem_of_isIdentifier (p.regular n (by simp [hp, hn])).1.isIdentifier (by decide)
  obtain ⟨ids, d', hcreate, hcursor, hholds, hfields⟩ :=
    declaresFields_of_create (d := e) (f := (p.field comment first).2) (p.field comment first).1
      ⟨hd.holds.linked, hd.holds.made, hd.holds.text⟩ hd.text hd.attributes rfl hfurther
  refine ⟨_, d', hcreate, by rw [hp, List.length_cons], by rw [hcursor], hholds, ids, ?_⟩
  have hrow : p.fields comment = p.field comment first :: names.map (p.field none) := by
    simp [fields, hp]
  rw [hrow]
  exact ⟨hfields.block, hfields.old, hfields.new, hfields.looks, hfields.apart⟩

/-! ### The text before the end -/

def row (p : FieldDeclaration) (ks : List Text) : Text :=
  spaced (p.keywords ++ [p.type]) ++ Text.join partSeparator ks

/-- The words of a row before its last name. -/
def rowWords (p : FieldDeclaration) (ns : List Text) : List Text :=
  p.keywords ++ [p.type] ++ ns.map (· ++ [','])

theorem row_concat (p : FieldDeclaration) (ns : List Text) (n : Text) :
    p.row (ns ++ [n]) = spaced (p.rowWords ns) ++ n := by
  rw [row, rowWords, join_partSeparator_concat, spaced_append _ (ns.map _), List.append_assoc]

theorem isWord_of_mem (p : FieldDeclaration) : ∀ w ∈ p.keywords ++ [p.type], IsWord w :=
  List.forall_mem_append.mpr ⟨fun w hw ↦ isWord_of_isLeadingWord (p.leading w hw),
    List.forall_mem_singleton.mpr (isWord_of_isIdentifier p.typed.1)⟩

theorem isIdentifier_of_mem {k : Text} (hk : k ∈ p.names.map DeclaredName.name) :
    isIdentifier k = true := by
  obtain ⟨n, hn, rfl⟩ := List.mem_map.mp hk
  exact (p.regular n hn).1.isIdentifier

theorem isToken_of_mem_rowWords (hns : ∀ k ∈ ns, isIdentifier k = true) :
    ∀ v ∈ p.rowWords ns, IsToken v := by
  intro v hv
  rcases List.mem_append.mp hv with hv | hv
  · exact (p.isWord_of_mem v hv).isToken
  · obtain ⟨k, hk, rfl⟩ := List.mem_map.mp hv
    exact isToken_append_comma (isWord_of_isIdentifier (hns k hk))

theorem trim_row (hks : ks ≠ []) (h : ∀ k ∈ ks, isIdentifier k = true) :
    Text.trim (p.row ks) = p.row ks := by
  obtain ⟨ns, n, rfl⟩ : ∃ ns n, ks = ns ++ [n] := ⟨_, _, (List.dropLast_append_getLast hks).symm⟩
  rw [row_concat]
  exact trim_spaced_append_token (isToken_of_mem_rowWords fun k hk ↦ h k (by simp [hk]))
    (isWord_of_isIdentifier (h n (by simp))).isToken

theorem declaredNames_row_eq (h : ∀ k ∈ n :: ns, isIdentifier k = true) :
    declaredNames (p.row (n :: ns)) =
      .ok (p.sorted n, { name := n }, ns.map fun k ↦ { name := k }) :=
  declaredNames_row p.leading p.resolves p.typed.1 p.typed.2 h

theorem row_ne_nil (ks : List Text) : p.row ks ≠ [] := by
  simp [row]

theorem declares_sorted (name : Text) {e : Terminator} (he : e = .statement ∨ e = .assignment) :
    (p.sorted name).declares e = .ok .field := by
  rcases he with rfl | rfl <;>
    simp [Signature.declares, Signature.declares.typed, sorted, kind_signature]

/-- Without initial values the declaration ends with its semicolon. -/
theorem ends_semicolon (hd : d.Awaits around) (hafter : Text.FollowedBy after comment rest)
    (hp : p.names = ks.map fun k ↦ { name := k }) :
    Ends semicolon ⟨after, d.tree, { d.block with text := p.row ks }⟩
      fun step d' ↦ step = .produced p.names.length ∧ p.Declared comment d around rest d' := by
  have hregular : ∀ k ∈ ks, DeclaredName.IsRegular ⟨k, none⟩ := fun k hk ↦
    (p.regular ⟨k, none⟩ (by rw [hp]; exact List.mem_map_of_mem hk)).1
  have hks : ks ≠ [] := by
    rintro rfl
    exact p.named hp
  have hidentifier : ∀ k ∈ ks, isIdentifier k = true := fun k hk ↦ (hregular k hk).isIdentifier
  refine (runs_takeText hd.text (trim_row hks hidentifier) after).bind_ends ?_
  rw [if_neg (by simp [row_ne_nil])]
  obtain ⟨k, ks, rfl⟩ := List.exists_cons_of_ne_nil hks
  refine (runs_ofExcept (declaredNames_row_eq hidentifier)).bind_ends ?_
  refine (runs_ofExcept (declares_sorted k (.inl rfl))).bind_ends ?_
  refine (runs_read (Reading.yields_trailingComment?_of_followedBy hafter)).bind_ends ?_
  rw [toField_sorted k (hregular k List.mem_cons_self)]
  exact ends_create hd hp

/-- The names up to the first one with an initial value. -/
theorem isIdentifier_of_mem_of_value
    (hp : p.names = (ns.map fun k ↦ { name := k }) ++ ⟨n, some v⟩ :: later) :
    ∀ k ∈ ns ++ [n], isIdentifier k = true := by
  intro k hk
  refine isIdentifier_of_mem (p := p) ?_
  rcases List.mem_append.mp hk with hk | hk
  · simp [hp, hk]
  · simp [hp, List.mem_singleton.mp hk]

/-- The rest of the declaration is read as one statement after the first equals sign. -/
theorem yields_statement (hv : v ≠ [] ∧ Text.trim v = v ∧ Text.IsClean v)
    (hlater : ∀ k ∈ later, k.IsRegular) (after : Text) :
    Reading.statement.Yields
      (' ' :: (Text.join partSeparator (v :: later.map DeclaredName.written) ++ ';' :: after))
      (Text.join partSeparator (v :: later.map DeclaredName.written)) after := by
  have hparts : ∀ q ∈ v :: later.map DeclaredName.written,
      Text.IsClean q ∧ q ≠ [] ∧ Text.trim q = q := by
    intro q hq
    rcases List.mem_cons.mp hq with rfl | hq
    · exact ⟨hv.2.2, hv.1, hv.2.1⟩
    · obtain ⟨k, hk, rfl⟩ := List.mem_map.mp hq
      exact ⟨(hlater k hk).isClean_written, (hlater k hk).trim_written⟩
  have hspan := Reading.yields_span [';'] (statementSpan_join (List.cons_ne_nil _ _)
    (fun q hq ↦ (hparts q hq).1) (fun q hq ↦ (hparts q hq).2) after)
  rwa [List.drop_succ_cons, ← List.drop_drop, List.drop_left, List.drop_succ_cons,
    List.drop_zero] at hspan

/-- With initial values the declaration is read to its end after the first equals sign. -/
theorem ends_equalsSign (hd : d.Awaits around) (hafter : Text.FollowedBy after comment rest)
    (hp : p.names = (ns.map fun k ↦ { name := k }) ++ ⟨n, some v⟩ :: later) :
    Ends equalsSign ⟨' ' :: (Text.join partSeparator (v :: later.map DeclaredName.written) ++
        ';' :: after), d.tree, { d.block with text := p.row (ns ++ [n]) ++ [' '] }⟩
      fun step d' ↦ step = .produced p.names.length ∧ p.Declared comment d around rest d' := by
  have hvalue := p.regular ⟨n, some v⟩ (by simp [hp])
  have hlater : ∀ k ∈ later, k.IsRegular := fun k hk ↦ (p.regular k (by simp [hp, hk])).1
  have hidentifier := isIdentifier_of_mem_of_value hp
  have htrim : Text.trim (p.row (ns ++ [n]) ++ [' ']) = p.row (ns ++ [n]) := by
    rw [Text.trim_append_singleton (by decide), trim_row (by simp) hidentifier]
  have hspan := yields_statement (hvalue.1.value v rfl) hlater after
  refine (runs_takeText hd.text htrim _).bind_ends ?_
  rw [if_neg (by simp [row_ne_nil])]
  refine (runs_read Reading.yields_peek).bind_ends ?_
  rw [ahead_cons, if_neg (by decide)]
  obtain ⟨k, ks, hks⟩ : ∃ k ks, ns ++ [n] = k :: ks := List.exists_cons_of_ne_nil (by simp)
  obtain ⟨first, names, hnames, hall⟩ := initializedNames_written (p.row (ns ++ [n])) v n
    (hvalue.1.value v rfl) hlater
    (congrArg (List.map fun k ↦ ({ name := k } : DeclaredName)) hks).symm
  rw [hks] at hidentifier hnames ⊢
  refine (runs_ofExcept (declaredNames_row_eq hidentifier)).bind_ends ?_
  refine (runs_ofExcept (declares_sorted k (.inr rfl))).bind_ends ?_
  refine (runs_read hspan).bind_ends ?_
  rw [if_pos rfl]
  refine (runs_read (Reading.yields_trailingComment?_of_followedBy hafter)).bind_ends ?_
  refine (runs_ofExcept hnames).bind_ends ?_
  have hfirst : first.IsRegular :=
    (p.regular first (by rw [hp, ← hall]; exact List.mem_cons_self)).1
  dsimp only
  rw [toField_sorted k hfirst]
  exact ends_create hd (hp.trans hall.symm)

/-! ### Whole declarations -/

theorem exists_first_value (ds : List DeclaredName) :
    (∃ ks : List Text, ds = ks.map fun k ↦ { name := k }) ∨
      ∃ (ns : List Text) (n v : Text) (later : List DeclaredName),
        ds = (ns.map fun k ↦ { name := k }) ++ ⟨n, some v⟩ :: later := by
  induction ds with
  | nil => exact .inl ⟨[], rfl⟩
  | cons d ds ih =>
    obtain ⟨k, value⟩ := d
    cases value with
    | some v => exact .inr ⟨[], k, v, ds, rfl⟩
    | none =>
      rcases ih with ⟨ks, rfl⟩ | ⟨ns, n, v, later, rfl⟩
      · exact .inl ⟨k :: ks, rfl⟩
      · exact .inr ⟨k :: ns, n, v, later, rfl⟩

/-- The keywords, the type and the names up to one are kept as the text of a declaration. -/
theorem passes_names (p : FieldDeclaration) (m : RegionMarkers) (hd : d.Awaits around)
    (hns : ∀ k ∈ ns ++ [n], isIdentifier k = true) (hnext : endsWord (ahead rest) = true) :
    Passes m ⟨p.row (ns ++ [n]) ++ rest, d.tree, d.block⟩
      ⟨rest, d.tree, { d.block with text := p.row (ns ++ [n]) }⟩ := by
  have hstart : ∀ w ∈ p.keywords ++ [p.type], ∀ before, StartsNothing before w :=
    List.forall_mem_append.mpr ⟨fun w hw _ ↦ startsNothing_of_isLeadingWord (p.leading w hw),
      List.forall_mem_singleton.mpr fun _ ↦ startsNothing_of_isKeyword p.typed.2⟩
  have hblock : { d.block with text := spaced [] } = d.block := by
    rw [spaced_nil, ← hd.text]
  have hwords : Passes m ⟨p.row (ns ++ [n]) ++ rest, d.tree, d.block⟩
      ⟨Text.join partSeparator (ns ++ [n]) ++ rest, d.tree,
        { d.block with text := spaced (p.keywords ++ [p.type]) }⟩ := by
    rw [row, List.append_assoc, ← hblock]
    exact passes_spaced d.block [] (by simp) p.isWord_of_mem hstart
  have hleading : isLeadingWord p.type = false := by
    have hword := isDeclarationWord_of_isKeyword p.typed.2
    simp only [isDeclarationWord, Bool.or_eq_false_iff] at hword
    exact hword.1.1.1
  exact hwords.trans (passes_row ns (fun v hv ↦ (p.isWord_of_mem v hv).isToken) (by simp) hleading
    (fun k hk ↦ isWord_of_isIdentifier (hns k hk)) hnext)

theorem written_append_of_names (hp : p.names = ks.map fun k ↦ { name := k })
    (after : Text) : p.written ++ after = p.row ks ++ ';' :: after := by
  simp [written, row, hp, Function.comp_def, DeclaredName.written]

theorem written_append_of_value
    (hp : p.names = (ns.map fun k ↦ { name := k }) ++ ⟨n, some v⟩ :: later) (after : Text) :
    p.written ++ after = p.row (ns ++ [n]) ++ ' ' :: '=' :: ' ' ::
      (Text.join partSeparator (v :: later.map DeclaredName.written) ++ ';' :: after) := by
  have hwritten : p.names.map DeclaredName.written =
      ns ++ (n ++ " = ".toList ++ v) :: later.map DeclaredName.written := by
    simp [hp, Function.comp_def, DeclaredName.written]
  rw [written, row, hwritten, join_append_written]
  simp

/-- The reader goes from the keywords to the end of the declaration. -/
theorem exists_produces (p : FieldDeclaration) (m : RegionMarkers) (fs : List Frame)
    (hd : d.Awaits around) (hafter : Text.FollowedBy after comment rest)
    (hrest : d.cursor.rest = p.written ++ after) :
    ∃ d', Produces m ⟨d, fs⟩ p.names.length ⟨d', fs⟩ ∧ p.Declared comment d around rest d' := by
  rcases exists_first_value p.names with ⟨ks, hp⟩ | ⟨ns, n, v, later, hp⟩
  · obtain ⟨ns, n, rfl⟩ : ∃ ns n, ks = ns ++ [n] := by
      have hks : ks ≠ [] := by
        rintro rfl
        exact p.named hp
      exact ⟨_, _, (List.dropLast_append_getLast hks).symm⟩
    refine produces_of_passes ?_ (ends_advance (by decide) (ends_react_semicolon
      (ends_semicolon hd hafter hp))) fs
    rw [Draft.sketch, hrest, written_append_of_names hp]
    exact p.passes_names m hd (fun k hk ↦ isIdentifier_of_mem (p := p) (by simpa [hp] using hk))
      (by rw [ahead_cons]; decide)
  · have hns := isIdentifier_of_mem_of_value hp
    have hn := p.regular ⟨n, some v⟩ (by simp [hp])
    have htoken : IsToken n := hn.1.isWord.isToken
    have hoperator : endsInOperator (p.row (ns ++ [n]) ++ [' ']) = false := by
      rw [row_concat]
      exact endsInOperator_spaced
        (isToken_of_mem_rowWords fun k hk ↦ hns k (List.mem_append_left _ hk)) htoken
        (ne_operator_of_isKeyword hn.2) (gluedOperator?_of_isIdentifier hn.1.isIdentifier)
    refine produces_of_passes ?_ (ends_advance (by decide) (ends_react_equalsSign hoperator
      (ends_equalsSign hd hafter hp))) fs
    rw [Draft.sketch, hrest, written_append_of_value hp]
    refine (p.passes_names m hd hns (by rw [ahead_cons]; decide)).trans
      (passes_blank (by decide) (row_ne_nil _) ?_)
    rw [row_concat]
    exact getLast?_spaced_append htoken

/-- **Fields that are declared together.** Keywords, a type and names with initial values, as many
as there may be, become as many fields in the same order, whatever comments and attributes wait.
All have the access and the modifiers that the keywords state and the same type, and each has its
own copies of what waited; only the first one has the comment behind the declaration. -/
theorem produces_fields (p : FieldDeclaration) (m : RegionMarkers) (fs : List Frame)
    (hd : d.Awaits around) (hafter : Text.FollowedBy after comment rest)
    (hrest : d.cursor.rest = p.written ++ after) :
    (Access.resolve? (p.keywords.filter isAccessWord) = some p.signature.access ∧
      p.signature.modifiers =
        (p.keywords.filterMap Modifier.ofKeyword?).foldl Modifiers.insert .empty) ∧
    ∃ ids d', Produces m ⟨d, fs⟩ p.names.length ⟨d', fs⟩ ∧ d'.cursor.rest = rest ∧
      d'.Holds [] around ∧ d.DeclaresFields d' ids (p.fields comment) := by
  obtain ⟨-, a, ha, hs⟩ := (Signature.ofKeywords_eq_ok_iff p.leading).mp p.resolves
  obtain ⟨d', hproduces, hcursor, hholds, ids, hfields⟩ := p.exists_produces m fs hd hafter hrest
  refine ⟨⟨?_, ?_⟩, ids, d', hproduces, hcursor, hholds, hfields⟩
  · rw [ha, hs]
  · rw [hs]
    exact Signature.modifiers_foldl_withKeyword {} p.keywords

/-- A declaration with an initial value in the middle and one at the end. -/
def sharedType : FieldDeclaration where
  keywords := ["static".toList, "internal".toList, "protected".toList]
  signature := { access := .toHeirsOrAssembly, modifiers := Modifiers.empty.insert .shared }
  type := "int".toList
  names := [⟨"a".toList, none⟩, ⟨"b".toList, some "F(1, \";\") + G<int, T>()".toList⟩,
    ⟨"c".toList, none⟩, ⟨"d".toList, some "2".toList⟩]
  leading := by decide +kernel
  resolves := by decide +kernel
  typed := by decide +kernel
  named := by decide
  regular := by decide +kernel

/-- A comment and an attribute wait for what is read next. -/
def waitingDraft (source : Text) : Draft where
  cursor := .start source
  tree := (Tree.create {} "A".toList (.attributeUse ⟨none, none⟩)).create [] (.comment ⟨.line, []⟩)
  block := { comments := [1], attributes := [0] }

theorem awaits_waitingDraft (source : Text) : (waitingDraft source).Awaits [] where
  holds :=
    { linked := (Tree.Linked.empty.create _ _).create _ _
      made := (Tree.MadeOf.empty.create (s := .whole 0) rfl rfl trivial).create (s := .note 1) rfl
        rfl ⟨_, rfl⟩
      text := .nil }
  text := rfl
  attributes a ha := by
    rw [List.mem_singleton.mp ha]
    rfl

theorem produces_fields_sharedType :
    sharedType.written =
      "static internal protected int a, b = F(1, \";\") + G<int, T>(), c, d = 2;".toList ∧
    ∃ ids d', Produces ⟨Pattern.empty.nameIn?, Pattern.empty.nameIn?⟩
        ⟨waitingDraft (sharedType.written ++ " // note\nint e;".toList), []⟩ 4 ⟨d', []⟩ ∧
      d'.cursor.rest = "int e;".toList ∧ d'.Holds [] [] ∧
      (waitingDraft (sharedType.written ++ " // note\nint e;".toList)).DeclaresFields d' ids
        (sharedType.fields (some ⟨.line, " note".toList⟩)) := by
  have hline : Text.BeginsWithLine " note\nint e;".toList " note".toList "int e;".toList :=
    ⟨by decide, .inl rfl⟩
  have hafter : Text.FollowedBy " // note\nint e;".toList (some ⟨.line, " note".toList⟩)
      "int e;".toList :=
    .space (.inl rfl) (.line (t := " note\nint e;".toList) hline (by decide))
  exact ⟨by decide +kernel,
    (produces_fields sharedType ⟨Pattern.empty.nameIn?, Pattern.empty.nameIn?⟩ []
      (awaits_waitingDraft _) hafter rfl).2⟩

end FieldDeclaration

end SharpOutline
