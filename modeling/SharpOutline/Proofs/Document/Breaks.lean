import SharpOutline.Proofs.Block.LineBreaks
import SharpOutline.Proofs.Document.Extent

/-!
# A document in front of a line break

What follows a document on the next line is read as if it began a new document
(`Document.Settles`), with one exception: if the document ends with the accessors of a property,
then an initial value of the property is looked for there (`Document.Lingers`). The two cases are
told apart by an equals sign on the next line, which is refused in the first one
(`Document.awaitsValue`).

A document that an end mark has ended early is read in the same way whatever follows
(`Document.parse_append_of_unread`).
-/

namespace SharpOutline

open SharpOutline.Tree Drafting Pairing

variable {m : RegionMarkers}

/-! ## Behind accessors -/

namespace Draft

variable {d : Draft}

/-- The next character of `d` opens the accessors of a property, and behind them `d₁` is reached,
where only blanks are left. The accessors are the same if a line break follows the text, and what
comes behind them is looked for after the break. -/
structure Closes (m : RegionMarkers) (s : Signature) (inside : Text) (d d₁ : Draft) : Prop where
  blank : d₁.cursor.rest.dropWhile isBlank = []
  eq : advance m d = done (finishProperty s inside) d₁
  lined : ∀ ⦃w : Placement⦄ ⦃prior f⦄, w.lined.Places prior d f →
    ∃ f₁, w.lined.Places prior d₁ f₁ ∧ advance m f = done (finishProperty s inside) f₁

theorem EndsInAccessors.rest_eq (h : d.EndsInAccessors) : ∃ u, d.cursor.rest = '\x7b' :: u := by
  have hahead : ahead d.cursor.rest = '\x7b' := h.1
  cases hrest : d.cursor.rest with
  | nil =>
    rw [hrest] at hahead
    cases hahead
  | cons c u =>
    rw [hrest] at hahead
    exact ⟨u, congrArg (· :: u) hahead⟩

theorem EndsInAccessors.closes (m : RegionMarkers) (h : d.EndsInAccessors) :
    ∃ s inside d₁, Closes m s inside d d₁ := by
  obtain ⟨u, hu⟩ := h.rest_eq
  obtain ⟨hpeek, ⟨kind, s, inside⟩, d₁, hread, hkind, hblank⟩ := h
  have hadvance {f f₁ : Draft} (hf : f.cursor.peek = '\x7b')
      (hread : accessors { f with cursor := f.cursor.advance } = .ok (kind, s, inside) f₁) :
      advance m f = done (finishProperty s inside) f₁ := by
    rw [advance, hf, if_neg (by decide), react_brace]
    simp only [done, Bind.bind, EStateM.bind, hread, finishAccessors, if_neg hkind]
  refine ⟨s, inside, d₁, not_not.mp hblank, hadvance hpeek hread, fun w prior f hf ↦ ?_⟩
  have hplaces : w.lined.Places prior { d with cursor := d.cursor.advance }
      { f with cursor := f.cursor.advance } := by
    refine ⟨?_, hf.tree, hf.block⟩
    simp only [Cursor.rest_advance, hf.rest, hu, List.cons_append, List.drop_one, List.tail_cons]
  have haccessors : w.lined.Firm w.after prior Sound Clear id accessors accessors := firm_accessors
  obtain ⟨f₁, hread', hf₁⟩ := (haccessors.mirrors hread (w.ready_lined _).sound).1 _ hplaces
  refine ⟨f₁, hf₁, hadvance ?_ hread'⟩
  rw [Cursor.peek, hf.rest, hu]
  rfl

end Draft

namespace Drafting

variable {d d' d₁ : Draft} {s : Signature} {inside rest : Text} {step : Step}

theorem runs_applyHeader_of_eq_ok {x : ElementId} (h : applyHeader x d = .ok () d')
    (hrest : d.cursor.rest = []) (u : Text) :
    Runs (applyHeader x) ⟨u, d.tree, d.block⟩ () ⟨u, d'.tree, d'.block⟩ := by
  intro f hf
  let w : Placement := ⟨{}, rfl, u⟩
  have hplaces : w.Places [] d f := by
    refine ⟨?_, ?_, ?_⟩
    · rw [hrest]
      exact congrArg Sketch.rest hf
    · exact (congrArg Sketch.tree hf).trans (empty_append d.tree).symm
    · exact (congrArg Sketch.block hf).trans (Block.shift_zero d.block).symm
  have hstill : (w.pairing []).Still id (applyHeader x) _ := still_applyHeader x
  obtain ⟨hrest', hm⟩ := hstill h
  obtain ⟨f', hf', hplaces'⟩ := hm f hplaces
  obtain ⟨htree, hblock⟩ := hplaces'.of_empty rfl
  rw [Placement.shift, show w.before.size + x = x from Nat.zero_add x] at hf'
  refine ⟨f', hf', ?_⟩
  rw [Draft.sketch, htree, hblock, hplaces'.rest, show d'.cursor.rest = [] from hrest'.trans hrest]
  rfl

/-- A property whose accessors end a text has no initial value, and no comment follows it. -/
theorem finishProperty_eq_ok (hblank : d₁.cursor.rest.dropWhile isBlank = [])
    (h : finishProperty s inside d₁ = .ok step d) :
    d.cursor.rest = [] ∧ ∃ e e' : Draft, e.cursor.rest = [] ∧ e.block = d₁.block ∧
      e.tree = d₁.tree.create (s.toProperty (.block inside) none).1
        (.property (s.toProperty (.block inside) none).2) ∧
      applyHeader d₁.tree.size e = .ok () e' ∧ (d.block.scopes = [] → d.tree = e'.tree ∧
        d.block = { e'.block with elements := e'.block.elements ++ [d₁.tree.size] }) := by
  have hfinish : (propertyValue >>= fun value ↦ create (s.toProperty (.block inside) value).1
      (.property (s.toProperty (.block inside) value).2) >>= emitMember) d₁ = .ok step d := h
  obtain ⟨value, e₀, hvalue, hfinish⟩ := bind_eq_ok.mp hfinish
  obtain ⟨e₀', hvalue', hsketch⟩ := runs_propertyValue_none (by rw [hblank]; decide) d₁ rfl
  cases hvalue.symm.trans hvalue'
  obtain ⟨x, e, hcreate, hemit⟩ := bind_eq_ok.mp hfinish
  obtain ⟨hx, he⟩ := EStateM.Result.ok.inj hcreate
  have hrest : e.cursor.rest = [] := by
    rw [← he]
    exact (congrArg Sketch.rest hsketch).trans hblank
  have htree : e₀.tree = d₁.tree := congrArg Sketch.tree hsketch
  rw [htree] at hx he
  subst hx
  let w : Placement := ⟨{}, rfl, []⟩
  have hemitted : _ ∧ (w.pairing []).Mirrors _ e step d := mirrors_emitMember_end nofun hrest hemit
  refine ⟨hemitted.1, ?_⟩
  obtain ⟨⟨⟩, e', hheader, hemit⟩ := bind_eq_ok.mp hemit
  obtain ⟨ids, e'', htrailing, hemit⟩ := bind_eq_ok.mp hemit
  refine ⟨e, e', hrest, ?_, ?_, hheader, fun hscopes ↦ ?_⟩
  · rw [← he]
    exact congrArg Sketch.block hsketch
  · rw [← he]
  · obtain ⟨u, rfl⟩ := applyHeader_eq_ok hheader
    obtain ⟨rfl, -, htree', hblock⟩ := withTrailingComment_at_end (by exact hrest) htrailing
    rw [emit_eq_ok_of_scopes_eq_nil hemit hscopes]
    exact ⟨htree', by rw [hblock]⟩

/-- An equals sign behind the accessors begins an initial value, of which the end is missed. -/
theorem fails_finishProperty_equals {tree : Tree} {block : Block}
    (hequals : rest.dropWhile isBlank = ['=']) :
    Fails (finishProperty s inside) ⟨rest, tree, block⟩ (.unexpectedEnd [';']) := by
  have hskip : (Reading.skip 1).Yields ['='] () [] := Reading.yields_skip 1
  have hstatement : Fails (read Reading.statement) ⟨[], tree, block⟩ (.unexpectedEnd [';']) := by
    rintro d hd
    have hnil : d.cursor.rest = [] := congrArg Sketch.rest hd
    refine ⟨{ d with cursor := d.cursor.toEnd }, ?_⟩
    rw [read, Reading.statement, Reading.span, hnil]
    rfl
  refine Fails.bind ((runs_read Reading.yields_skipBlanks).bind_fails ?_)
  rw [hequals]
  refine (runs_read Reading.yields_peek).bind_fails ?_
  rw [if_pos (show ahead ['='] = '=' from rfl)]
  exact (runs_read hskip).bind_fails hstatement.bind

end Drafting

/-! ## Up to a line break -/

namespace Machine

variable {s s' t : Machine} {step : Step} {w : Placement} {prior : List ElementId} {d : Draft}

/-- The accessors that end a text are read in one move, after which nothing is left. -/
theorem Moves.of_endsInAccessors (hm : Moves m s step s') (h : s.draft.EndsInAccessors) :
    s'.frames = s.frames ∧ s'.draft.cursor.rest = [] ∧ ∃ sig inside d₁,
      Draft.Closes m sig inside s.draft d₁ ∧ finishProperty sig inside d₁ = .ok step s'.draft := by
  obtain ⟨sig, inside, d₁, hcloses⟩ := h.closes m
  cases hm with
  | opened ha =>
    obtain ⟨step, -, hdone⟩ := done_eq_ok.mp (hcloses.eq.symm.trans ha)
    cases hdone
  | ended ha | left ha =>
    obtain ⟨hend, -⟩ := advance_eq_finished ha
    rw [h.1] at hend
    cases hend
  | stepped ha hstep =>
    obtain ⟨step', hfinish, hdone⟩ := done_eq_ok.mp (hcloses.eq.symm.trans ha)
    obtain rfl := Signal.done.inj hdone
    exact ⟨rfl, (finishProperty_eq_ok hcloses.blank hfinish).1, sig, inside, d₁, hcloses, hfinish⟩

/-- **A run that does not come to the end of its text** is the same in front of a line break. -/
theorem Placed.run_lined (h : Placed w.lined prior s t) (hrun : Machine.run m s = .ok () d)
    (hrest : d.cursor.rest ≠ []) :
    ∃ e, Machine.run m t = .ok () e ∧ w.lined.Places prior d e := by
  -- What is left at the end of the run is left in all of its states.
  have hleft {s : Machine} (hs : Machine.run m s = .ok () d) : s.draft.cursor.rest ≠ [] :=
    fun hnil ↦ hrest (List.suffix_nil.mp (hnil ▸ rest_suffix_of_run hs))
  refine h.run_of_moves (I := fun s ↦ Machine.run m s = .ok () d) (fun hs hplaced hm ↦ ?_)
    (fun _ ↦ ?_) hrun hrun
  · have hs' := hm.run_eq.symm.trans hs
    obtain ⟨t', hm', hplaced'⟩ := hplaced.moves_lined hm (hleft hs) fun hlate ↦
      hleft hs' (hm.of_endsInAccessors hlate).2.1
    exact ⟨hs', t', hm', hplaced'.resolve_right fun hp ↦ hleft hs' hp.1⟩
  · rw [ahead_append _ hrest]
    exact endsBlock_of_run hrun

end Machine

/-! ## Documents -/

namespace Document

variable {source rest : Text} {t t₁ t₂ : Tree}

/-- Where only the elements of a document have been read, what follows is read as a document of its
own. -/
theorem parse_of_run_eq {f : Draft} (h : parse m rest = .ok t₂)
    (hf : f.sketch = ⟨rest, { t₁ with roots := [] }, { elements := t₁.roots }⟩)
    (heq : Machine.run m ⟨start source, []⟩ = Machine.run m ⟨f, []⟩) :
    parse m source = .ok (t₁.append t₂) := by
  obtain ⟨d, ids, e, hrun, hfinish, hbrace, rfl⟩ := parse_eq_ok_iff_run.mp h
  have hplaced : Machine.Placed ⟨{ t₁ with roots := [] }, rfl, []⟩ t₁.roots ⟨start rest, []⟩
      ⟨f, []⟩ := placed_of_sketch rfl rfl hf
  obtain ⟨d', hrun', hd'⟩ := hplaced.run rfl hrun
  obtain ⟨-, hm⟩ := still_finishBlock hfinish
  obtain ⟨e', hfinish', he'⟩ := hm d' hd'
  refine parse_eq_ok_iff_run.mpr ⟨d', _, e', heq.trans hrun', hfinish', ?_, ?_⟩
  · rwa [Cursor.peek, he'.rest, List.append_nil]
  · rw [he'.tree]
    rfl

/-- A character that is refused on the way is a fault of the document. -/
theorem parse_of_advance_error {d f : Draft} {fault : Fault}
    (heq : Machine.run m ⟨start source, []⟩ = Machine.run m ⟨f, []⟩)
    (h : advance m f = .error fault d) :
    ∃ position, parse m source = .error ⟨fault, position⟩ := by
  have hmove : Machine.move m ⟨f, []⟩ = .error fault ⟨d, []⟩ := by rw [Machine.move, h]
  have hrun : Machine.run m ⟨start source, []⟩ = .error fault d := by
    rw [heq, Machine.run]
    split
    · rename_i e s hmove'
      cases hmove.symm.trans hmove'
      rfl
    · rename_i step s hmove'
      cases hmove.symm.trans hmove'
  have hblock : readBlock m (start source) = .error fault { d with block := {} } := by
    rw [readBlock, show Machine.run m ⟨{ start source with block := {} }, []⟩ = _ from hrun]
    rfl
  have hread : read m (start source) = .error fault { d with block := {} } := by
    simp only [read, Bind.bind, EStateM.bind, hblock]
  exact ⟨_, by rw [parse, hread]⟩

/-- The document is complete at its end: what follows on later lines is read as if nothing but the
elements of the document had been there. -/
def Settles (m : RegionMarkers) (source : Text) (t : Tree) : Prop :=
  ∀ u, ∃ f : Draft,
    f.sketch = ⟨u.dropWhile isBlank, { t with roots := [] }, { elements := t.roots }⟩ ∧
      Machine.run m ⟨start (source ++ '\n' :: u), []⟩ = Machine.run m ⟨f, []⟩

/-- The document ends with the accessors of a property, and what follows on later lines may belong
to the property. -/
def Lingers (m : RegionMarkers) (source : Text) (t : Tree) : Prop :=
  ∃ s inside step, ∃ d d₁ : Draft, d₁.cursor.rest.dropWhile isBlank = [] ∧
    finishProperty s inside d₁ = .ok step d ∧ d.tree = { t with roots := [] } ∧
    d.block = { elements := t.roots } ∧ ∀ u, ∃ f f₁ : Draft,
      f₁.sketch = ⟨d₁.cursor.rest ++ '\n' :: u, d₁.tree, d₁.block⟩ ∧
      advance m f = done (finishProperty s inside) f₁ ∧
      Machine.run m ⟨start (source ++ '\n' :: u), []⟩ = Machine.run m ⟨f, []⟩

theorem placed_start_lined (source u : Text) :
    Machine.Placed (Placement.lined ⟨{}, rfl, u⟩) [] ⟨start source, []⟩
      ⟨start (source ++ '\n' :: u), []⟩ :=
  ⟨⟨rfl, (empty_append {}).symm, rfl⟩, rfl⟩

/-- The run of the document has come to the end of the text. -/
theorem settles_of_abreast {d : Draft} (h : Machine.Abreast m ⟨start source, []⟩ ⟨d, []⟩)
    (hrest : d.cursor.rest = []) (htree : d.tree = { t with roots := [] })
    (hblock : d.block = { elements := t.roots }) : Settles m source t := by
  intro u
  obtain ⟨⟨f, fs⟩, heq, hplaced⟩ := h (placed_start_lined source u)
  obtain rfl : fs = [] := hplaced.elim (·.frames) (·.2.frames)
  -- The line break may have been passed, and can be if it has not.
  have hsketch : f.tree = d.tree ∧ f.block = d.block ∧
      f.cursor.rest.dropWhile isBlank = u.dropWhile isBlank := by
    rcases hplaced with hplaced | ⟨-, hplaced⟩
    · refine and_assoc.mp ⟨hplaced.draft.of_empty rfl, ?_⟩
      rw [hplaced.draft.rest, hrest]
      rfl
    · refine and_assoc.mp ⟨hplaced.draft.of_empty rfl, ?_⟩
      rw [hplaced.draft.rest, hrest]
      rfl
  obtain ⟨hftree, hfblock, hfrest⟩ := hsketch
  obtain ⟨f', hf', hrun⟩ := exists_run_dropWhile m (d := f) (by rw [hfblock, hblock])
  rw [hfrest, hftree, hfblock, hblock, htree] at hf'
  exact ⟨f', hf', heq.trans hrun⟩

/-- The run of the document has come to accessors that end the text. -/
theorem lingers_of_abreast {d d₀ d₁ : Draft} {s : Signature} {inside : Text} {step : Step}
    (h : Machine.Abreast m ⟨start source, []⟩ ⟨d₀, []⟩) (hlate : d₀.EndsInAccessors)
    (hcloses : Draft.Closes m s inside d₀ d₁) (hproperty : finishProperty s inside d₁ = .ok step d)
    (htree : d.tree = { t with roots := [] }) (hblock : d.block = { elements := t.roots }) :
    Lingers m source t := by
  refine ⟨s, inside, step, d, d₁, hcloses.blank, hproperty, htree, hblock, fun u ↦ ?_⟩
  obtain ⟨⟨f, fs⟩, heq, hplaced⟩ := h (placed_start_lined source u)
  have hplaced := hplaced.resolve_right fun hp ↦ by
    obtain ⟨v, hv⟩ := hlate.rest_eq
    cases hv.symm.trans hp.1
  obtain rfl : fs = [] := hplaced.frames
  obtain ⟨f₁, hf₁, hadvance⟩ := hcloses.lined hplaced.draft
  obtain ⟨hftree, hfblock⟩ := hf₁.of_empty rfl
  refine ⟨f, f₁, ?_, hadvance, heq⟩
  rw [Draft.sketch, hftree, hfblock, hf₁.rest]
  rfl

/-- **A document in front of a line break.** If all of the document has been read, it is the
namespace of no whole file and it does not end with a comment, then it is complete or ends with the
accessors of a property. -/
theorem settles_or_lingers (h : parse m source = .ok t) (hend : unread m source = [])
    (hfile : ∀ r ∈ t.roots, t.element? r ≠ some (.nameSpace true))
    (hnote : ∀ r ∈ t.roots.getLast?, t.kind? r ≠ some .comment) :
    Settles m source t ∨ Lingers m source t := by
  obtain ⟨d, ids, e, hrun, hfinish, hbrace, rfl⟩ := parse_eq_ok_iff_run.mp h
  rw [unread_of_run hrun hfinish hbrace] at hend
  obtain ⟨-, -, -, -, htree, -⟩ := finishBlock_eq_ok hfinish
  have hroots : e.tree.roots = [] := (madeOf_of_run hrun hfinish).2.roots
  have htree' : d.tree = { e.tree with roots := [] } := by rw [← htree, ← hroots]
  obtain ⟨s, hholds, hrun', habreast, hstop⟩ := Machine.run_to_break (fun h hm ↦ h.moves hm) hrun
    hend (holds_start source)
  rcases hstop with hrest | hlate
  · obtain ⟨rfl, hblock⟩ := Machine.settled_of_run hrun' hholds hrest hfinish hfile hnote
    exact .inl (settles_of_abreast habreast hend htree' hblock)
  · obtain ⟨step, s', hm, -⟩ := Machine.run_eq_ok hrun'
    obtain ⟨hframes, hrest, sig, inside, d₁, hcloses, hproperty⟩ := hm.of_endsInAccessors hlate
    obtain ⟨rfl, hblock⟩ := Machine.settled_of_run (hm.run_eq.symm.trans hrun') (hholds.moves hm)
      hrest hfinish hfile hnote
    obtain ⟨d₀, fs⟩ := s
    obtain rfl : [] = fs := hframes
    exact .inr (lingers_of_abreast habreast hlate hcloses hproperty htree' hblock)

/-- The text can go on with an initial value on the next line: of an equals sign that stands there
only the end of the value is missed. -/
def awaitsValue (m : RegionMarkers) (source : Text) : Bool :=
  match parse m (source ++ "\n=".toList) with
  | .ok _ => false
  | .error e => e.fault == .unexpectedEnd [';']

theorem Settles.awaitsValue (h : Settles m source t) : awaitsValue m source = false := by
  obtain ⟨f, hf, heq⟩ := h ['=']
  obtain ⟨e, hadvance⟩ := fails_advance_equals m [] _ _ f hf
  obtain ⟨position, hparse⟩ := parse_of_advance_error heq hadvance
  rw [Document.awaitsValue, show source ++ "\n=".toList = source ++ '\n' :: ['='] from rfl, hparse]
  rfl

theorem Lingers.awaitsValue (h : Lingers m source t) : awaitsValue m source = true := by
  obtain ⟨s, inside, step, d, d₁, hblank, -, -, -, hlonger⟩ := h
  obtain ⟨f, f₁, hf₁, hadvance, heq⟩ := hlonger ['=']
  have hequals : (d₁.cursor.rest ++ '\n' :: ['=']).dropWhile isBlank = ['='] := by
    rw [List.dropWhile_append, hblank]
    rfl
  obtain ⟨e, hfails⟩ := (fails_finishProperty_equals hequals).bind f₁ hf₁
  obtain ⟨position, hparse⟩ := parse_of_advance_error heq (hadvance.trans hfails)
  rw [Document.awaitsValue, show source ++ "\n=".toList = source ++ '\n' :: ['='] from rfl, hparse]
  rfl

/-- What follows a complete document is read as a document of its own. -/
theorem Settles.parse_eq (h : Settles m source t₁) (h₂ : parse m rest = .ok t₂)
    (hrest : rest.dropWhile isBlank = rest) :
    parse m (source ++ '\n' :: rest) = .ok (t₁.append t₂) := by
  obtain ⟨f, hf, heq⟩ := h rest
  exact parse_of_run_eq h₂ (hrest ▸ hf) heq

/-- Only a property can go on behind its end. -/
theorem Lingers.kind {r : ElementId} (h : Lingers m source t) (hroot : t.roots = [r]) :
    t.kind? r = some .property := by
  obtain ⟨s, inside, step, d, d₁, hblank, hproperty, htree, hblock, -⟩ := h
  obtain ⟨-, e, e', -, -, hetree, hheader, hd⟩ := finishProperty_eq_ok hblank hproperty
  obtain ⟨hdtree, hdblock⟩ := hd (by rw [hblock])
  obtain rfl : r = d₁.tree.size := by
    have helements := congrArg Block.elements (hblock.symm.trans hdblock)
    rw [hroot] at helements
    have hlast := congrArg List.getLast? helements
    rw [List.getLast?_concat] at hlast
    exact Option.some.inj hlast
  have hkept := (gains_applyHeader (Nat.zero_le _) hheader).spares.kind (x := d₁.tree.size)
    (by rw [hetree, size_create]; omega)
  rw [← hdtree, htree, hetree] at hkept
  refine Eq.trans hkept ?_
  rw [kind?, get?_create, if_pos rfl]
  rfl

/-- Nothing is read of what follows a document that has been ended early. -/
theorem parse_append_of_unread (h : parse m source = .ok t) (hleft : unread m source ≠ [])
    (u : Text) : parse m (source ++ '\n' :: u) = .ok t := by
  obtain ⟨d, ids, e, hrun, hfinish, hbrace, rfl⟩ := parse_eq_ok_iff_run.mp h
  rw [unread_of_run hrun hfinish hbrace] at hleft
  obtain ⟨-, -, -, -, -, hcursor⟩ := finishBlock_eq_ok hfinish
  obtain ⟨d', hrun', hd'⟩ := (placed_start_lined source u).run_lined hrun hleft
  obtain ⟨-, hm⟩ := still_finishBlock hfinish
  obtain ⟨e', hfinish', he'⟩ := hm d' hd'
  obtain ⟨htree, -⟩ := he'.of_empty rfl
  refine parse_eq_ok_iff_run.mpr ⟨d', _, e', hrun', hfinish', ?_, ?_⟩
  · rwa [Cursor.peek, he'.rest, ahead_append _ (by rwa [hcursor])]
  · have hids : ids.map (Placement.lined ⟨{}, rfl, u⟩).shift = ids := by
      rw [show (Placement.lined ⟨{}, rfl, u⟩).shift = id from funext Nat.zero_add, List.map_id]
    rw [htree]
    exact congrArg (Tree.mk _) hids.symm

end Document

end SharpOutline
