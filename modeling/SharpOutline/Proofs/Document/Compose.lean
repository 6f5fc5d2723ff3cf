import Mathlib.Data.List.DropRight
import SharpOutline.Proofs.Block.PlacedRuns
import SharpOutline.Proofs.Document.Ownership

/-!
# One document after the other

A document that is followed by another one is read as both are read alone: the tree is the first
tree with the second one appended (`Document.parse_append`). The run of the first document is the
first part of the run of both, up to the end of its text (`Machine.Placed.run_to_end`). There
nothing is left that could take part in what follows: no block waits, because at the end of a text
only the block of the namespace of a whole file can end, and no comment waits, because it would be
the last root (`Machine.settled_of_run`). So the run of the second document follows as it is, with
all numbers moved (`Machine.Placed.run`).
-/

namespace SharpOutline

open SharpOutline.Tree Drafting

theorem Text.Begun.eq_nil {t : Text} (h : Begun t) (htrim : trim t = []) : t = [] := by
  cases t with
  | nil => rfl
  | cons c t =>
    have hblank := trim_eq_nil_iff.mp htrim c List.mem_cons_self
    rw [h c rfl] at hblank
    cases hblank

/-! ## The end of a text -/

namespace Drafting

variable {d d' : Draft} {around : List Stem} {step : Step}

/-- At the end of a text only the block of the namespace of a whole file can end. -/
theorem readEnding_at_end {ending : Ending} {c c' : Cursor} {a : Unit} (hrest : c.rest = [])
    (h : readEnding ending c = .ok a c') : ending = .outerEnd ∧ c' = c := by
  have hexpect : ∀ b c', Reading.expect '\x7d' c ≠ .ok b c' := by
    intro b c' h
    obtain ⟨⟨⟩, c₁, hskip, h⟩ := Drafting.bind_eq_ok.mp h
    obtain ⟨c₂, hskip', hrest'⟩ := Reading.yields_skipBlanks c hrest
    cases hskip.symm.trans hskip'
    obtain ⟨x, c₃, hpeek, h⟩ := Drafting.bind_eq_ok.mp h
    cases hpeek
    rw [Cursor.peek, hrest'] at h
    cases h
  cases ending with
  | namespaceBrace => exact absurd h (hexpect a c')
  | outerEnd => exact ⟨rfl, (EStateM.Result.ok.inj h).2.symm⟩
  | typeBrace =>
    obtain ⟨⟨⟩, c₁, h, -⟩ := Drafting.bind_eq_ok.mp h
    exact absurd h (hexpect () c₁)

/-- A block that ends with the text is that of the namespace of a whole file, which becomes an
element of the block around it if no scope is open there. -/
theorem leave_at_end {f : Frame} (h : d.Holds [] (f.stems ++ around)) (hf : Text.Begun f.block.text)
    (hrest : d.cursor.rest = []) (hx : leave f d = .ok step d') :
    d'.cursor.rest = [] ∧ (d'.block.scopes = [] →
      f.owner ∈ d'.block.elements ∧ d'.tree.element? f.owner = some (.nameSpace true)) := by
  obtain ⟨e, hend, hemit⟩ := leave_eq_ok hx
  obtain ⟨hlinked, hmade⟩ := holds_endBlock h hend
  obtain ⟨hending, hrest₁⟩ : f.ending = .outerEnd ∧ e.cursor.rest = [] := by
    obtain ⟨ids, d₁, hfinish, hend⟩ := bind_eq_ok.mp hend
    obtain ⟨-, -, -, -, -, hcursor⟩ := finishBlock_eq_ok hfinish
    obtain ⟨⟨⟩, d₂, hedit, hend⟩ := bind_eq_ok.mp hend
    obtain ⟨t, -, rfl⟩ := editAll_eq_ok.mp hedit
    obtain ⟨c, hc, rfl⟩ := read_eq_ok hend
    have hnil : d₁.cursor.rest = [] := by rwa [hcursor]
    obtain ⟨hending, rfl⟩ := readEnding_at_end hnil hc
    exact ⟨hending, hnil⟩
  obtain ⟨⟨⟩, d₁, hheader, hemit⟩ := bind_eq_ok.mp hemit
  obtain ⟨ids, d₂, htrailing, hemit⟩ := bind_eq_ok.mp hemit
  -- The namespace is known as such until it has been added to the block.
  have hholds : d₁.Holds [.file f.owner] around := by
    have hstart : Draft.Holds { e with block := f.block } [.file f.owner] around := by
      rw [Frame.stems, hending] at hmade
      exact ⟨hlinked, hmade, hf⟩
    exact tends_applyHeader_head (.file f.owner) hstart hheader
  have hfile : d₁.tree.element? f.owner = some (.nameSpace true) :=
    hholds.made.fits (s := .file f.owner) (by simp)
  obtain ⟨t, rfl⟩ := applyHeader_eq_ok hheader
  obtain ⟨rfl, -, htree, -⟩ := withTrailingComment_at_end (by exact hrest₁) htrailing
  refine ⟨?_, fun hscopes ↦ ?_⟩
  · obtain ⟨n, hn⟩ := forward_leave f d
    rw [hx] at hn
    rw [show d'.cursor = d.cursor.skip n from hn, Cursor.rest_skip, hrest, List.drop_nil]
  · rw [emit_eq_ok_of_scopes_eq_nil hemit hscopes]
    exact ⟨List.mem_append_right _ List.mem_cons_self, by rw [htree]; exact hfile⟩

/-- A block that has ended had nothing but its elements, unless the last one is a comment that
waited. -/
theorem block_of_finishBlock {e : Draft} {ids : List ElementId} (h : d.Holds [] around)
    (hfinish : finishBlock d = .ok ids e)
    (hnote : ∀ x ∈ ids.getLast?, e.tree.kind? x ≠ some .comment) :
    d.block = { elements := ids } := by
  obtain ⟨htext, hscopes, hattributes, rfl, htree, -⟩ := finishBlock_eq_ok hfinish
  rw [htree] at hnote
  have hcomments : d.block.comments = [] := by
    by_contra hne
    obtain ⟨x, hx⟩ := Option.ne_none_iff_exists'.mp (mt List.getLast?_eq_none_iff.mp hne)
    -- A comment that waits would be the last element.
    have hlast : x ∈ (d.block.elements ++ d.block.comments).getLast? := by
      rw [List.getLast?_append, hx]
      rfl
    have hstem : Stem.note x ∈ d.block.stems :=
      List.mem_append_left _ (List.mem_map_of_mem (List.mem_of_getLast? hx))
    obtain ⟨c, hc⟩ : d.tree.Fits (.note x) := h.made.fits (by simp [hstem])
    obtain ⟨n, hn, hc⟩ := Option.map_eq_some_iff.mp hc
    refine hnote x hlast ?_
    rw [kind?, hn, Option.map_some, Node.kind, hc]
    rfl
  rw [hcomments, List.append_nil]
  have htext := h.text.eq_nil htext
  cases hblock : d.block
  simp_all

end Drafting

namespace Machine

variable {m : RegionMarkers} {s s' : Machine} {d : Draft} {step : Step}

/-- Where a block ends that lies in another one, it is left. -/
theorem Moves.left_of_endsBlock {f : Frame} {fs : List Frame} (h : Moves m s step s')
    (hend : endsBlock s.draft.cursor.peek = true) (hframes : s.frames = f :: fs) :
    ∃ d, leave f s.draft = .ok step d ∧ s' = ⟨d, fs⟩ := by
  have hadvance : advance m s.draft = .ok (.done .finished) s.draft := if_pos hend
  have hmove := h.move
  rw [Machine.move, hadvance, hframes] at hmove
  dsimp only at hmove
  split at hmove
  · cases hmove
  · rename_i step' d hleave
    cases hmove
    exact ⟨d, hleave, rfl⟩

theorem Moves.left_at_end {f : Frame} {fs : List Frame} (h : Moves m s step s')
    (hrest : s.draft.cursor.rest = []) (hframes : s.frames = f :: fs) :
    ∃ d, leave f s.draft = .ok step d ∧ s' = ⟨d, fs⟩ :=
  h.left_of_endsBlock (by rw [Cursor.peek, hrest]; rfl) hframes

/-- If a block waits at the end of a text, then the namespace of a whole file is an element of the
outermost block in the end. -/
theorem exists_file_of_run (hrun : run m s = .ok () d) (hscopes : d.block.scopes = []) (h : s.Holds)
    (hrest : s.draft.cursor.rest = []) (hframes : s.frames ≠ []) :
    ∃ x ∈ d.block.elements, d.tree.element? x = some (.nameSpace true) := by
  fun_induction run m s with
  | case1 s e s' hm => cases hrun
  | case2 s s' hm =>
    have hm := moves_of_move hm
    have hnil := hm.frames_eq_nil
    rw [hm.eq_of_finished.2] at hnil
    exact absurd hnil hframes
  | case3 s step s' hm hstep hlt ih =>
    have hm := moves_of_move hm
    obtain ⟨f, fs, hfs⟩ := List.exists_cons_of_ne_nil hframes
    obtain ⟨d', hleave, rfl⟩ := hm.left_at_end hrest hfs
    have hdraft := h.draft
    rw [hfs, List.flatMap_cons] at hdraft
    obtain ⟨hrest', hfile⟩ := leave_at_end hdraft (h.text f (by simp [hfs])) hrest hleave
    by_cases hnil : fs = []
    · -- This was the last block that waited.
      subst hnil
      rw [run_of_end (by rw [Cursor.peek, hrest']; rfl)] at hrun
      cases hrun
      exact ⟨f.owner, hfile hscopes⟩
    · exact ih hrun (h.moves hm) hrest' hnil

/-- Nothing is left at the end of a text but elements of the outermost block, unless one of them is
the namespace of a whole file or the last one is a comment. -/
theorem settled_of_run {e : Draft} {ids : List ElementId} (hrun : run m s = .ok () d) (h : s.Holds)
    (hrest : s.draft.cursor.rest = []) (hfinish : finishBlock d = .ok ids e)
    (hfile : ∀ x ∈ ids, e.tree.element? x ≠ some (.nameSpace true))
    (hnote : ∀ x ∈ ids.getLast?, e.tree.kind? x ≠ some .comment) :
    s = ⟨d, []⟩ ∧ d.block = { elements := ids } := by
  -- The last block that waits ends with the text, and its owner would be one of the elements.
  have hframes : s.frames = [] := by
    obtain ⟨-, hscopes, -, rfl, htree, -⟩ := finishBlock_eq_ok hfinish
    by_contra hframes
    obtain ⟨x, hx, hx'⟩ := exists_file_of_run hrun hscopes h hrest hframes
    exact hfile x (List.mem_append_left _ hx) (htree ▸ hx')
  obtain ⟨d', fs⟩ := s
  obtain rfl : fs = [] := hframes
  rw [run_of_end (by rw [Cursor.peek, hrest]; rfl)] at hrun
  cases hrun
  exact ⟨rfl, block_of_finishBlock h.draft hfinish hnote⟩

end Machine

/-! ## Documents -/

namespace Document

variable {m : RegionMarkers} {source : Text} {t : Tree}

/-- Blanks before a declaration may be left out. -/
theorem exists_run_dropWhile (m : RegionMarkers) {d : Draft} (htext : d.block.text = []) :
    ∃ d' : Draft, d'.sketch = ⟨d.cursor.rest.dropWhile isBlank, d.tree, d.block⟩ ∧
      Machine.run m ⟨d, []⟩ = Machine.run m ⟨d', []⟩ := by
  have hblank : ∀ c ∈ d.cursor.rest.takeWhile isBlank, isBlank c = true :=
    List.all_eq_true.mp List.all_takeWhile
  refine Machine.leads_blanks hblank htext d ?_
  rw [List.takeWhile_append_dropWhile]
  rfl

theorem fails_advance_equals (m : RegionMarkers) (rest : Text) (tree : Tree)
    (elements : List ElementId) :
    Fails (advance m) ⟨'=' :: rest, tree, { elements }⟩ (.unexpectedCharacter '=') := by
  rintro ⟨cursor, tree, block⟩ hd
  have hpeek : cursor.peek = '=' := congrArg ahead (congrArg Sketch.rest hd)
  obtain rfl : block = { elements } := congrArg Sketch.block hd
  refine ⟨⟨cursor.advance, tree, { elements }⟩, ?_⟩
  rw [advance, show (Draft.mk cursor tree { elements }).cursor.peek = '=' from hpeek]
  rfl

theorem head?_dropWhile_ne_equals (h : parse m source = .ok t) :
    ∀ c ∈ (source.dropWhile isBlank).head?, c ≠ '=' := by
  rintro c hc rfl
  obtain ⟨u, hu⟩ := List.head?_eq_some_iff.mp hc
  obtain ⟨d, -, -, hrun, -⟩ := parse_eq_ok_iff_run.mp h
  obtain ⟨d', hd', hrun'⟩ := exists_run_dropWhile m (d := start source) rfl
  rw [show (start source).cursor.rest.dropWhile isBlank = '=' :: u from hu] at hd'
  rw [hrun'] at hrun
  obtain ⟨e, hfails⟩ := fails_advance_equals m u _ _ d' hd'
  obtain ⟨step, s, hm, -⟩ := Machine.run_eq_ok hrun
  cases hm with
  | opened ha | ended ha hframes | left ha hframes hleave | stepped ha hstep =>
    cases hfails.symm.trans ha

/-- The first document, read before another one: when nothing of it is left, its tree and its roots
are there and nothing else. The blanks that follow do not matter. -/
theorem exists_run_append {s₁ s₂ : Text} {d e : Draft} {ids : List ElementId}
    (hrun : Machine.run m ⟨start s₁, []⟩ = .ok () d) (hfinish : finishBlock d = .ok ids e)
    (hbrace : e.cursor.peek ≠ '\x7d') (hline : Text.LineEnded s₁) (hmark : endMark ∉ s₁)
    (hfile : ∀ r ∈ ids, e.tree.element? r ≠ some (.nameSpace true))
    (hnote : ∀ r ∈ ids.getLast?, e.tree.kind? r ≠ some .comment)
    (hquiet : ∀ c ∈ (s₂.dropWhile isBlank).head?, c ≠ '/' ∧ c ≠ '=') :
    ∃ f : Draft, f.sketch = ⟨s₂.dropWhile isBlank, e.tree, { elements := ids }⟩ ∧
      Machine.run m ⟨start (s₁ ++ s₂), []⟩ = Machine.run m ⟨f, []⟩ := by
  obtain ⟨-, -, -, -, htree, hcursor⟩ := finishBlock_eq_ok hfinish
  rw [hcursor] at hbrace
  have hend : d.cursor.rest = [] := (Machine.rest_of_run hrun hbrace).resolve_right fun hhead ↦
    hmark ((Machine.rest_suffix_of_run hrun).subset (List.mem_of_mem_head? hhead))
  let w : Placement := ⟨{}, rfl, s₂⟩
  have hquiet : w.Quiet := hquiet
  have hstart : Machine.Placed w [] ⟨start s₁, []⟩ ⟨start (s₁ ++ s₂), []⟩ :=
    ⟨⟨rfl, (empty_append {}).symm, rfl⟩, rfl⟩
  obtain ⟨s, ⟨f, fs⟩, hrest, hholds, hrun', heq, hplaced⟩ := Machine.Placed.run_to_end
    (fun h hm ↦ h.moves hm) hquiet hrun hend hstart hline (holds_start s₁)
  obtain ⟨rfl, hblock⟩ := Machine.settled_of_run hrun' hholds hrest hfinish hfile hnote
  have hfs : fs = [] := hplaced.elim (·.frames) (·.frames)
  subst hfs
  -- The blanks before the second document may have been passed, and can be if they have not.
  have hsketch : f.block = { elements := ids } ∧ f.tree = e.tree ∧
      f.cursor.rest.dropWhile isBlank = s₂.dropWhile isBlank := by
    rcases hplaced with hplaced | hplaced
    · obtain ⟨hftree, hfblock⟩ := hplaced.draft.of_empty rfl
      refine ⟨hfblock.trans hblock, hftree.trans htree.symm, ?_⟩
      rw [hplaced.draft.rest, hrest]
      rfl
    · obtain ⟨hftree, hfblock⟩ := hplaced.draft.of_empty rfl
      refine ⟨hfblock.trans hblock, hftree.trans htree.symm, ?_⟩
      rw [hplaced.draft.rest, hrest]
      exact List.dropWhile_idempotent isBlank s₂
  obtain ⟨f', hf', hrun''⟩ := exists_run_dropWhile m (d := f) (by rw [hsketch.1])
  rw [hsketch.1, hsketch.2.1, hsketch.2.2] at hf'
  exact ⟨f', hf', heq.trans hrun''⟩

/-- The second document, before which only elements of the outermost block have been read. -/
theorem placed_of_sketch {w : Placement} {ids : List ElementId} {f g : Draft} {u : Text}
    (hafter : w.after = []) (hg : g.sketch = ⟨u, {}, {}⟩)
    (hf : f.sketch = ⟨u, w.before, { elements := ids }⟩) :
    Machine.Placed w ids ⟨g, []⟩ ⟨f, []⟩ := by
  have hrest : f.cursor.rest = g.cursor.rest :=
    (congrArg Sketch.rest hf).trans (congrArg Sketch.rest hg).symm
  have htree : f.tree = w.before := congrArg Sketch.tree hf
  have hblock : f.block = { elements := ids } := congrArg Sketch.block hf
  refine ⟨⟨?_, ?_, ?_⟩, rfl⟩
  · rw [hrest, hafter, List.append_nil]
  · rw [htree, show g.tree = {} from congrArg Sketch.tree hg, append_empty]
  · rw [hblock, show g.block = {} from congrArg Sketch.block hg]
    simp [Block.shift, Machine.innerPrior]

/-- **One document after the other.** If two documents can be read, the first one ends with its last
line and what is read of it is complete, then both together are read as the first tree with the
second one appended: the elements of the second one come after those of the first, with all their
numbers moved. -/
theorem parse_append {m : RegionMarkers} {s₁ s₂ : Text} {t₁ t₂ : Tree}
    (h₁ : parse m s₁ = .ok t₁) (h₂ : parse m s₂ = .ok t₂) (hline : s₁.getLast? = some '\n')
    (hmark : endMark ∉ s₁)
    (hfile : ∀ r ∈ t₁.roots, t₁.element? r ≠ some (.nameSpace true))
    (hnote : ∀ r ∈ t₁.roots.getLast?, t₁.kind? r ≠ some .comment)
    (hslash : ∀ c ∈ (s₂.dropWhile isBlank).head?, c ≠ '/') :
    parse m (s₁ ++ s₂) = .ok (t₁.append t₂) := by
  have hquiet : ∀ c ∈ (s₂.dropWhile isBlank).head?, c ≠ '/' ∧ c ≠ '=' := fun c hc ↦
    ⟨hslash c hc, head?_dropWhile_ne_equals h₂ c hc⟩
  have hline : Text.LineEnded s₁ := fun c hc ↦ Option.some.inj (hc.symm.trans hline)
  obtain ⟨d₁, ids₁, e₁, hrun₁, hfinish₁, hbrace₁, rfl⟩ := parse_eq_ok_iff_run.mp h₁
  obtain ⟨d₂, ids₂, e₂, hrun₂, hfinish₂, hbrace₂, rfl⟩ := parse_eq_ok_iff_run.mp h₂
  obtain ⟨f, hf, hrun⟩ := exists_run_append hrun₁ hfinish₁ hbrace₁ hline hmark hfile hnote hquiet
  obtain ⟨g, hg, hrun'⟩ := exists_run_dropWhile m (d := start s₂) rfl
  -- From here on the second document is read behind the tree of the first one.
  have hroots : e₁.tree.roots = [] := (madeOf_of_run hrun₁ hfinish₁).2.roots
  have hplaced : Machine.Placed ⟨e₁.tree, hroots, []⟩ ids₁ ⟨g, []⟩ ⟨f, []⟩ :=
    placed_of_sketch rfl hg hf
  obtain ⟨d, hrun'', hd⟩ := hplaced.run rfl (hrun'.symm.trans hrun₂)
  obtain ⟨-, hm⟩ := still_finishBlock hfinish₂
  obtain ⟨e, hfinish, he⟩ := hm d hd
  refine parse_eq_ok_iff_run.mpr ⟨d, _, e, hrun.trans hrun'', hfinish, ?_, ?_⟩
  · rwa [Cursor.peek, he.rest, List.append_nil]
  · rw [he.tree]
    rfl

/-- A document that ends with a property, whose accessors an initial value could follow. -/
def frontSource : Text :=
  "using A;\n// n\nnamespace N \x7b class C \x7b int f; \x7d \x7d\nint P \x7b get; \x7d \n".toList

/-- A document that begins with blanks, and has a conditional with two branches and a copied
field. -/
def backSource : Text :=
  "\n  #if X\n// n\nint a, b = 1; // t\n#else\nclass D : B \x7b \x7d\n#endif\n// last".toList

theorem parse_append_frontSource : ∃ m t₁ t₂, markers {} = .ok m ∧
    parse m frontSource = .ok t₁ ∧ parse m backSource = .ok t₂ ∧ t₁.size = 6 ∧ t₂.size = 8 ∧
      parse m (frontSource ++ backSource) = .ok (t₁.append t₂) := by
  have hsource : ((markers {}).toOption.any fun m ↦ (parse m frontSource).toOption.any fun t₁ ↦
      (parse m backSource).toOption.any fun t₂ ↦ t₁.size = 6 ∧ t₂.size = 8 ∧
        (∀ r ∈ t₁.roots, t₁.element? r ≠ some (.nameSpace true)) ∧
          ∀ r ∈ t₁.roots.getLast?, t₁.kind? r ≠ some .comment) = true := by decide +kernel
  obtain ⟨m, hm, hsource⟩ := toOption_any.mp hsource
  obtain ⟨t₁, ht₁, hsource⟩ := toOption_any.mp hsource
  obtain ⟨t₂, ht₂, hsource⟩ := toOption_any.mp hsource
  obtain ⟨hsize₁, hsize₂, hfile, hnote⟩ := of_decide_eq_true hsource
  have hhead : (backSource.dropWhile isBlank).head? = some '#' := by decide
  have hslash : ∀ c ∈ (backSource.dropWhile isBlank).head?, c ≠ '/' := by
    rw [hhead]
    rintro c ⟨⟩
    decide
  refine ⟨m, t₁, t₂, hm, ht₁, ht₂, hsize₁, hsize₂, ?_⟩
  exact parse_append ht₁ ht₂ (by decide) (by decide) hfile hnote hslash

end Document

end SharpOutline
