import SharpOutline.Proofs.Document.Compose

/-!
# How much of a text is read

A run of the machine ends before a closing brace, at the end of the text and before an end mark. A
document is not ended by a brace, so when it has been read either nothing of its text is left or
what is left begins with an end mark (`Document.unread_parse`). The second case does occur: a mark
behind the last line of a document ends it just as the end of the text does, and neither the mark
nor anything behind it is read.

The blocks that still wait at the end of a text are those of namespaces of a whole file. They are
left one after the other, before a mark as at the end (`Machine.Placed.moves_at_end`).
-/

namespace SharpOutline

open SharpOutline.Tree Drafting

/-! ## Before the end of a block -/

namespace Drafting

variable {w : Placement} {prior : List ElementId} {f : Frame} {d d' e : Draft} {step : Step}

theorem mirrors_endBlock_at_end (prior : List ElementId) (hrest : d.cursor.rest = [])
    (h : endBlock f d = .ok () d') : d'.cursor.rest = [] ∧
      (w.pairing []).Mirrors (endBlock (f.shift w.before.size prior)) d () d' := by
  obtain ⟨ids, d₁, hfinish, h⟩ := bind_eq_ok.mp h
  obtain ⟨⟨⟩, d₂, hedit, h⟩ := bind_eq_ok.mp h
  have hstill : (w.pairing []).Still _ finishBlock _ := still_finishBlock
  obtain ⟨hrest₁, hm₁⟩ := hstill hfinish
  have hstill : (w.pairing []).Still id (editAll (fun x t ↦ t.addChild f.owner x) ids)
      (editAll (fun x t ↦ t.addChild (w.shift f.owner) x) (ids.map w.shift)) :=
    still_editAll (fun _ _ _ ↦ append_addChild w.rootless) ids
  obtain ⟨hrest₂, hm₂⟩ := hstill hedit
  have hend : d₂.cursor.rest = [] := (hrest₂.trans hrest₁).trans hrest
  obtain ⟨c, hc, rfl⟩ := read_eq_ok h
  obtain ⟨hending, rfl⟩ := readEnding_at_end hend hc
  refine ⟨hend, hm₁.bind (hm₂.bind fun u hu ↦ ⟨u, ?_, hu⟩)⟩
  rw [show (f.shift w.before.size prior).ending = .outerEnd from hending]
  rfl

/-- At the end of a text a block is left before whatever follows, unless this is a comment. -/
theorem leave_placed_at_end (hrest : d.cursor.rest = [])
    (hafter : ∀ c ∈ w.after.head?, isBlank c = false ∧ c ≠ '/')
    (h : leave f d = .ok step d') (he : w.Places [] d e) : d'.cursor.rest = [] ∧
      ∃ e', leave (f.shift w.before.size prior) e = .ok step e' ∧ w.Places prior d' e' := by
  obtain ⟨d₁, hend, hemit⟩ := leave_eq_ok h
  obtain ⟨hrest₁, hm⟩ := mirrors_endBlock_at_end prior hrest hend
  obtain ⟨e₁, hend', he₁⟩ := hm e he
  have hplaces : w.Places prior { d₁ with block := f.block }
      { e₁ with block := f.block.shift w.before.size prior } := ⟨he₁.rest, he₁.tree, rfl⟩
  obtain ⟨hrest', hm'⟩ := mirrors_emitMember_end hafter (by exact hrest₁) hemit
  obtain ⟨e', hemit', he'⟩ := hm' _ hplaces
  refine ⟨hrest', e', ?_, he'⟩
  rw [leave, hend']
  exact hemit'

end Drafting

namespace Machine

variable {w : Placement} {prior : List ElementId} {m : RegionMarkers} {s s' t : Machine}
  {d : Draft} {step : Step}

/-- At the end of a text the innermost block ends, and so it does before what ends a block. -/
theorem Placed.moves_at_end (h : Placed w prior s t) (hrest : s.draft.cursor.rest = [])
    (hafter : ∀ c ∈ w.after.head?, isBlank c = false ∧ c ≠ '/')
    (hend : endsBlock (ahead w.after) = true) (hm : Moves m s step s') :
    s'.draft.cursor.rest = [] ∧ ∃ t', Moves m t step t' ∧ Placed w prior s' t' := by
  have hadvance : advance m t.draft = .ok (.done .finished) t.draft := by
    refine if_pos ?_
    rwa [Cursor.peek, h.draft.rest, hrest]
  cases hframes : s.frames with
  | nil =>
    have hended : Moves m s .finished ⟨s.draft, []⟩ :=
      .ended (if_pos (by rw [Cursor.peek, hrest]; rfl)) hframes
    cases hm.move.symm.trans hended.move
    have hdraft := h.draft
    rw [hframes] at hdraft
    exact ⟨hrest, _, .ended hadvance (by rw [h.frames, hframes]; rfl), ⟨hdraft, rfl⟩⟩
  | cons f fs =>
    obtain ⟨d', hleave, rfl⟩ := hm.left_at_end hrest hframes
    have hdraft := h.draft
    have hframes' := h.frames
    rw [hframes] at hdraft hframes'
    obtain ⟨hrest', e', hleave', hplaces⟩ := leave_placed_at_end hrest hafter hleave hdraft
    exact ⟨hrest', _, .left hadvance hframes' hleave', ⟨hplaces, rfl⟩⟩

/-- **A run at the end of a text** is one before what ends a block. -/
theorem Placed.run_at_end (h : Placed w prior s t) (hrest : s.draft.cursor.rest = [])
    (hafter : ∀ c ∈ w.after.head?, isBlank c = false ∧ c ≠ '/')
    (hend : endsBlock (ahead w.after) = true) (hrun : Machine.run m s = .ok () d) :
    ∃ e, Machine.run m t = .ok () e ∧ w.Places prior d e := by
  refine h.run_of_moves (I := fun s ↦ s.draft.cursor.rest = []) (fun hrest hplaced hm ↦ ?_)
    (fun hrest ↦ ?_) hrest hrun
  · exact hplaced.moves_at_end hrest hafter hend hm
  · rwa [show d.cursor.rest = [] from hrest]

end Machine

/-! ## Documents -/

namespace Document

variable {m : RegionMarkers} {source u : Text} {t : Tree}

/-- What is left of a source text when it has been read or a fault has been met. -/
def unread (m : RegionMarkers) (source : Text) : Text :=
  match read m (start source) with
  | .ok _ d => d.cursor.rest
  | .error _ d => d.cursor.rest

/-- What a run of the machine has left is left when its elements have become roots. -/
theorem unread_of_run {d e : Draft} {ids : List ElementId}
    (hrun : Machine.run m ⟨start source, []⟩ = .ok () d) (hfinish : finishBlock d = .ok ids e)
    (hbrace : e.cursor.peek ≠ '\x7d') : unread m source = d.cursor.rest := by
  obtain ⟨-, -, -, -, -, hcursor⟩ := finishBlock_eq_ok hfinish
  have hread : read m (start source) =
      .ok () { e with tree := { e.tree with roots := ids }, block := {} } := by
    refine bind_eq_ok.mpr ⟨ids, _, readBlock_eq_ok.mpr ⟨d, e, hrun, hfinish, rfl⟩, ?_⟩
    refine bind_eq_ok.mpr ⟨e.cursor.peek, _, rfl, ?_⟩
    rw [if_neg hbrace]
    exact editAll_eq_ok.mpr ⟨_, foldlM_addRoot_of_madeOf (madeOf_of_run hrun hfinish).2, rfl⟩
  rw [unread, hread]
  exact congrArg Cursor.rest hcursor

/-- An end mark behind the last line of a document hides everything behind it. -/
theorem parse_append_endMark (h : parse m source = .ok t) (hline : Text.LineEnded source)
    (hend : unread m source = []) (u : Text) :
    parse m (source ++ endMark :: u) = .ok t ∧
      unread m (source ++ endMark :: u) = endMark :: u := by
  obtain ⟨d, ids, e, hrun, hfinish, hbrace, rfl⟩ := parse_eq_ok_iff_run.mp h
  rw [unread_of_run hrun hfinish hbrace] at hend
  let w : Placement := ⟨{}, rfl, endMark :: u⟩
  have hmark : ∀ c ∈ w.after.head?, isBlank c = false ∧ c ≠ '/' := by
    rintro c ⟨⟩
    decide
  have htrimmed : w.trimmed = w := rfl
  have hquiet : w.Quiet := by
    rintro c ⟨⟩
    decide
  have hstart : Machine.Placed w [] ⟨start source, []⟩ ⟨start (source ++ endMark :: u), []⟩ :=
    ⟨⟨rfl, (empty_append {}).symm, rfl⟩, rfl⟩
  obtain ⟨s, t', hrest, -, hrun', heq, hplaced⟩ := Machine.Placed.run_to_end (I := fun _ ↦ True)
    (fun _ _ ↦ trivial) hquiet hrun hend hstart hline trivial
  rw [htrimmed, or_self] at hplaced
  obtain ⟨d', hrun'', hplaces⟩ := hplaced.run_at_end hrest hmark rfl hrun'
  have hstill : (w.pairing []).Still _ finishBlock _ := still_finishBlock
  obtain ⟨e', hfinish', hplaces'⟩ := (hstill hfinish).2 d' hplaces
  obtain ⟨htree, -⟩ := hplaces'.of_empty rfl
  have hrest' : d'.cursor.rest = endMark :: u := by
    rw [hplaces.rest, hend]
    rfl
  have hbrace' : e'.cursor.peek ≠ '\x7d' := by
    obtain ⟨-, -, -, -, -, hcursor⟩ := finishBlock_eq_ok hfinish'
    rw [hcursor, Cursor.peek, hrest']
    exact (by decide : endMark ≠ '\x7d')
  have hids : ids.map w.shift = ids := by
    rw [show w.shift = id from funext fun x ↦ Nat.zero_add x, List.map_id]
  refine ⟨parse_eq_ok_iff_run.mpr ⟨d', _, e', heq.trans hrun'', hfinish', hbrace', ?_⟩, ?_⟩
  · rw [htree]
    exact congrArg (Tree.mk _) hids.symm
  · rw [unread_of_run (heq.trans hrun'') hfinish' hbrace', hrest']

/-- **What is left of a document.** When a text has been read as a document, what is left of it is
empty or begins with an end mark. If nothing is left of a text that ends with a line, a mark and
anything else may follow: the document is the same, and all of that is left. -/
theorem unread_parse (h : parse m source = .ok t) :
    (unread m source <:+ source ∧
      (unread m source = [] ∨ (unread m source).head? = some endMark)) ∧
    (Text.LineEnded source → unread m source = [] → ∀ u,
      parse m (source ++ endMark :: u) = .ok t ∧
        unread m (source ++ endMark :: u) = endMark :: u) := by
  refine ⟨?_, fun hline hend u ↦ parse_append_endMark h hline hend u⟩
  obtain ⟨d, ids, e, hrun, hfinish, hbrace, -⟩ := parse_eq_ok_iff_run.mp h
  obtain ⟨-, -, -, -, -, hcursor⟩ := finishBlock_eq_ok hfinish
  rw [unread_of_run hrun hfinish hbrace]
  rw [hcursor] at hbrace
  exact ⟨Machine.rest_suffix_of_run hrun, Machine.rest_of_run hrun hbrace⟩

/-- A document that is a namespace of a whole file, whose block waits until the end. -/
def fileSource : Text := "namespace N;\nclass C \x7b \x7d // c\n".toList

theorem unread_parse_fileSource : ∃ m t, markers {} = .ok m ∧ parse m fileSource = .ok t ∧
    t.size = 3 ∧ unread m fileSource = [] ∧
      parse m (fileSource ++ endMark :: "int a;".toList) = .ok t ∧
        unread m (fileSource ++ endMark :: "int a;".toList) = endMark :: "int a;".toList := by
  have hsource : ((markers {}).toOption.any fun m ↦ (parse m fileSource).toOption.any fun t ↦
      t.size = 3 ∧ unread m fileSource = []) = true := by decide +kernel
  obtain ⟨m, hm, hsource⟩ := toOption_any.mp hsource
  obtain ⟨t, ht, hsource⟩ := toOption_any.mp hsource
  obtain ⟨hsize, hend⟩ := of_decide_eq_true hsource
  have hline : Text.LineEnded fileSource := fun c hc ↦ Option.some.inj (hc.symm.trans (by decide))
  have hhidden := (unread_parse ht).2 hline hend "int a;".toList
  exact ⟨m, t, hm, ht, hsize, hend, hhidden⟩

/-- A text can be read as a document although a part of it is left. -/
theorem not_forall_unread_parse :
    ¬∀ (m : RegionMarkers) (source : Text) (t : Tree), parse m source = .ok t →
      unread m source = [] := by
  intro h
  have hsource : ((markers {}).toOption.any fun m ↦ (parse m (endMark :: "x".toList)).toOption.any
      fun _ ↦ unread m (endMark :: "x".toList) = endMark :: "x".toList) = true := by decide +kernel
  obtain ⟨m, -, hsource⟩ := toOption_any.mp hsource
  obtain ⟨t, ht, hsource⟩ := toOption_any.mp hsource
  have hleft := h _ _ _ ht
  rw [of_decide_eq_true hsource] at hleft
  cases hleft

end Document

end SharpOutline
