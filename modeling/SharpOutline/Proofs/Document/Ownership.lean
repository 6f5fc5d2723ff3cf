import SharpOutline.Proofs.Block.Refusals

/-!
# Every element of a document is owned

The blocks that wait while one inside them is read hold what they held before, and the element that
opened a block is held until the block has ended. So what is true of one block is true of the
machine (`Machine.Holds`): no move loses an element or keeps one twice. At the end everything hangs
from the elements of the outermost block, and these become the roots of the tree. Whatever the
source text was, a tree that is read from it is therefore owned (`Document.owned_parse`).
-/

namespace SharpOutline

open SharpOutline.Tree Drafting

/-! ## Waiting blocks -/

/-- What a waiting block holds, with the element that opened the block inside it. -/
def Frame.stems (f : Frame) : List Stem := ownerStem f.owner f.ending :: f.block.stems

namespace Drafting

variable {around : List Stem} {d d' : Draft}

/-- The elements of a block that has ended hang from the element that opened it, after what hung
from it before. -/
theorem holds_editAll_of_finishBlock {f : Frame} {ids : List ElementId} {d₁ : Draft} {a : Unit}
    (h : d.Holds [] (f.stems ++ around)) (hfinish : finishBlock d = .ok ids d₁)
    (hedit : editAll (fun e t ↦ t.addChild f.owner e) ids d₁ = .ok a d') :
    d'.tree.Linked ∧ d'.tree.MadeOf (f.stems ++ around) ∧
      d'.tree = d.tree.adopted f.owner .children ids := by
  obtain ⟨hlinked, hmade⟩ := holds_finishBlock h hfinish
  -- the finished block is left behind
  have h₁ : Draft.Holds { d₁ with block := {} } (ids.map .whole ++ []) (f.stems ++ around) :=
    ⟨hlinked, by simpa [Block.stems] using hmade, .nil⟩
  have hbears : (ownerStem f.owner f.ending).Bears f.owner := by
    have := (ownerStem f.owner f.ending).bears_head
    rwa [head_ownerStem] at this
  obtain ⟨t, ht, rfl⟩ := editAll_eq_ok.mp hedit
  obtain ⟨h₂, heq⟩ := holds_editAll (putsBeneath_addChild f.owner) hbears h₁
    (by simp [Frame.stems]) (editAll_eq_ok (a := ()).mpr ⟨t, ht, rfl⟩)
  refine ⟨h₂.linked, by simpa [Block.stems] using h₂.made, ?_⟩
  obtain ⟨-, -, -, -, htree, -⟩ := finishBlock_eq_ok hfinish
  rw [← htree]
  exact congrArg Draft.tree heq

theorem exists_adopted_of_endBlock {f : Frame} {a : Unit} (h : d.Holds [] (f.stems ++ around))
    (hx : endBlock f d = .ok a d') : d'.tree.Linked ∧ d'.tree.MadeOf (f.stems ++ around) ∧
      ∃ ids, d'.tree = d.tree.adopted f.owner .children ids := by
  obtain ⟨ids, d₁, hfinish, hx⟩ := bind_eq_ok.mp hx
  obtain ⟨⟨⟩, d₂, hedit, hx⟩ := bind_eq_ok.mp hx
  obtain ⟨hlinked, hmade, htree⟩ := holds_editAll_of_finishBlock h hfinish hedit
  obtain ⟨c, -, rfl⟩ := read_eq_ok hx
  exact ⟨hlinked, hmade, ids, htree⟩

theorem holds_endBlock {f : Frame} {a : Unit} (h : d.Holds [] (f.stems ++ around))
    (hx : endBlock f d = .ok a d') :
    d'.tree.Linked ∧ d'.tree.MadeOf (f.stems ++ around) := by
  obtain ⟨hlinked, hmade, -⟩ := exists_adopted_of_endBlock h hx
  exact ⟨hlinked, hmade⟩

theorem holds_of_madeOf_frame {f : Frame} {t : Tree} {c : Cursor} (hlinked : t.Linked)
    (hmade : t.MadeOf (f.stems ++ around)) (hf : Text.Begun f.block.text) :
    Draft.Holds ⟨c, t, f.block⟩ [.whole f.owner] around := by
  have h : Draft.Holds ⟨c, t, f.block⟩ [ownerStem f.owner f.ending] around := ⟨hlinked, hmade, hf⟩
  have hwhole := h.weaken
  rwa [head_ownerStem] at hwhole

theorem holds_leave {f : Frame} {step : Step} (h : d.Holds [] (f.stems ++ around))
    (hf : Text.Begun f.block.text) (hx : leave f d = .ok step d') : d'.Holds [] around := by
  obtain ⟨e, hend, hemit⟩ := leave_eq_ok hx
  obtain ⟨hlinked, hmade⟩ := holds_endBlock h hend
  exact tends_emitMember f.owner (holds_of_madeOf_frame hlinked hmade hf) hemit

end Drafting

/-! ## The machine -/

namespace Machine

variable {m : RegionMarkers} {s s' : Machine} {d : Draft} {step : Step}

/-- The tree is made of what the innermost block and the waiting ones hold, and of what is held
around all of them. -/
structure HoldsAmid (around : List Stem) (s : Machine) : Prop where
  draft : s.draft.Holds [] (s.frames.flatMap Frame.stems ++ around)
  text : ∀ f ∈ s.frames, Text.Begun f.block.text

/-- **One move.** Nothing is lost or kept twice. -/
theorem HoldsAmid.moves {around : List Stem} (h : s.HoldsAmid around) (hm : Moves m s step s') :
    s'.HoldsAmid around := by
  cases hm with
  | opened ha =>
    rename_i owner ending d
    have hd := (tame_advance m).tends h.draft ha
    refine ⟨⟨hd.linked, ?_, .nil⟩, ?_⟩
    · rw [List.flatMap_cons, List.append_assoc]
      exact hd.made
    · rintro f (_ | ⟨_, hf⟩)
      · exact hd.text
      · exact h.text f hf
  | ended ha hframes =>
    have hd := (tame_advance m).tends h.draft ha
    rw [hframes] at hd
    exact ⟨hd, by simp⟩
  | left ha hframes hleave =>
    have hd := (tame_advance m).tends h.draft ha
    rw [hframes, List.flatMap_cons, List.append_assoc] at hd
    refine ⟨holds_leave hd (h.text _ (by simp [hframes])) hleave, fun f hf ↦ h.text f ?_⟩
    simp [hframes, hf]
  | stepped ha hstep => exact ⟨(tame_advance m).tends h.draft ha, h.text⟩

/-- The tree is made of what the innermost block and the waiting ones hold. -/
structure Holds (s : Machine) : Prop where
  draft : s.draft.Holds [] (s.frames.flatMap Frame.stems)
  text : ∀ f ∈ s.frames, Text.Begun f.block.text

theorem holdsAmid_nil_iff : s.HoldsAmid [] ↔ s.Holds := by
  constructor
  · rintro ⟨hdraft, htext⟩
    exact ⟨by rwa [List.append_nil] at hdraft, htext⟩
  · rintro ⟨hdraft, htext⟩
    exact ⟨by rwa [List.append_nil], htext⟩

theorem Holds.moves (h : s.Holds) (hm : Moves m s step s') : s'.Holds :=
  holdsAmid_nil_iff.mp ((holdsAmid_nil_iff.mpr h).moves hm)

end Machine

/-! ## Documents -/

namespace Document

variable {m : RegionMarkers} {source : Text} {t : Tree}

theorem foldlM_addRoot_of_madeOf {u : Tree} {ids : List ElementId}
    (h : u.MadeOf (ids.map .whole)) :
    ids.foldlM (fun u id ↦ u.addRoot id) u = .ok { u with roots := ids } := by
  have hids : (ids.map Stem.whole).map Stem.head = ids := by simp [Function.comp_def, Stem.head]
  have hnodup := h.forest.nodup
  rw [hids] at hnodup
  rw [foldlM_addRoot (fun id hid ↦ ?_) hnodup (by simp [h.roots]), h.roots]
  · rfl
  · have hmem : Stem.whole id ∈ ids.map .whole := List.mem_map_of_mem hid
    exact ⟨h.lt_of_mem hmem, h.parent_of_mem hmem⟩

theorem holds_start (source : Text) : Machine.Holds ⟨start source, []⟩ :=
  ⟨⟨Linked.empty, MadeOf.empty, .nil⟩, by simp⟩

/-- What is left when the outermost block has ended is made of its elements. -/
theorem madeOf_of_run {d e : Draft} {ids : List ElementId}
    (hrun : Machine.run m ⟨start source, []⟩ = .ok () d) (hfinish : finishBlock d = .ok ids e) :
    e.tree.Linked ∧ e.tree.MadeOf (ids.map .whole) := by
  have hend := Machine.run_induction (fun h hm ↦ h.moves hm) (holds_start source) hrun
  simpa using holds_finishBlock hend.draft hfinish

/-- A document is read by a run of the machine, and the elements of the outermost block become the
roots. -/
theorem parse_eq_ok_iff_run : parse m source = .ok t ↔
    ∃ d ids e, Machine.run m ⟨start source, []⟩ = .ok () d ∧ finishBlock d = .ok ids e ∧
      e.cursor.peek ≠ '\x7d' ∧ t = { e.tree with roots := ids } := by
  rw [parse_eq_ok_iff]
  refine exists_congr fun d ↦ exists_congr fun ids ↦ exists_congr fun e ↦
    and_congr_right fun hrun ↦ and_congr_right fun hfinish ↦ and_congr_right fun _ ↦ ?_
  rw [foldlM_addRoot_of_madeOf (madeOf_of_run hrun hfinish).2, Except.ok.injEq, eq_comm]

/-- The tree of a document is made of the elements of its outermost block. -/
theorem madeOf_parse (h : parse m source = .ok t) : ∃ u : Tree, u.Linked ∧
    u.MadeOf (t.roots.map .whole) ∧ t = { u with roots := t.roots } := by
  obtain ⟨d, ids, e, hrun, hfinish, -, rfl⟩ := parse_eq_ok_iff_run.mp h
  obtain ⟨hlinked, hmade⟩ := madeOf_of_run hrun hfinish
  exact ⟨e.tree, hlinked, hmade, rfl⟩

/-- **Every element is owned.** In a tree that is read from a source text every element is a root,
or stands in one place of a list of one other element, or is the next branch of one; it has only one
such place, with which its parent agrees, and going from owner to owner leads to a root. -/
theorem owned_parse (h : parse m source = .ok t) : t.Owned := by
  obtain ⟨u, hlinked, hmade, heq⟩ := madeOf_parse h
  have hforest := hmade.forest
  rw [List.map_map, show Stem.head ∘ Stem.whole = id from rfl, List.map_id] at hforest
  rw [heq]
  refine owned_of_forest ?_ hforest fun hb ↦ hmade.parent_of_branch hb
  refine ⟨hlinked.parent_of_mem, hlinked.occurrences_eq_one, fun {x} hx ↦ ?_, fun {x} hx ↦ ?_,
    hlinked.admits_of_mem⟩
  · exact ⟨hforest.lt_of_mem hx, hmade.parent_of_mem (s := .whole x) (List.mem_map_of_mem hx)⟩
  · exact List.nodup_iff_count_eq_one.mp hforest.nodup x hx

/-- A source text with a field for two names, whose comment and attributes are copied, and a region
in the second branch of a conditional. -/
def branchedSource : Text :=
  "#if A\n// n\n[X, Y(1)]\nint a, b;\n#else\n#region R\nclass C \x7b \x7d\n#endregion\n#endif".toList

theorem owned_parse_branchedSource : ∃ m t, markers {} = .ok m ∧
    parse m branchedSource = .ok t ∧ t.size = 12 ∧ t.Owned := by
  have hsource : ((markers {}).toOption.any fun m ↦ (parse m branchedSource).toOption.any fun t ↦
      t.size == 12) = true := by decide +kernel
  obtain ⟨m, hm, hsource⟩ := toOption_any.mp hsource
  obtain ⟨t, ht, hsize⟩ := toOption_any.mp hsource
  exact ⟨m, t, hm, ht, beq_iff_eq.mp hsize, owned_parse ht⟩

end Document

end SharpOutline
