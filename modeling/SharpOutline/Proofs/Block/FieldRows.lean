import SharpOutline.Proofs.Block.DeclaredNames
import SharpOutline.Proofs.Block.Placing
import SharpOutline.Proofs.Block.Refusals

/-!
# Fields that are declared together

The first field of a declaration gets the comments and attributes that waited for it. The others are
copies of it, made before any of them is placed, so each has comments and attributes of its own that
look like the ones that waited (`Drafting.declaresFields_of_create`).

What the block holds are stems of the tree, so none of the edits can be refused.
-/

namespace SharpOutline

open Relation SharpOutline.Tree

variable {t u : Tree} {x p : Nat} {stems : List Stem} {slot : Slot}

/-! ## Placing several stems -/

/-- What hangs from something else looks the same where stems have been placed. -/
theorem Tree.MadeOf.outline_adopted {ids : List ElementId} (h : t.MadeOf stems) (hp : p ∉ ids)
    (hx : x < t.size) (hxp : ¬ReflTransGen t.Owns x p) :
    (t.adopted p slot ids).outline x = t.outline x := by
  refine Undisturbed.outline_eq (fun y hy ↦ ?_) (h.isWhole_outline hx)
    (Nat.le_of_eq (size_adopted t p slot ids).symm)
  have hne : y ≠ p := by
    rintro rfl
    exact hxp hy
  rw [get?_adopted hp, Option.map_map]
  exact Option.map_congr fun n _ ↦ unplaced_adopting hne

theorem Tree.Intact.outline_eq (h : Intact t u) (hmade : t.MadeOf stems) (hsize : t.size ≤ u.size)
    (hx : x < t.size) : u.outline x = t.outline x :=
  Undisturbed.outline_eq (fun y hy ↦ by rw [h.get?_eq y (hmade.lt_of_reached hx hy)])
    (hmade.isWhole_outline hx) hsize

theorem Tree.intact_create (t : Tree) (name : Text) (e : Element) : Intact t (t.create name e) :=
  ⟨rfl, fun y hy ↦ by rw [get?_create, if_neg (Nat.ne_of_lt hy)]⟩

theorem Tree.Intact.trans {v : Tree} (h : Intact t u) (h' : Intact u v) (hsize : t.size ≤ u.size) :
    Intact t v :=
  ⟨h'.roots.trans h.roots, fun y hy ↦ (h'.get?_eq y (Nat.lt_of_lt_of_le hy hsize)).trans
    (h.get?_eq y hy)⟩

namespace Drafting

variable {d : Draft} {hand around : List Stem}

/-! ## What waits for a declaration -/

theorem get?_headed {b : Block} (hcomments : x ∉ b.comments) (hattributes : x ∉ b.attributes)
    (y : Nat) : (headed t x b).get? y = (t.get? y).map fun n ↦
      adopting x .attributes b.attributes y (adopting x .headerComments b.comments y n) := by
  rw [headed, get?_adopted hattributes, get?_adopted hcomments, Option.map_map]
  rfl

/-- An element that has got what waited looks like that. -/
theorem outline_headed {b : Block} {name : Text} {e : Element}
    (h : t.MadeOf (b.comments.map .note ++ (b.attributes.map .whole ++ .whole x :: stems)))
    (hafter : (headed t x b).MadeOf hand)
    (hx : t.get? x = some { name := name, element := e }) (he : e.otherwise? = none) :
    (headed t x b).outline x = .node x name e (b.comments.map t.outline)
      (b.attributes.map t.outline) [] none := by
  have hcomments {c : Nat} (hc : c ∈ b.comments) : ¬ReflTransGen t.Owns c x :=
    h.not_reached_of_mem (f := .note) (r := .whole x) (fun _ ↦ rfl) (by simp) .refl hc
  have hattributes {a : Nat} (ha : a ∈ b.attributes) : ¬ReflTransGen t.Owns a x := by
    have hmade : t.MadeOf (b.attributes.map .whole ++
        (b.comments.map .note ++ .whole x :: stems)) :=
      h.perm (List.perm_append_comm_assoc _ _ _)
    exact hmade.not_reached_of_mem (f := .whole) (r := .whole x) (fun _ ↦ rfl) (by simp) .refl ha
  have hget := get?_headed (t := t) (fun hx ↦ hcomments hx .refl) fun hx ↦ hattributes hx .refl
  have hsame {y : Nat} (hy : ¬ReflTransGen t.Owns y x) (hlt : y < t.size) :
      (headed t x b).outline y = t.outline y := by
    refine Undisturbed.outline_eq (fun z hz ↦ ?_) (h.isWhole_outline hlt) (by simp [headed])
    have hne : z ≠ x := by
      rintro rfl
      exact hy hz
    rw [hget, Option.map_map]
    exact Option.map_congr fun n _ ↦
      (unplaced_adopting hne).trans (unplaced_adopting hne)
  have hlt : x < (headed t x b).size := by
    simpa [headed] using lt_of_get? hx
  obtain ⟨n, hn, houtline⟩ := outline_eq_node (hafter.isWhole_outline hlt)
  have hnode : n =
      { name, element := e, headerComments := b.comments, attributes := b.attributes } := by
    rw [hget, hx, Option.map_some] at hn
    simpa [adopting, Node.modifyList, eq_comm] using hn
  subst hnode
  rw [houtline]
  simp only [he, Option.map_none, List.map_nil]
  congr 1
  · refine List.map_congr_left fun c hc ↦ hsame (hcomments hc) (h.lt_of_mem (s := .note c) ?_)
    simp [hc]
  · refine List.map_congr_left fun a ha ↦ hsame (hattributes ha) (h.lt_of_mem (s := .whole a) ?_)
    simp [ha]

/-! ## The other fields -/

section Copies

variable {first : ElementId} {name : Text} {f : Field} {headers applied : List Outline}

/-- A copy of a field is made, and looks like it except for its name and what goes with that. -/
theorem copyAs_eq (h : d.Holds hand around) (hlt : first < d.tree.size)
    (hfirst : (d.tree.outline first).unnumbered =
      .node 0 name (.field f) headers applied [] none) (n : DeclaredName) :
    ∃ id u, copyAs first n d = .ok id { d with tree := u } ∧ Intact d.tree u ∧
      d.tree.size ≤ id ∧ id < u.size ∧
      (u.outline id).unnumbered = .node 0 ((Element.field f).renamed n).1
        ((Element.field f).renamed n).2 headers applied [] none := by
  obtain ⟨u, id, hcopy, hdeep⟩ := (h.made.acyclicBelow first).exists_copy h.linked
    fun _ ↦ h.made.lt_of_reached hlt
  have hmade : u.MadeOf (.whole id :: (hand ++ (d.block.stems ++ around))) := h.made.copy hcopy
  have hnew : d.tree.size ≤ id := hdeep.fresh id .refl
  refine ⟨id, u.modify id (renamedNode n), ?_, ⟨hdeep.intact.roots, fun y hy ↦ ?_⟩, hnew, ?_, ?_⟩
  · rw [copyAs, hcopy]
    rfl
  · rw [get?_modify, if_neg (Nat.ne_of_gt (Nat.lt_of_lt_of_le hy hnew)), hdeep.intact.get?_eq y hy]
  · rw [size_modify]
    exact hmade.lt_of_mem (s := .whole id) List.mem_cons_self
  · obtain ⟨k, -, hcopied, hrenamed⟩ := hmade.outline_modify (f := renamedNode n)
      (fun _ s ↦ by cases s <;> rfl) (fun _ ↦ rfl) fun k ↦ otherwise?_renamed k.element n
    have hlook := hdeep.outline.trans hfirst
    rw [hcopied, Outline.unnumbered] at hlook
    obtain ⟨-, -, helement, hheaders, happlied, hchildren, hnext⟩ := Outline.node.inj hlook
    have hfield : k.element = .field f := by
      cases hk : k.element <;> simp_all [Element.withOtherwise]
    rw [hrenamed, Outline.unnumbered, hheaders, happlied, hchildren, hnext, renamedNode, hfield]
    rfl

/-- What the further names make of the first field, if none of them is a fixed-size buffer. -/
def furtherField (f : Field) (n : DeclaredName) : Text × Field :=
  (n.name, { f with initialValue := n.initialValue, trailingComment := none })

theorem renamed_field {n : DeclaredName} (hf : f.fixedSize = none) (hn : '[' ∉ n.name) :
    (Element.field f).renamed n = ((furtherField f n).1, .field (furtherField f n).2) := by
  cases hfixed : f.isFixed <;>
    simp [Element.renamed, hfixed, fixedSize_of_not_mem hn, furtherField, hf]

/-- The copies look like the field except for their names and initial values. -/
theorem copiesAs_eq (h : d.Holds hand around) (hlt : first < d.tree.size)
    (hfirst : (d.tree.outline first).unnumbered =
      .node 0 name (.field f) headers applied [] none) (hf : f.fixedSize = none)
    {names : List DeclaredName} (hnames : ∀ n ∈ names, '[' ∉ n.name) :
    ∃ ids u, copiesAs first names d = .ok ids { d with tree := u } ∧ Intact d.tree u ∧
      d.tree.size ≤ u.size ∧ (∀ id ∈ ids, d.tree.size ≤ id) ∧
      ids.map (fun id ↦ (u.outline id).unnumbered) = (names.map (furtherField f)).map fun n ↦
        .node 0 n.1 (.field n.2) headers applied [] none := by
  induction names generalizing d hand with
  | nil =>
    exact ⟨[], d.tree, rfl, ⟨rfl, fun _ _ ↦ rfl⟩, Nat.le_refl _, by simp, rfl⟩
  | cons n names ih =>
    obtain ⟨id, u, hcopy, hintact, hnew, hid, hlook⟩ := copyAs_eq h hlt hfirst n
    have hsize : d.tree.size ≤ u.size := Nat.le_of_lt (Nat.lt_of_le_of_lt hnew hid)
    have hu : Draft.Holds { d with tree := u } (.whole id :: hand) around :=
      tends_copyAs first n h hcopy
    have hfirst' :
        (u.outline first).unnumbered = .node 0 name (.field f) headers applied [] none := by
      rw [hintact.outline_eq h.made hsize hlt, hfirst]
    obtain ⟨ids, v, hcopies, hintact', hsize', hnew', hlooks⟩ :=
      ih hu (Nat.lt_of_lt_of_le hlt hsize) hfirst' fun m hm ↦ hnames m (List.mem_cons_of_mem n hm)
    refine ⟨id :: ids, v, ?_, hintact.trans hintact' hsize, Nat.le_trans hsize hsize', ?_, ?_⟩
    · exact bind_eq_ok.mpr ⟨id, _, hcopy, bind_eq_ok.mpr ⟨ids, _, hcopies, rfl⟩⟩
    · intro m hm
      rcases List.mem_cons.mp hm with rfl | hm
      · exact hnew
      · exact Nat.le_trans hsize (hnew' m hm)
    · rw [List.map_cons, List.map_cons, List.map_cons, hlooks,
        hintact'.outline_eq hu.made hsize' hid, hlook,
        renamed_field hf (hnames n List.mem_cons_self)]

end Copies

/-! ## Placing them -/

/-- The tree in which elements have been placed in the innermost scope, if one is open. -/
def placed (t : Tree) (scopes : List Scope) (ids : List ElementId) : Tree :=
  (ownerOf scopes).elim t fun p ↦ t.adopted p .children ids

section Placed

variable {ids : List ElementId}

theorem attachAll_eq (h : d.Holds (ids.map .whole) around) :
    attachAll ids d = .ok () { d with
      tree := placed d.tree d.block.scopes ids
      block := { d.block with elements := gathered d.block.scopes d.block.elements ids } } := by
  cases hscopes : d.block.scopes with
  | nil =>
    rw [attachAll_of_scopes_eq_nil hscopes]
    simp [placed, ownerOf, gathered, hscopes]
  | cons scope scopes =>
    have hmem : scope.stem ∈ d.block.stems ++ around := by
      simp [Block.stems, hscopes]
    obtain ⟨hfold, -, -⟩ := h.made.foldlM_eq .children (f := .whole) (fun _ ↦ rfl)
      (putsBeneath_addChild scope.owner) hmem scope.bears_owner h.linked
      fun {v y others} _ hlinked hv hr _ ↦
        hv.addChild_eq hlinked hr (scope.bears_owner (hv.fits (List.mem_cons_of_mem _ hr)))
    rw [attachAll_of_scopes_eq_cons hscopes hfold]
    simp only [placed, ownerOf, gathered, List.head?_cons, Option.map_some, Option.elim_some,
      List.isEmpty_cons, Bool.false_eq_true, if_false]

theorem exists_stem_of_owner (h : d.Holds hand around) {p : ElementId}
    (hp : p ∈ ownerOf d.block.scopes) :
    ∃ r ∈ d.block.stems ++ around, ReflTransGen d.tree.Owns r.head p := by
  obtain ⟨scope, hscope, rfl⟩ := Option.map_eq_some_iff.mp hp
  have hmem : scope.stem ∈ d.block.stems ++ around :=
    List.mem_append_left _ (Block.stem_mem_stems (List.mem_of_head? hscope))
  exact ⟨scope.stem, hmem, scope.bears_owner (h.made.fits (List.mem_append_right _ hmem))⟩

/-- The innermost scope does not hang from what is in the hand. -/
theorem not_reached_owner (h : d.Holds (ids.map .whole) around) {p : ElementId}
    (hp : p ∈ ownerOf d.block.scopes) {id : ElementId} (hid : id ∈ ids) :
    ¬ReflTransGen d.tree.Owns id p := by
  obtain ⟨r, hr, hreached⟩ := exists_stem_of_owner h hp
  exact h.made.not_reached_of_mem (f := .whole) (fun _ ↦ rfl) hr hreached hid

theorem get?_placed (h : d.Holds (ids.map .whole) around) {y : ElementId} (hy : y ∉ ids) :
    (placed d.tree d.block.scopes ids).get? y =
      (d.tree.get? y).map (gaining (ownerOf d.block.scopes) ids y) := by
  cases howner : ownerOf d.block.scopes with
  | none =>
    rw [placed, howner, Option.elim_none]
    cases d.tree.get? y <;> rfl
  | some p =>
    have hp : p ∉ ids := fun hp ↦ not_reached_owner h howner hp .refl
    rw [placed, howner, Option.elim_some, get?_adopted hp]
    exact Option.map_congr fun n _ ↦ adopting_eq_gaining hy

theorem outline_placed (h : d.Holds (ids.map .whole) around) {id : ElementId}
    (hid : id ∈ ids) : (placed d.tree d.block.scopes ids).outline id = d.tree.outline id := by
  cases howner : ownerOf d.block.scopes with
  | none => rw [placed, howner, Option.elim_none]
  | some p =>
    have hlt : id < d.tree.size := h.made.lt_of_mem (s := .whole id) (by simp [hid])
    rw [placed, howner, Option.elim_some]
    exact h.made.outline_adopted (fun hp ↦ not_reached_owner h howner hp .refl) hlt
      (not_reached_owner h howner hid)

/-- Nothing hangs from two elements that were in the hand. -/
theorem apart_placed (h : d.Holds (ids.map .whole) around)
    (hmade : (placed d.tree d.block.scopes ids).MadeOf stems) :
    ids.Pairwise fun a b ↦ ∀ y, ReflTransGen (placed d.tree d.block.scopes ids).Owns a y →
      ¬ReflTransGen (placed d.tree d.block.scopes ids).Owns b y := by
  have hheads : (ids.map Stem.whole).map Stem.head = ids := by
    rw [List.map_map]
    exact List.map_id' ids
  have hforest := h.made.forest
  rw [List.map_append, hheads] at hforest
  refine hforest.nodup.of_append_left.imp_of_mem fun {a b} ha hb hne y hay hby ↦ hne ?_
  cases howner : ownerOf d.block.scopes with
  | none =>
    rw [placed, howner, Option.elim_none] at hay hby
    exact hforest.head_unique (List.mem_append_left _ ha) (List.mem_append_left _ hb) hay hby
  | some p =>
    have howns {id : Nat} (hid : id ∈ ids) : (placed d.tree d.block.scopes ids).Owns p id := by
      obtain ⟨r, hr, hp⟩ := exists_stem_of_owner h howner
      obtain ⟨n, hn⟩ := exists_get?_of_lt
        (h.made.lt_of_reached (h.made.lt_of_mem (List.mem_append_right _ hr)) hp)
      have hget := get?_placed h fun hp ↦ not_reached_owner h howner hp .refl
      rw [hn, Option.map_some, gaining, if_pos howner] at hget
      refine .inl ⟨.children, ?_⟩
      rw [listOf_of_get? hget]
      exact List.mem_append_right _ hid
    exact hmade.forest.sibling_unique (howns ha) (howns hb) hay hby

end Placed

end Drafting

/-- Fields have been declared: one for each pair of a name and the data of a field, in this order,
and each with comments and attributes that look like the ones that waited. -/
structure Draft.DeclaresFields (d d' : Draft) (ids : List ElementId)
    (fields : List (Text × Field)) : Prop where
  /-- Nothing waits any more. If no scope is open, the fields are the last elements of the block. -/
  block : d'.block =
    { scopes := d.block.scopes, elements := gathered d.block.scopes d.block.elements ids }
  /-- What was there is as it was, but an innermost scope has the fields as its last children, and
  what waited has been placed. -/
  old : ∀ y < d.tree.size, y ∉ d.block.comments → y ∉ d.block.attributes →
    d'.tree.get? y = (d.tree.get? y).map (gaining (ownerOf d.block.scopes) ids y)
  new : ∀ id ∈ ids, d.tree.size ≤ id
  looks : ids.map (fun id ↦ (d'.tree.outline id).unnumbered) = fields.map fun field ↦
    .node 0 field.1 (.field field.2) (Outline.unnumberedAll (d.block.comments.map d.tree.outline))
      (Outline.unnumberedAll (d.block.attributes.map d.tree.outline)) [] none
  /-- No two of them share anything. -/
  apart : ids.Pairwise fun a b ↦
    ∀ y, ReflTransGen d'.tree.Owns a y → ¬ReflTransGen d'.tree.Owns b y

namespace Drafting

variable {d : Draft} {around : List Stem} {f : Field} {names : List DeclaredName}

/-- A new field gets what waited. -/
theorem applyHeader_create (h : d.Holds [] around)
    (hattributes : ∀ a ∈ d.block.attributes, d.tree.kind? a = some .attributeUse) (name : Text)
    (f : Field) :
    ∃ u, applyHeader d.tree.size { d with tree := d.tree.create name (.field f) } =
        .ok () { d with tree := u, block := { d.block with comments := [], attributes := [] } } ∧
      u.size = d.tree.size + 1 ∧
      (∀ y < d.tree.size, y ∉ d.block.comments → y ∉ d.block.attributes →
        u.get? y = d.tree.get? y) ∧
      u.outline d.tree.size = .node d.tree.size name (.field f)
        (d.block.comments.map d.tree.outline) (d.block.attributes.map d.tree.outline) [] none := by
  have hcreate : create name (.field f) d =
    .ok d.tree.size { d with tree := d.tree.create name (.field f) } := rfl
  have ht : Draft.Holds { d with tree := d.tree.create name (.field f) } [.whole d.tree.size]
      around := tends_create rfl h hcreate
  have hcomments : ∀ c ∈ d.block.comments, c < d.tree.size := fun c hc ↦
    h.made.lt_of_mem (s := .note c) (by simp [Block.stems, hc])
  have happlied : ∀ a ∈ d.block.attributes, a < d.tree.size := fun a ha ↦
    h.made.lt_of_mem (s := .whole a) (by simp [Block.stems, ha])
  have hheader := applyHeader_eq (k := .field) ht (by simp [kind?_create, Element.kind]) rfl rfl
    fun a ha ↦ by rw [kind?_create, if_neg (Nat.ne_of_lt (happlied a ha)), hattributes a ha]
  have hu := tends_applyHeader d.tree.size ht hheader
  refine ⟨_, hheader, by simp [headed], fun y hy hcomment hattribute ↦ ?_, ?_⟩
  · rw [get?_headed (fun hx ↦ Nat.lt_irrefl _ (hcomments _ hx))
      (fun hx ↦ Nat.lt_irrefl _ (happlied _ hx)), get?_create, if_neg (Nat.ne_of_lt hy)]
    cases d.tree.get? y with
    | none => rfl
    | some n =>
      rw [Option.map_some, adopting_of_not_mem (Nat.ne_of_lt hy) hcomment,
        adopting_of_not_mem (Nat.ne_of_lt hy) hattribute]
  · have hsame {c : Nat} (hc : c < d.tree.size) :
        (d.tree.create name (.field f)).outline c = d.tree.outline c :=
      (intact_create d.tree name (.field f)).outline_eq h.made (by simp) hc
    rw [outline_headed (madeOf_waiting ht) hu.made (by rw [get?_create, if_pos rfl]) rfl]
    congr 1
    · exact List.map_congr_left fun c hc ↦ hsame (hcomments c hc)
    · exact List.map_congr_left fun a ha ↦ hsame (happlied a ha)

/-- The first field is made and gets what waited; then the others are copied from it, and all of
them are placed. -/
theorem declaresFields_of_create (name : Text) (h : d.Holds [] around)
    (htext : d.block.text = [])
    (hattributes : ∀ a ∈ d.block.attributes, d.tree.kind? a = some .attributeUse)
    (hf : f.fixedSize = none) (hnames : ∀ n ∈ names, '[' ∉ n.name) :
    ∃ ids d', (create name (.field f) >>= fun id ↦ emitNames true id names) d =
        .ok (.produced (names.length + 1)) d' ∧ d'.cursor = d.cursor ∧ d'.Holds [] around ∧
      d.DeclaresFields d' ids ((name, f) :: names.map (furtherField f)) := by
  have hcreate : create name (.field f) d =
    .ok d.tree.size { d with tree := d.tree.create name (.field f) } := rfl
  obtain ⟨t, hheader, hsize, hold, hlook⟩ := applyHeader_create h hattributes name f
  have ht := tends_applyHeader d.tree.size (tends_create rfl h hcreate) hheader
  have hlt : d.tree.size < t.size := by omega
  have hlook' : (t.outline d.tree.size).unnumbered = .node 0 name (.field f)
      (Outline.unnumberedAll (d.block.comments.map d.tree.outline))
      (Outline.unnumberedAll (d.block.attributes.map d.tree.outline)) [] none := by
    rw [hlook]
    rfl
  obtain ⟨ids, u, hcopies, hintact, hle, hnew, hlooks⟩ := copiesAs_eq ht hlt hlook' hf hnames
  have hu : Draft.Holds { d with tree := u, block :=
      { d.block with comments := [], attributes := [] } }
      ((d.tree.size :: ids).map .whole) around :=
    ((tame_copiesAs List.mem_cons_self names).tends ht hcopies).perm
      (List.perm_append_singleton _ _)
  have hattach := attachAll_eq hu
  have htends : Tends (attachAll (d.tree.size :: ids)) ((d.tree.size :: ids).map .whole)
      fun _ ↦ [] := by
    rw [← List.append_nil ((d.tree.size :: ids).map Stem.whole)]
    exact (tame_attachAll _).tends
  have hplaced := htends hu hattach
  have hlength : ids.length = names.length := by
    simpa using congrArg List.length hlooks
  refine ⟨d.tree.size :: ids, _, ?_, ?_, hplaced, ⟨?_, fun y hy hcomment hattribute ↦ ?_, ?_, ?_,
    apart_placed hu hplaced.made⟩⟩
  · refine bind_eq_ok.mpr ⟨_, _, hcreate, bind_eq_ok.mpr ⟨(), _, hheader, ?_⟩⟩
    refine bind_eq_ok.mpr ⟨ids, _, hcopies, bind_eq_ok.mpr ⟨(), _, hattach, ?_⟩⟩
    rw [List.length_cons, hlength]
    rfl
  · rfl
  · simp only [htext]
  · have hy' : y < t.size := by omega
    have hnot : y ∉ d.tree.size :: ids := by
      intro hmem
      rcases List.mem_cons.mp hmem with rfl | hmem
      · exact Nat.lt_irrefl _ hy
      · exact absurd (hnew y hmem) (Nat.not_le.mpr hy')
    rw [get?_placed hu hnot, hintact.get?_eq y hy', hold y hy hcomment hattribute]
  · intro id hid
    rcases List.mem_cons.mp hid with rfl | hid
    · exact Nat.le_refl _
    · exact Nat.le_trans (Nat.le_of_lt hlt) (hnew id hid)
  · have hsame : (d.tree.size :: ids).map (fun id ↦
        ((placed u d.block.scopes (d.tree.size :: ids)).outline id).unnumbered) =
        (d.tree.size :: ids).map fun id ↦ (u.outline id).unnumbered :=
      List.map_congr_left fun id hid ↦ congrArg Outline.unnumbered (outline_placed hu hid)
    rw [hsame, List.map_cons, hintact.outline_eq ht.made hle hlt, hlook', hlooks,
      List.map_cons]

end Drafting

end SharpOutline
