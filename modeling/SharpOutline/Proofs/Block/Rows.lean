import SharpOutline.Proofs.Block.FieldRows

/-!
# Rows of elements

What has been read in a block stands in rows: the elements of the block itself, and the children of
each open scope. `Draft.Receives` says what an operation has put at the end of the innermost row,
where no other row has changed. Headers, copies and attributes of a list are put elsewhere, so all
that a declaration adds is itself with what follows it on its line, and it says how many these are
(`Draft.Produces`).

Rows of elements that were created meanwhile are left out; nobody has seen them yet.
-/

namespace SharpOutline

open Relation SharpOutline.Tree

namespace Tree

variable {t u : Tree} {p id : Nat} {slot : Slot} {ids : List ElementId}

theorem listOf_appended (hp : p < t.size) (x : Nat) (s : Slot) :
    (t.appended p slot id).listOf x s =
      if x = p ∧ s = slot then t.listOf x s ++ [id] else t.listOf x s := by
  rw [appended, linked, listOf_setParent, listOf_modifyList _ hp]

theorem listOf_adopted (hp : p < t.size) (x : Nat) (s : Slot) :
    (t.adopted p slot ids).listOf x s =
      if x = p ∧ s = slot then t.listOf x s ++ ids else t.listOf x s := by
  induction ids generalizing t with
  | nil => simp [adopted]
  | cons id ids ih =>
    rw [adopted, List.foldl_cons, ← adopted, ih (by simpa using hp), listOf_appended hp]
    split <;> simp

theorem Intact.listOf_eq {x : Nat} (h : Intact t u) (hx : x < t.size) (s : Slot) :
    u.listOf x s = t.listOf x s := by
  rw [listOf, h.get?_eq x hx, listOf]

end Tree

/-- The places of a block where elements stand in a row: the block itself and its open scopes. -/
def Block.places (b : Block) : List (Option ElementId) :=
  none :: b.scopes.map fun s ↦ some s.owner

theorem Block.ownerOf_mem_places {b : Block} {scopes : List Scope} (h : scopes ⊆ b.scopes) :
    ownerOf scopes ∈ b.places := by
  cases scopes with
  | nil => exact List.mem_cons_self
  | cons s scopes =>
    exact List.mem_cons_of_mem _ (List.mem_map_of_mem (h List.mem_cons_self))

/-- The place was there when the tree had so many elements. -/
def IsPlaceBefore (n : Nat) (p : Option ElementId) : Prop := ∀ o ∈ p, o < n

namespace Draft

variable {n : Nat} {d d' d'' : Draft} {ids ids' : List ElementId} {p : Option ElementId}

/-- What stands at a place. -/
def row (d : Draft) (p : Option ElementId) : List ElementId :=
  p.elim d.block.elements fun owner ↦ d.tree.listOf owner .children

/-- The elements were put into the innermost row, and no other row has changed that was there when
the tree had `n` elements. -/
structure Receives (n : Nat) (d : Draft) (ids : List ElementId) (d' : Draft) : Prop where
  size : d.tree.size ≤ d'.tree.size
  scopes : d'.block.scopes = d.block.scopes
  row : ∀ {p}, IsPlaceBefore n p →
    d'.row p = d.row p ++ if p = ownerOf d.block.scopes then ids else []

namespace Receives

theorem trans (h : d.Receives n ids d') (h' : d'.Receives n ids' d'') :
    d.Receives n (ids ++ ids') d'' where
  size := h.size.trans h'.size
  scopes := h'.scopes.trans h.scopes
  row hp := by
    rw [h'.row hp, h.row hp, h.scopes, List.append_assoc]
    split <;> simp

theorem of_listOf (hsize : d.tree.size ≤ d'.tree.size) (hscopes : d'.block.scopes = d.block.scopes)
    (helements : d'.block.elements = d.block.elements)
    (hlist : ∀ o < n, d'.tree.listOf o .children = d.tree.listOf o .children) :
    d.Receives n [] d' where
  size := hsize
  scopes := hscopes
  row {p} hp := by
    rw [ite_self, List.append_nil]
    cases p with
    | none => exact helements
    | some o => exact hlist o (hp o rfl)

theorem of_tree_eq (htree : d'.tree = d.tree) (hscopes : d'.block.scopes = d.block.scopes)
    (helements : d'.block.elements = d.block.elements) : d.Receives n [] d' :=
  of_listOf (Nat.le_of_eq (congrArg Tree.size htree).symm) hscopes helements fun o _ ↦ by rw [htree]

theorem refl (n : Nat) (d : Draft) : d.Receives n [] d := of_tree_eq rfl rfl rfl

end Receives

/-- The element was added, perhaps with others that are new, and the step says how many they are. -/
def Produces (d : Draft) (x : ElementId) (step : Step) (d' : Draft) : Prop :=
  ∃ ids, step = .produced ids.length ∧ (∀ y ∈ ids, y = x ∨ d.tree.size ≤ y) ∧
    d.Receives d.tree.size ids d'

end Draft

namespace Drafting

open Draft

variable {α β : Type} {n : Nat} {x : Drafting α} {f : α → Drafting β} {hand around : List Stem}
  {mid : α → List Stem} {ids : List ElementId} {d d' : Draft} {a : α} {id : ElementId} {step : Step}

/-! ## What operations put into rows -/

/-- With the stems `hand` in the hand, the operation puts the elements into the innermost row. -/
def Fills (n : Nat) (x : Drafting α) (hand : List Stem) (ids : List ElementId) : Prop :=
  ∀ ⦃d a d' around⦄, n ≤ d.tree.size → d.Holds hand around → x d = .ok a d' → d.Receives n ids d'

theorem Fills.bind (hx : Fills n x hand []) (ht : Tends x hand mid)
    (hf : ∀ a, Fills n (f a) (mid a) ids) : Fills n (x >>= f) hand ids := by
  intro d b d'' around hn h hb
  obtain ⟨a, d', ha, hb⟩ := bind_eq_ok.mp hb
  have hreceives := hx hn h ha
  exact hreceives.trans (hf a (hn.trans hreceives.size) (ht h ha) hb)

theorem fills_pure (a : α) : Fills n (pure a) hand [] := by
  intro d b d' around _ _ hx
  cases hx
  exact .refl n d

theorem fills_read (r : Reading α) : Fills n (read r) hand [] := by
  intro d a d' around _ _ hx
  obtain ⟨c, -, rfl⟩ := read_eq_ok hx
  exact .of_tree_eq rfl rfl rfl

theorem fills_create (name : Text) (e : Element) : Fills n (create name e) hand [] := by
  intro d a d' around _ _ hx
  cases hx
  exact .of_listOf (by rw [size_create]; exact Nat.le_succ _) rfl rfl fun o _ ↦ listOf_create ..

section Edits

variable {p : ElementId} {slot : Slot} {change : ElementId → Tree → Except Refusal Tree} {r : Stem}

/-- What is put beneath something that is new, or into another list than that of the children, does
not show in a row. -/
theorem fills_edit (hc : PutsBeneath p slot change) (hr : r ∈ hand) (hp : r.Bears p)
    (hslot : slot = .children → n ≤ p) (s : Stem) :
    Fills n (edit (change s.head)) (s :: hand) [] := by
  intro d a d' around _ h hx
  have hmem : r ∈ s :: hand ++ (d.block.stems ++ around) := by simp [hr]
  have hlt : p < d.tree.size :=
    h.made.lt_of_reached (h.made.lt_of_mem hmem) (hp (h.made.fits hmem))
  obtain ⟨-, rfl⟩ := holds_edit hc h (List.mem_append_left _ hr) hp hx
  refine .of_listOf (Nat.le_of_eq size_appended.symm) rfl rfl fun o ho ↦ ?_
  rw [listOf_appended hlt, if_neg]
  rintro ⟨rfl, hchildren⟩
  exact Nat.not_le.mpr ho (hslot hchildren.symm)

theorem fills_editAll (hc : PutsBeneath p slot change) (hr : r ∈ hand) (hp : r.Bears p)
    (hslot : slot = .children → n ≤ p) (ids : List ElementId) :
    Fills n (editAll change ids) (ids.map .whole ++ hand) [] := by
  induction ids with
  | nil => exact fills_pure ()
  | cons id ids ih =>
    have hmem : r ∈ ids.map Stem.whole ++ hand := List.mem_append_right _ hr
    exact (fills_edit hc hmem hp hslot (.whole id)).bind (tends_edit hc hmem hp) fun _ ↦ ih

end Edits

/-- All that is in the hand is put into the innermost row. -/
theorem fills_attachAll (ids : List ElementId) :
    Fills n (attachAll ids) (ids.map .whole ++ hand) ids := by
  intro d a d' around _ h hx
  have h' : d.Holds (ids.map .whole) (hand ++ around) := Draft.Holds.aside_iff.mp h
  cases (attachAll_eq h').symm.trans hx
  cases hscopes : d.block.scopes with
  | nil =>
    refine ⟨Nat.le_refl _, rfl, fun {p} _ ↦ ?_⟩
    cases p with
    | none => simp [row, hscopes, gathered, ownerOf]
    | some o => simp [row, placed, hscopes, ownerOf]
  | cons scope scopes =>
    have howner : scope.owner ∈ ownerOf d.block.scopes := by simp [hscopes, ownerOf]
    have hlt : scope.owner < d.tree.size := by
      obtain ⟨r, hr, hreached⟩ := exists_stem_of_owner h' howner
      exact h'.made.lt_of_reached (h'.made.lt_of_mem (List.mem_append_right _ hr)) hreached
    refine ⟨by simp [placed, ownerOf], rfl, fun {p} _ ↦ ?_⟩
    cases p with
    | none => simp [row, hscopes, gathered, ownerOf]
    | some o =>
      simp only [row, Option.elim_some, placed, ownerOf, List.head?_cons, Option.map_some,
        listOf_adopted hlt, and_true, hscopes, Option.some.injEq]
      split <;> simp

theorem fills_takeComments : Fills n takeComments hand [] := by
  intro d a d' around _ _ hx
  cases hx
  exact .of_tree_eq rfl rfl rfl

theorem fills_takeAttributes : Fills n takeAttributes hand [] := by
  intro d a d' around _ _ hx
  cases hx
  exact .of_tree_eq rfl rfl rfl

theorem fills_applyHeader (id : ElementId) : Fills n (applyHeader id) (.whole id :: hand) [] :=
  fills_takeComments.bind tends_takeComments fun _ ↦
    (fills_editAll (putsBeneath_addHeaderComment id) List.mem_cons_self
      (Stem.bears_head (.whole id)) nofun _).bind (tends_editAll (putsBeneath_addHeaderComment id)
      List.mem_cons_self (Stem.bears_head (.whole id)) _) fun _ ↦
    fills_takeAttributes.bind tends_takeAttributes fun _ ↦
      fills_editAll (putsBeneath_addAttribute id) List.mem_cons_self
        (Stem.bears_head (.whole id)) nofun _

theorem fills_copyAs (first : ElementId) (name : DeclaredName) :
    Fills n (copyAs first name) hand [] := by
  intro d id d' around hn _ hx
  obtain ⟨t, hcopy, rfl⟩ := copyAs_eq_ok hx
  obtain ⟨hintact, -, hgrafted⟩ := grafted_unfold _ hcopy
  refine .of_listOf ?_ rfl rfl fun o ho ↦ ?_
  · simpa using Nat.le.intro hgrafted.size.symm
  · rw [listOf_modify _ _ _ _ fun _ s ↦ by cases s <;> rfl]
    exact hintact.listOf_eq (Nat.lt_of_lt_of_le ho hn) _

/-- A comment that waits no longer is an element of its own. -/
theorem receives_flushComments {a : Unit} (hn : n ≤ d.tree.size) (h : d.Holds hand around)
    (hx : flushComments d = .ok a d') : d.Receives n d.block.comments d' := by
  obtain ⟨comments, d₁, htake, hx⟩ := bind_eq_ok.mp hx
  have htaken := fills_takeComments (n := n) hn h htake
  have h₁ := tends_takeComments h htake
  cases htake
  exact htaken.trans (fills_attachAll d.block.comments (hn.trans htaken.size) h₁ hx)

/-! ## What is added with a declaration -/

theorem emit_eq_ok (hn : n ≤ d.tree.size) (h : d.Holds (ids.map .whole ++ hand) around)
    (hx : emit ids d = .ok step d') : step = .produced ids.length ∧ d.Receives n ids d' := by
  obtain ⟨⟨⟩, d₁, hattach, hx⟩ := bind_eq_ok.mp hx
  cases hx
  exact ⟨rfl, fills_attachAll ids hn h hattach⟩

/-- A comment on the same line is added as well. -/
theorem receives_withTrailingComment {ids' : List ElementId} (hn : n ≤ d.tree.size)
    (h : d.Holds (ids.map .whole ++ hand) around) (hx : withTrailingComment ids d = .ok ids' d') :
    d.Receives n [] d' ∧ ∀ y ∈ ids', y ∈ ids ∨ d.tree.size ≤ y := by
  obtain ⟨found, d₁, hread, hx⟩ := bind_eq_ok.mp hx
  have hsame := fills_read (n := n) _ hn h hread
  have h₁ := tends_read _ h hread
  cases found with
  | none =>
    cases hx
    exact ⟨hsame, fun y hy ↦ .inl hy⟩
  | some comment =>
    obtain ⟨id, d₂, hcreate, hx⟩ := bind_eq_ok.mp hx
    have hcreated := fills_create (n := n) _ _ (hn.trans hsame.size) h₁ hcreate
    cases hcreate
    cases hx
    refine ⟨hsame.trans hcreated, fun y hy ↦ ?_⟩
    rcases List.mem_append.mp hy with hy | hy
    · exact .inl hy
    · rw [List.mem_singleton.mp hy]
      exact .inr hsame.size

/-- The operation adds the element, perhaps with others that are new, and counts them. -/
def Counts (id : ElementId) (x : Drafting Step) : Prop :=
  ∀ ⦃d step d' around⦄, d.Holds [.whole id] around → x d = .ok step d' → d.Produces id step d'

theorem counts_emitMember (id : ElementId) : Counts id (emitMember id) := by
  intro d step d' around h hx
  obtain ⟨⟨⟩, d₁, hheader, hx⟩ := bind_eq_ok.mp hx
  obtain ⟨ids, d₂, htrailing, hx⟩ := bind_eq_ok.mp hx
  have hgiven := fills_applyHeader id (Nat.le_refl _) h hheader
  have h₁ : d₁.Holds ([id].map .whole ++ []) around := tends_applyHeader id h hheader
  obtain ⟨hsame, hids⟩ := receives_withTrailingComment hgiven.size h₁ htrailing
  have h₂ := (tame_withTrailingComment [id]).tends h₁ htrailing
  obtain ⟨rfl, hplaced⟩ := emit_eq_ok (hgiven.size.trans hsame.size) h₂ hx
  refine ⟨ids, rfl, fun y hy ↦ ?_, hgiven.trans (hsame.trans hplaced)⟩
  exact (hids y hy).imp List.mem_singleton.mp hgiven.size.trans

theorem receives_copiesAs {first : ElementId} {names : List DeclaredName} (hn : n ≤ d.tree.size)
    (h : d.Holds hand around) (hx : copiesAs first names d = .ok ids d') :
    d.Receives n [] d' ∧ ∀ y ∈ ids, d.tree.size ≤ y := by
  induction names generalizing d ids hand with
  | nil =>
    obtain ⟨rfl, rfl⟩ := EStateM.Result.ok.inj hx
    exact ⟨.refl n d, by simp⟩
  | cons name names ih =>
    obtain ⟨id, d₁, hone, hx⟩ := bind_eq_ok.mp hx
    obtain ⟨others, d₂, hothers, hx⟩ := bind_eq_ok.mp hx
    cases hx
    have hcopied := fills_copyAs first name hn h hone
    obtain ⟨hrest, hnew⟩ := ih (hn.trans hcopied.size) (tends_copyAs first name h hone) hothers
    refine ⟨hcopied.trans hrest, fun y hy ↦ ?_⟩
    rcases List.mem_cons.mp hy with rfl | hy
    · obtain ⟨t, hcopy, -⟩ := copyAs_eq_ok hone
      exact (spares_copy (Nat.le_refl _) hcopy).2
    · exact hcopied.size.trans (hnew y hy)

theorem counts_emitNames (isField : Bool) (first : ElementId) (names : List DeclaredName) :
    Counts first (emitNames isField first names) := by
  intro d step d' around h hx
  obtain ⟨⟨⟩, d₁, hheader, hx⟩ := bind_eq_ok.mp hx
  obtain ⟨copies, d₂, hcopies, hx⟩ := bind_eq_ok.mp hx
  have hgiven := fills_applyHeader first (Nat.le_refl _) h hheader
  have h₁ := tends_applyHeader first h hheader
  obtain ⟨hcopied, hnew⟩ := receives_copiesAs hgiven.size h₁ hcopies
  have h₂ : d₂.Holds ((first :: copies).map .whole) around :=
    ((tame_copiesAs List.mem_cons_self names).tends h₁ hcopies).perm
      (List.perm_append_singleton _ _)
  rw [← List.append_nil ((first :: copies).map Stem.whole)] at h₂
  have hmade := hgiven.trans hcopied
  have hids : ∀ y ∈ first :: copies, y = first ∨ d.tree.size ≤ y := fun y hy ↦
    (List.mem_cons.mp hy).imp_right fun hy ↦ hgiven.size.trans (hnew y hy)
  split at hx
  · obtain ⟨rfl, hplaced⟩ := emit_eq_ok hmade.size h₂ hx
    exact ⟨first :: copies, rfl, hids, hmade.trans hplaced⟩
  · obtain ⟨ids, d₃, htrailing, hx⟩ := bind_eq_ok.mp hx
    obtain ⟨hsame, hall⟩ := receives_withTrailingComment hmade.size h₂ htrailing
    have h₃ := (tame_withTrailingComment (first :: copies)).tends h₂ htrailing
    obtain ⟨rfl, hplaced⟩ := emit_eq_ok (hmade.size.trans hsame.size) h₃ hx
    refine ⟨ids, rfl, fun y hy ↦ ?_, hmade.trans (hsame.trans hplaced)⟩
    rcases hall y hy with hy | hy
    · exact hids y hy
    · exact .inr (hmade.size.trans hy)

/-! ## Attributes -/

theorem fills_furtherAttributes {head : ElementId} (hhead : n ≤ head) (k : Nat) :
    Fills n (furtherAttributes head k) (.whole head :: hand) [] := by
  induction k with
  | zero => exact nofun
  | succ k ih =>
    refine (fills_read _).bind (tends_read _) fun more ↦ ?_
    cases more with
    | false => exact fills_pure ()
    | true =>
      exact (fills_read _).bind (tends_read _) fun a ↦
        (fills_create _ _).bind (tends_create rfl) fun id ↦
          (fills_edit (putsBeneath_addChild head) List.mem_cons_self
            (Stem.bears_head (.whole head)) (fun _ ↦ hhead) (.whole id)).bind
            (tends_edit (putsBeneath_addChild head) List.mem_cons_self
              (Stem.bears_head (.whole head))) fun _ ↦ ih

/-- A list of attributes is not put into a row. -/
theorem receives_attributeList {r : ElementId × Option Text} (h : d.Holds hand around)
    (hx : attributeList d = .ok r d') : d.Receives d.tree.size [] d' ∧ r.1 = d.tree.size := by
  obtain ⟨a, d₁, hread, hx⟩ := bind_eq_ok.mp hx
  obtain ⟨head, d₂, hcreate, hx⟩ := bind_eq_ok.mp hx
  replace hx := of_get_bind hx
  obtain ⟨⟨⟩, d₅, hfurther, hx⟩ := bind_eq_ok.mp hx
  cases hx
  have h₁ := tends_read _ h hread
  have h₂ := tends_create rfl h₁ hcreate
  have hsame := fills_read (n := d.tree.size) _ (Nat.le_refl _) h hread
  have hcreated := fills_create (n := d.tree.size) _ _ hsame.size h₁ hcreate
  have hhead : head = d.tree.size := by
    cases hcreate
    obtain ⟨c, -, rfl⟩ := read_eq_ok hread
    rfl
  have hlisted := fills_furtherAttributes (Nat.le_of_eq hhead.symm) _
    (hsame.size.trans hcreated.size) h₂ hfurther
  exact ⟨hsame.trans (hcreated.trans hlisted), hhead⟩

end Drafting

end SharpOutline
