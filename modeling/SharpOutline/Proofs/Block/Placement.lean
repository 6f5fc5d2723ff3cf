import SharpOutline.Proofs.Block.LongerTexts
import SharpOutline.Proofs.Tree.Append

/-!
# A draft inside a longer one

A text that stands between other texts is read as if it stood alone, except that all numbers of its
elements are moved by the number of elements before them. A `Placement` says what is before the text
and what is behind it, and pairs each draft of the text alone with the drafts of the longer text.

The operations that do not read are mirrored under such a placement, whatever the drafts are. They
are gone through here in the order in which they are built from each other.
-/

namespace SharpOutline

open Pairing

/-! ## Moved numbers -/

def Scope.shift (k : Nat) : Scope → Scope
  | region id => region (k + id)
  | conditional head current => conditional (k + head) (k + current)

/-- The block with all numbers in it moved, behind elements that it had before. -/
def Block.shift (k : Nat) (prior : List ElementId) (b : Block) : Block where
  text := b.text
  comments := b.comments.map (k + ·)
  attributes := b.attributes.map (k + ·)
  scopes := b.scopes.map (Scope.shift k)
  elements := prior ++ b.elements.map (k + ·)

def Signal.shift (k : Nat) : Signal → Signal
  | done step => done step
  | opened owner ending => opened (k + owner) ending

theorem Scope.owner_shift (k : Nat) (s : Scope) : (s.shift k).owner = k + s.owner := by
  cases s <;> rfl

@[simp] theorem Scope.shift_zero (s : Scope) : s.shift 0 = s := by
  cases s <;> simp [shift]

theorem Block.shift_zero (b : Block) : b.shift 0 [] = b := by
  have hscopes : Scope.shift 0 = id := funext Scope.shift_zero
  cases b
  simp [shift, hscopes]

/-- A new name and value have nothing to do with the branch that follows. -/
theorem Element.renamed_shift (k : Nat) (e : Element) (n : DeclaredName) :
    (e.shift k).renamed n = ((e.renamed n).1, (e.renamed n).2.shift k) := by
  cases e <;> rfl

/-- Where a text is placed: behind a tree without roots, and in front of another text. -/
structure Placement where
  before : Tree
  rootless : before.roots = []
  after : Text

namespace Placement

/-- A draft of the text alone, and one of the longer text. Before the text was read the block of the
longer one had the elements `prior`. -/
structure Places (w : Placement) (prior : List ElementId) (d e : Draft) : Prop where
  rest : e.cursor.rest = d.cursor.rest ++ w.after
  tree : e.tree = w.before.append d.tree
  block : e.block = d.block.shift w.before.size prior

theorem Places.of_empty {w : Placement} {d e : Draft} (h : w.Places [] d e) (hw : w.before = {}) :
    e.tree = d.tree ∧ e.block = d.block := by
  refine ⟨?_, ?_⟩
  · rw [h.tree, hw, Tree.empty_append]
  · rw [h.block, hw]
    exact Block.shift_zero d.block

def pairing (w : Placement) (prior : List ElementId) : Pairing Draft where
  rest d := d.cursor.rest
  after := w.after
  Pairs := w.Places prior

/-- How the number of an element is moved. -/
def shift (w : Placement) (id : ElementId) : ElementId := w.before.size + id

/-- The placement with another text behind. -/
def followed (w : Placement) (v : Text) : Placement := { w with after := v }

section Operations

variable {α β : Type} (w : Placement) (v : Text) (prior : List ElementId)
  (S : Text → Text → Text → Prop) (P : Text → Prop) (f : α → β) (p : Drafting α) (p' : Drafting β)

/-- The operation does not meet the end of the text. -/
abbrev Firm : Prop := (w.pairing prior).Firm ((w.followed v).pairing prior) S P f p p'

/-- The operation may meet the end of the text, and then `v` is left in the longer one. -/
abbrev Last : Prop := (w.pairing prior).Last ((w.followed v).pairing prior) S P f p p'

end Operations

theorem Last.then {α β γ δ : Type} {w : Placement} {v : Text} {prior : List ElementId}
    {S : Text → Text → Text → Prop} {P : Text → Prop} {f : α → β} {g : γ → δ} {p : Drafting α}
    {p' : Drafting β} {q : α → Drafting γ} {q' : β → Drafting δ} (hp : w.Last v prior S P f p p')
    (hq : ∀ u a, ((w.followed u).pairing prior).Still g (q a) (q' (f a))) :
    w.Last v prior S P g (p >>= q) (p' >>= q') :=
  hp.bind_still (hq w.after) (hq v)

end Placement

namespace Drafting

variable {w : Placement} {prior : List ElementId} {α β : Type}

/-! ## Parts of the draft -/

theorem passes_read {x : Placement} {r : Reading α} {d : Draft} {a : α} {c : Cursor}
    (hbefore : x.before = w.before)
    (h : (Reading.longer w.after).Passes (Reading.longer x.after) r d.cursor a c) :
    (w.pairing prior).Passes (x.pairing prior) (read r) d a { d with cursor := c } := by
  intro e he
  obtain ⟨c', hc', hrest⟩ := h e.cursor he.rest
  refine ⟨{ e with cursor := c' }, ?_, hrest, hbefore ▸ he.tree, hbefore ▸ he.block⟩
  rw [read, hc']

theorem local_read {r : Reading α} (h : (Reading.longer w.after).Local id r r) :
    (w.pairing prior).Local id (read r) (read r) := by
  intro d a d' hd
  obtain ⟨c, hc, rfl⟩ := read_eq_ok hd
  obtain ⟨hsuffix, hm⟩ := h hc
  exact ⟨hsuffix, fun hclear ↦ passes_read rfl (hm hclear)⟩

theorem steady_read {r : Reading α} {v : Text} {K : Prop} {S : Text → Text → Text → Prop}
    {P : Text → Prop} (h : (Reading.longer w.after).Steady (Reading.longer v) K S P id r r) :
    (w.pairing prior).Steady ((w.followed v).pairing prior) K S P id (read r) (read r) := by
  intro d a d' hd
  obtain ⟨c, hc, rfl⟩ := read_eq_ok hd
  obtain ⟨hP, hm⟩ := h hc
  refine ⟨hP, fun hS ↦ (hm hS).imp (And.imp_left (passes_read rfl)) (And.imp_right (Or.imp ?_ ?_))⟩
  · exact passes_read rfl
  · exact And.imp_right (passes_read (x := w.followed v) rfl)

theorem looks_peek : (w.pairing prior).Looks (read Reading.peek) := by
  refine ⟨fun d c d' hd ↦ ?_, fun d ↦ passes_read rfl (Reading.looks_peek.mirrors d.cursor)⟩
  cases hd
  exact ⟨rfl, rfl⟩

theorem still_edit {change change' : Tree → Except Refusal Tree}
    (h : ∀ t u, change t = .ok u → change' (w.before.append t) = .ok (w.before.append u)) :
    (w.pairing prior).Still id (edit change) (edit change') := by
  intro d a d' hd
  obtain ⟨t, ht, rfl⟩ := edit_eq_ok.mp hd
  refine ⟨rfl, fun e he ↦ ⟨{ e with tree := w.before.append t }, ?_, he.rest, rfl, he.block⟩⟩
  exact edit_eq_ok.mpr ⟨_, he.tree ▸ h _ _ ht, rfl⟩

/-- The next element has the next number in both trees. -/
theorem still_create (name : Text) {element : Element} (h : element.otherwise? = none) :
    (w.pairing prior).Still w.shift (create name element) (create name element) := by
  rintro d _ _ ⟨⟩
  refine ⟨rfl, fun e he ↦ ⟨{ e with tree := e.tree.create name element }, ?_, he.rest, ?_,
    he.block⟩⟩
  · rw [create, he.tree, Tree.size_append]
    rfl
  · change e.tree.create name element = w.before.append (d.tree.create name element)
    rw [he.tree, ← Tree.append_create, Element.shift_of_otherwise? h]

theorem still_block :
    (w.pairing prior).Still (Block.shift w.before.size prior) block block := by
  rintro d _ _ ⟨⟩
  refine ⟨rfl, fun e he ↦ ⟨e, ?_, he⟩⟩
  rw [← he.block]
  rfl

theorem still_modifyBlock {f f' : Block → Block}
    (h : ∀ b, f' (b.shift w.before.size prior) = (f b).shift w.before.size prior) :
    (w.pairing prior).Still id (modifyBlock f) (modifyBlock f') := by
  rintro d _ _ ⟨⟩
  refine ⟨rfl, fun e he ↦ ⟨{ e with block := f' e.block }, rfl, he.rest, he.tree, ?_⟩⟩
  change f' e.block = _
  rw [he.block]
  exact h d.block

theorem still_ofExcept (r : Except Fault α) :
    (w.pairing prior).Still id (ofExcept r) (ofExcept r) := by
  cases r with
  | ok a => exact still_pure _ id a
  | error f => exact still_throw _ id f _

/-! ## The text of the declaration -/

theorem still_push (c : Char) : (w.pairing prior).Still id (push c) (push c) :=
  still_modifyBlock fun _ ↦ rfl

theorem still_pushBracketed (opener closer : Char) (inside : Text) :
    (w.pairing prior).Still id (pushBracketed opener closer inside)
      (pushBracketed opener closer inside) :=
  still_modifyBlock fun _ ↦ rfl

theorem still_takeText : (w.pairing prior).Still id takeText takeText :=
  still_block.bind fun b ↦ (still_modifyBlock fun _ ↦ by rfl).bind fun _ ↦
    still_pure _ id (Text.trim b.text)

/-! ## Placing elements -/

section Lists

variable {owner child : ElementId} {ids : List ElementId}

theorem still_addChild : (w.pairing prior).Still id (edit fun t ↦ t.addChild owner child)
    (edit fun t ↦ t.addChild (w.shift owner) (w.shift child)) :=
  still_edit fun _ _ ↦ Tree.append_addChild w.rootless

theorem still_attach (child : ElementId) :
    (w.pairing prior).Still id (attach child) (attach (w.shift child)) := by
  refine still_block.bind fun b ↦ ?_
  cases h : b.scopes with
  | nil =>
    rw [Block.shift, h]
    exact still_modifyBlock fun b ↦ by simp [Block.shift, Placement.shift]
  | cons scope scopes =>
    rw [Block.shift, h, List.map_cons]
    dsimp only
    rw [scope.owner_shift]
    exact still_addChild

theorem still_attachAll (ids : List ElementId) :
    (w.pairing prior).Still id (attachAll ids) (attachAll (ids.map w.shift)) := by
  induction ids with
  | nil => exact still_pure _ id ()
  | cons x ids ih => exact (still_attach x).bind fun _ ↦ ih

theorem still_emit (ids : List ElementId) :
    (w.pairing prior).Still id (emit ids) (emit (ids.map w.shift)) := by
  refine (still_attachAll ids).bind fun _ ↦ ?_
  rw [List.length_map]
  exact still_pure _ id (Step.produced ids.length)

/-- Edits one after the other, each of which is mirrored. -/
theorem still_editAll {change change' : ElementId → Tree → Except Refusal Tree}
    (h : ∀ x t u, change x t = .ok u →
      change' (w.shift x) (w.before.append t) = .ok (w.before.append u)) (ids : List ElementId) :
    (w.pairing prior).Still id (editAll change ids) (editAll change' (ids.map w.shift)) := by
  induction ids with
  | nil => exact still_pure _ id ()
  | cons x ids ih => exact (still_edit (h x)).bind fun _ ↦ ih

theorem still_takeComments :
    (w.pairing prior).Still (List.map w.shift) takeComments takeComments :=
  still_block.bind fun b ↦ (still_modifyBlock fun _ ↦ by rfl).bind fun _ ↦
    still_pure _ (List.map w.shift) b.comments

theorem still_takeAttributes :
    (w.pairing prior).Still (List.map w.shift) takeAttributes takeAttributes :=
  still_block.bind fun b ↦ (still_modifyBlock fun _ ↦ by rfl).bind fun _ ↦
    still_pure _ (List.map w.shift) b.attributes

theorem still_applyHeader (owner : ElementId) :
    (w.pairing prior).Still id (applyHeader owner) (applyHeader (w.shift owner)) :=
  still_takeComments.bind fun comments ↦
    (still_editAll (fun _ _ _ ↦ Tree.append_addHeaderComment w.rootless) comments).bind fun _ ↦
      still_takeAttributes.bind fun applied ↦
        still_editAll (fun _ _ _ ↦ Tree.append_addAttribute w.rootless) applied

theorem still_flushComments : (w.pairing prior).Still id flushComments flushComments :=
  still_takeComments.bind still_attachAll

theorem still_adoptComments (owner : ElementId) :
    (w.pairing prior).Still id (adoptComments owner) (adoptComments (w.shift owner)) :=
  still_takeComments.bind fun comments ↦
    still_editAll (fun _ _ _ ↦ Tree.append_addChild w.rootless) comments

/-- Whatever follows the name of an element, it is not reached by a reading that succeeds. -/
theorem nameOf_throw_ne_ok (x : ElementId) (fault : Text → Fault) (d : Draft) (a : α) (d' : Draft) :
    (do let name ← nameOf x; throw (fault name) : Drafting α) d ≠ .ok a d' := nofun

theorem still_checkNoAttributes :
    (w.pairing prior).Still id checkNoAttributes checkNoAttributes := by
  refine still_block.bind fun b ↦ ?_
  cases h : b.attributes with
  | nil =>
    rw [Block.shift, h]
    exact still_pure _ id ()
  | cons x attributes => exact still_of_fails (nameOf_throw_ne_ok x _)

/-- The elements of a block are those of the block in the longer text, after the ones that this had
before. -/
theorem still_finishBlock :
    (w.pairing prior).Still (fun ids ↦ prior ++ ids.map w.shift) finishBlock finishBlock := by
  refine still_takeText.bind fun text ↦ still_block.bind fun b ↦ ?_
  refine .ite (still_throw _ _ _ _) ?_
  cases h : b.scopes with
  | nil =>
    rw [Block.shift, h]
    exact still_checkNoAttributes.bind fun _ ↦ still_flushComments.bind fun _ ↦
      still_block.bind fun b ↦ still_pure _ (fun ids ↦ prior ++ ids.map w.shift) b.elements
  | cons scope scopes =>
    cases scope with
    | region x => exact still_of_fails (nameOf_throw_ne_ok x _)
    | conditional head current => exact still_of_fails (nameOf_throw_ne_ok head _)

end Lists

/-! ## Regions and conditionals -/

theorem still_openRegion (name : Text) (isDirective : Bool) :
    (w.pairing prior).Still id (openRegion name isDirective) (openRegion name isDirective) :=
  still_checkNoAttributes.bind fun _ ↦ still_flushComments.bind fun _ ↦
    (still_create name rfl).bind fun _ ↦ (still_modifyBlock fun _ ↦ by rfl).bind fun _ ↦
      still_pure _ id Step.more

theorem still_closeScope (x : ElementId) :
    (w.pairing prior).Still id (closeScope x) (closeScope (w.shift x)) :=
  (still_modifyBlock fun b ↦ by simp [Block.shift]).bind fun _ ↦ still_emit [x]

theorem still_closeRegion : (w.pairing prior).Still id closeRegion closeRegion := by
  refine still_checkNoAttributes.bind fun _ ↦ still_block.bind fun b ↦ ?_
  cases h : b.scopes with
  | nil => exact still_throw _ _ _ _
  | cons scope scopes =>
    cases scope with
    | region x =>
      rw [Block.shift, h]
      exact (still_adoptComments x).bind fun _ ↦ still_closeScope x
    | conditional head current => exact still_throw _ _ _ _

theorem still_createBranch (condition : Option Text) :
    (w.pairing prior).Still w.shift (createBranch condition) (createBranch condition) :=
  still_create _ rfl

theorem still_openConditional (condition : Text) :
    (w.pairing prior).Still id (openConditional condition) (openConditional condition) :=
  still_checkNoAttributes.bind fun _ ↦ still_flushComments.bind fun _ ↦
    (still_createBranch _).bind fun _ ↦ (still_modifyBlock fun _ ↦ by rfl).bind fun _ ↦
      still_pure _ id Step.more

theorem still_innermostConditional (directive : Text) :
    (w.pairing prior).Still (Prod.map w.shift w.shift) (innermostConditional directive)
      (innermostConditional directive) := by
  refine still_block.bind fun b ↦ ?_
  cases h : b.scopes with
  | nil => exact still_throw _ _ _ _
  | cons scope scopes =>
    cases scope with
    | region x => exact still_of_fails (nameOf_throw_ne_ok x _)
    | conditional head current =>
      rw [Block.shift, h]
      exact still_pure _ (Prod.map w.shift w.shift) (head, current)

theorem isLastResort_append (t : Tree) (x : ElementId) :
    isLastResort (w.before.append t) (w.shift x) = isLastResort t x := by
  rw [isLastResort, Placement.shift, Tree.get?_append, isLastResort]
  cases t.get? x with
  | none => rfl
  | some n =>
    obtain ⟨name, parent, children, headers, applied, element⟩ := n
    cases element with
    | conditionDirective condition otherwise => cases condition <;> rfl
    | _ => rfl

theorem still_createBranch_bind {g : α → β} {q : ElementId → Drafting α}
    {q' : ElementId → Drafting β} (current : ElementId) (condition : Option Text)
    (hq : ∀ branch, (w.pairing prior).Still g (q branch) (q' (w.shift branch))) :
    (w.pairing prior).Still g
      (do
        let branch ← createBranch condition
        edit fun t ↦ t.setOtherwise current (some branch)
        q branch)
      (do
        let branch ← createBranch condition
        edit fun t ↦ t.setOtherwise (w.shift current) (some branch)
        q' branch) := by
  intro d a d' hd
  -- The edit is mirrored because the branch is new, so it is taken together with its creation.
  obtain ⟨branch, d₁, hcreate, hd⟩ := bind_eq_ok.mp hd
  obtain ⟨⟨⟩, d₂, hedit, hd⟩ := bind_eq_ok.mp hd
  obtain ⟨hrest, hm⟩ := still_createBranch condition hcreate
  obtain ⟨hrest', hm'⟩ := hq branch hd
  cases hcreate
  obtain ⟨u, hu, rfl⟩ := edit_eq_ok.mp hedit
  refine ⟨hrest'.trans hrest, hm.bind (Passes.bind (a := ()) (fun e he ↦ ?_) hm')⟩
  refine ⟨{ e with tree := w.before.append u }, ?_, he.rest, rfl, he.block⟩
  exact edit_eq_ok.mpr ⟨_, he.tree ▸ Tree.append_setOtherwise_create w.rootless hu, rfl⟩

theorem still_nextBranch (condition : Option Text) (directive : Text) :
    (w.pairing prior).Still id (nextBranch condition directive)
      (nextBranch condition directive) := by
  refine still_checkNoAttributes.bind fun _ ↦
    (still_innermostConditional directive).bind fun ⟨head, current⟩ ↦ ?_
  refine still_get_ite (fun d e he ↦ ?_) (still_throw _ _ _ _) ?_
  · rw [he.tree]
    exact isLastResort_append d.tree current
  · refine (still_adoptComments current).bind fun _ ↦
      still_createBranch_bind current condition fun branch ↦ ?_
    refine (still_modifyBlock fun b ↦ ?_).bind fun _ ↦ still_pure _ id Step.more
    simp [Block.shift, Scope.shift, Placement.shift]

theorem still_closeConditional :
    (w.pairing prior).Still id closeConditional closeConditional :=
  still_checkNoAttributes.bind fun _ ↦ (still_innermostConditional _).bind fun scope ↦
    (still_adoptComments scope.2).bind fun _ ↦ still_closeScope scope.1

theorem still_carryOut (directive argument : Text) :
    (w.pairing prior).Still id (carryOut directive argument) (carryOut directive argument) :=
  .ite (still_openRegion argument true) <| .ite still_closeRegion <|
    .ite (still_openConditional _) <| .ite (still_nextBranch _ directive) <|
      .ite (still_nextBranch none directive) <| .ite still_closeConditional <|
        still_throw _ _ _ _

/-! ## Comments and copies -/

theorem still_keepComment (c : Comment) :
    (w.pairing prior).Still id (keepComment c) (keepComment c) := by
  refine (still_create [] rfl).bind fun x ↦ (still_modifyBlock fun b ↦ ?_).bind fun _ ↦
    still_pure _ id Step.more
  simp [Block.shift, Placement.shift]

theorem still_placeComment (m : RegionMarkers) (c : Comment) :
    (w.pairing prior).Still id (placeComment m c) (placeComment m c) := by
  refine .ite ?_ (still_keepComment c)
  cases m.opened? c.text with
  | some name => exact still_openRegion name false
  | none => exact .ite still_closeRegion (still_keepComment c)

theorem still_copyAs (first : ElementId) (n : DeclaredName) :
    (w.pairing prior).Still w.shift (copyAs first n) (copyAs (w.shift first) n) := by
  intro d a d' hd
  obtain ⟨t, hcopy, rfl⟩ := copyAs_eq_ok hd
  refine ⟨rfl, fun e he ↦ ?_⟩
  have hcopy' : e.tree.copy (w.shift first) = .ok (w.before.append t, w.shift a) :=
    he.tree ▸ Tree.append_copy hcopy
  rw [copyAs, hcopy']
  refine ⟨_, rfl, he.rest, ?_, he.block⟩
  exact Tree.append_modify fun n ↦ by simp [Node.shift, Element.renamed_shift, renamedNode]

theorem still_copiesAs (first : ElementId) (names : List DeclaredName) :
    (w.pairing prior).Still (List.map w.shift) (copiesAs first names)
      (copiesAs (w.shift first) names) := by
  induction names with
  | nil => exact still_pure _ (List.map w.shift) []
  | cons n names ih =>
    exact (still_copyAs first n).bind fun x ↦ ih.bind fun ids ↦
      still_pure _ (List.map w.shift) (x :: ids)

end Drafting

end SharpOutline
