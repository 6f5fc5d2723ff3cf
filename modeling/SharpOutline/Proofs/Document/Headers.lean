import SharpOutline.Proofs.Block.Comments
import SharpOutline.Proofs.Document.Breaks
import SharpOutline.Proofs.Document.Waiting

/-!
# A comment between two declarations

A line comment that stands on a line of its own between two declarations belongs to the second one:
it becomes the first comment above it (`Document.parse_withRemark`). That the first declaration does
not take it is a matter of what is read in front of a line break, and is the case unless accessors
end the declaration. That the second one takes it, before the comments that it has already, follows
from what a comment does that waits for a declaration (`Machine.run_noted`).
-/

namespace SharpOutline

open SharpOutline.Tree Drafting

/-! ## The line of a comment -/

/-- The text of a line comment that would not be read as one of another kind, and that marks no
region. -/
structure RegionMarkers.IsRemark (m : RegionMarkers) (text : Text) : Prop where
  newline : '\n' ∉ text
  slash : text.head? ≠ some '/'
  opened : m.opened? (Text.dropReturn text) = none
  closed : m.closed? (Text.dropReturn text) = none

def remarkLine (text rest : Text) : Text := "//".toList ++ (text ++ '\n' :: rest)

/-- The comment on a line. A carriage return at the end of the line is not part of it. -/
def Comment.ofLine (text : Text) : Comment := ⟨.line, Text.dropReturn text⟩

variable {m : RegionMarkers} {text : Text}

theorem yields_comment?_ofLine (rest : Text) (h : m.IsRemark text) :
    Reading.comment?.Yields ('/' :: (text ++ '\n' :: rest)) (some (.ofLine text)) rest := by
  have hahead : ahead (text ++ '\n' :: rest) ≠ '/' := by
    have hslash := h.slash
    cases text with
    | nil => exact (by decide : '\n' ≠ '/')
    | cons c text => simpa using hslash
  exact yields_comment?_line hahead (Reading.yields_line h.newline)

theorem placeComment_ofLine (h : m.IsRemark text) :
    placeComment m (.ofLine text) = keepComment (.ofLine text) := by
  rw [placeComment]
  simp [Comment.ofLine, h.opened, h.closed]

/-- The line of a comment, which then waits. -/
theorem leads_remark (fs : List Frame) (rest : Text) (t : Tree) (h : m.IsRemark text) :
    Machine.Leads m ⟨remarkLine text rest, t, {}⟩ fs
      ⟨rest, t.create [] (.comment (.ofLine text)), { comments := [t.size] }⟩ fs :=
  leads_of_yields_comment? (yields_comment?_ofLine rest h) (placeComment_ofLine h)

theorem runs_withTrailingComment_remark (ids : List ElementId) (rest : Text) (t : Tree)
    (block : Block) (h : m.IsRemark text) :
    Runs (withTrailingComment ids) ⟨remarkLine text rest, t, block⟩ (ids ++ [t.size])
      ⟨rest, t.create [] (.comment (.ofLine text)), block⟩ := by
  have hspaces : Reading.skipSpaces.Yields (remarkLine text rest) () (remarkLine text rest) :=
    Reading.yields_skipSpaces
  have hskip : (Reading.skip 1).Yields (remarkLine text rest) () ('/' :: (text ++ '\n' :: rest)) :=
    Reading.yields_skip 1
  have hread :
      Reading.trailingComment?.Yields (remarkLine text rest) (some (.ofLine text)) rest := by
    refine hspaces.bind (Reading.yields_peek.bind ?_)
    exact hskip.bind ((yields_comment?_ofLine rest h).bind .pure)
  exact (runs_read hread).bind ((runs_create [] _).bind .pure)

/-! ## A comment in front of a document -/

namespace Tree

variable {t : Tree} {c : Comment} {r : ElementId}

theorem element?_append (b t : Tree) (x : ElementId) :
    (b.append t).element? (b.size + x) = (t.element? x).map (Element.shift b.size) := by
  rw [element?, get?_append, element?]
  cases t.get? x <;> rfl

/-- The tree behind a comment, which is the first one above an element of the tree. -/
def remarked (t : Tree) (c : Comment) (r : ElementId) : Tree :=
  ((ofComment c).append t).headed ((ofComment c).size + r) 0

theorem roots_remarked : (t.remarked c r).roots = t.roots.map (1 + ·) := rfl

theorem element?_remarked : (t.remarked c r).element? 0 = some (.comment c) := by
  have hne : (ofComment c).size + r ≠ 0 := Nat.ne_of_gt (Nat.add_pos_left Nat.zero_lt_one r)
  rw [element?, remarked, headed, linked, get?_modify, if_pos rfl, get?_modify, if_neg hne,
    get?_append_left Nat.zero_lt_one]
  rfl

theorem headerComments_remarked {n : Node} (h : t.get? r = some n) :
    ((t.remarked c r).listOf (1 + r) .headerComments) =
      0 :: (t.listOf r .headerComments).map (1 + ·) := by
  have hne : 1 + r ≠ 0 := Nat.ne_of_gt (Nat.add_pos_left Nat.zero_lt_one r)
  have hn : ((ofComment c).append t).get? (1 + r) = some (n.shift 1) := by
    rw [show 1 + r = (ofComment c).size + r from rfl, get?_append, h]
    rfl
  obtain ⟨n', hn', -, -, -, hlist⟩ := get?_headed hne hn
  rw [if_pos rfl] at hlist
  rw [listOf_of_get? h]
  exact (listOf_of_get? hn' .headerComments).trans hlist

end Tree

namespace Drafting

theorem finishBlock_of_block {d : Draft} {ids : List ElementId}
    (h : d.block = { elements := ids }) : finishBlock d = .ok ids d := by
  obtain ⟨cursor, tree, block⟩ := d
  obtain rfl : block = { elements := ids } := h
  rfl

end Drafting

namespace Document

variable {source : Text} {t : Tree} {r : ElementId} {kind : Kind}

/-- **A comment in front of a document.** If the document is one declaration, then the comment is
the first one above it. -/
theorem parse_remarkLine (hc : m.IsRemark text) (h : parse m source = .ok t)
    (hroots : t.roots = [r]) (hkind : t.kind? r = some kind)
    (hdeclares : kind.isDeclaration = true) :
    parse m (remarkLine text source) = .ok (t.remarked (.ofLine text) r) := by
  obtain ⟨d, ids, e, hrun, hfinish, hbrace, rfl⟩ := parse_eq_ok_iff_run.mp h
  obtain rfl : ids = [r] := hroots
  obtain ⟨-, -, -, -, htree, hcursor⟩ := finishBlock_eq_ok hfinish
  have hkind' : e.tree.kind? r = some kind := hkind
  have hblock : d.block = { elements := [r] } := by
    have hholds := Machine.run_induction (fun h hm ↦ h.moves hm) (holds_start source) hrun
    refine block_of_finishBlock hholds.draft hfinish ?_
    rintro x ⟨⟩ hcomment
    cases hkind'.symm.trans hcomment
    cases hdeclares
  obtain ⟨f, hf, hlead⟩ := leads_remark [] source {} hc (start _) rfl
  -- The text is read behind the comment, first as if it did not wait there.
  let w : Placement := ⟨ofComment (.ofLine text), rfl, []⟩
  have hplaced : Machine.Placed w [] ⟨start source, []⟩ ⟨{ f with block := {} }, []⟩ :=
    placed_of_sketch rfl rfl (congrArg (fun s : Sketch ↦ { s with block := {} }) hf)
  have hnoted : Draft.noted 0 { f with block := {} } = f := by
    have hfblock : f.block = { comments := [0] } := congrArg Sketch.block hf
    rw [Draft.noted, Block.noted, ← hfblock]
  obtain ⟨d', hrun', hrest, htree', hblock'⟩ := Machine.run_noted hplaced rfl rfl
    (holds_start source) rfl hrun hblock (htree ▸ hkind') hdeclares
  rw [hnoted] at hrun'
  refine parse_eq_ok_iff_run.mpr
    ⟨d', _, d', hlead.trans hrun', finishBlock_of_block hblock', ?_, ?_⟩
  · rwa [Cursor.peek, hrest, ← hcursor]
  · rw [htree', ← htree]
    rfl

end Document

/-! ## A comment behind accessors -/

namespace Drafting

variable {d d₁ : Draft} {s : Signature} {inside : Text} {step : Step} {ids : List ElementId}

/-- A comment behind accessors is read although it stands on a line of its own. -/
theorem runs_finishProperty_remark (rest : Text) (hblank : d₁.cursor.rest.dropWhile isBlank = [])
    (h : finishProperty s inside d₁ = .ok step d) (hblock : d.block = { elements := ids })
    (hc : m.IsRemark text) :
    Runs (finishProperty s inside)
      ⟨d₁.cursor.rest ++ '\n' :: remarkLine text rest, d₁.tree, d₁.block⟩ (.produced 2)
      ⟨rest, d.tree.create [] (.comment (.ofLine text)), { elements := ids ++ [d.tree.size] }⟩ := by
  obtain ⟨-, e, e', hrest, heblock, hetree, hheader, hd⟩ := finishProperty_eq_ok hblank h
  obtain ⟨hdtree, hdblock⟩ := hd (by rw [hblock])
  have hnext : (d₁.cursor.rest ++ '\n' :: remarkLine text rest).dropWhile isBlank =
      remarkLine text rest := by
    rw [List.dropWhile_append, hblank]
    rfl
  have hvalue : Runs propertyValue
      ⟨d₁.cursor.rest ++ '\n' :: remarkLine text rest, d₁.tree, d₁.block⟩ none
      ⟨remarkLine text rest, d₁.tree, d₁.block⟩ := by
    rw [show Sketch.mk (remarkLine text rest) d₁.tree d₁.block = ⟨_, _, _⟩ from
      congrArg (Sketch.mk · d₁.tree d₁.block) hnext.symm]
    exact runs_propertyValue_none (by rw [hnext]; exact nofun)
  have happly := runs_applyHeader_of_eq_ok hheader hrest (remarkLine text rest)
  rw [hetree, heblock] at happly
  obtain ⟨elements, he', rfl⟩ : ∃ elements, e'.block = { elements } ∧
      ids = elements ++ [d₁.tree.size] := by
    have heq := hdblock.symm.trans hblock
    generalize e'.block = b at heq
    obtain ⟨text, comments, attributes, scopes, elements⟩ := b
    obtain ⟨rfl, rfl, rfl, rfl, rfl⟩ := Block.mk.inj heq
    exact ⟨elements, rfl, rfl⟩
  rw [he', ← hdtree] at happly
  have htrailing := runs_withTrailingComment_remark [d₁.tree.size] rest d.tree { elements } hc
  have hemit : Runs (emit [d₁.tree.size, d.tree.size])
      ⟨rest, d.tree.create [] (.comment (.ofLine text)), { elements }⟩ (.produced 2)
      ⟨rest, d.tree.create [] (.comment (.ofLine text)),
        { elements := elements ++ [d₁.tree.size, d.tree.size] }⟩ :=
    (runs_attachAll_block rest elements _).bind .pure
  rw [List.append_assoc]
  exact hvalue.bind ((runs_create _ _).bind (happly.bind (htrailing.bind hemit)))

end Drafting

namespace Document

variable {source rest : Text} {t₁ t₂ : Tree}

/-- Behind a document that ends with accessors, a comment becomes a root of its own. -/
theorem Lingers.parse_eq (h : Lingers m source t₁) (h₂ : parse m rest = .ok t₂)
    (hc : m.IsRemark text) : parse m (source ++ '\n' :: remarkLine text rest) =
      .ok ((t₁.append { ofComment (.ofLine text) with roots := [0] }).append t₂) := by
  obtain ⟨s, inside, step, d, d₁, hblank, hproperty, htree, hblock, hlonger⟩ := h
  obtain ⟨f, f₁, hf₁, hadvance, heq⟩ := hlonger (remarkLine text rest)
  obtain ⟨f₂, hf₂, hsketch⟩ :=
    runs_done (runs_finishProperty_remark rest hblank hproperty hblock hc) f₁ hf₁
  have hm : Machine.Moves m ⟨f, []⟩ (.produced 2) ⟨f₂, []⟩ := .stepped (hadvance.trans hf₂) nofun
  refine parse_of_run_eq h₂ ?_ (heq.trans hm.run_eq)
  have hcomment : { t₁ with roots := [] }.append (ofComment (.ofLine text)) =
      { t₁ with roots := [] }.create [] (.comment (.ofLine text)) := by
    rw [ofComment, ← append_create, append_empty]
    rfl
  rw [hsketch, htree, ← hcomment]
  rfl

/-! ## A comment between declarations -/

/-- Two texts with a line comment between them, on a line of its own. -/
def withRemark (front text back : Text) : Text :=
  front ++ "\n//".toList ++ text ++ "\n".toList ++ back

/-- **A comment between two declarations.** If two texts are read as one declaration each, and a
line comment stands between them on a line of its own, then the two declarations are the roots, and
the comment is the first one above the second declaration.

There are two exceptions. If the first text can go on with an initial value on the next line, which
is the case for a property only, then the comment becomes a root of its own between the
declarations. If an end mark has ended the first text early, then nothing else is read. -/
theorem parse_withRemark {front back : Text} {r₁ r₂ : ElementId} {kind : Kind}
    (h₁ : parse m front = .ok t₁) (hroot₁ : t₁.roots = [r₁])
    (hnote : t₁.kind? r₁ ≠ some .comment) (hfile : t₁.element? r₁ ≠ some (.nameSpace true))
    (h₂ : parse m back = .ok t₂) (hroot₂ : t₂.roots = [r₂]) (hkind : t₂.kind? r₂ = some kind)
    (hdeclares : kind.isDeclaration = true) (hc : m.IsRemark text) :
    (unread m front = [] → awaitsValue m front = false →
      ∃ t, parse m (withRemark front text back) = .ok t ∧
        t = t₁.append (t₂.remarked (.ofLine text) r₂) ∧
        t.roots = [r₁, t₁.size + (1 + r₂)] ∧
        t.element? t₁.size = some (.comment (.ofLine text)) ∧
        t.listOf (t₁.size + (1 + r₂)) .headerComments =
          t₁.size :: (t₂.listOf r₂ .headerComments).map fun x ↦ t₁.size + (1 + x)) ∧
    (unread m front = [] → awaitsValue m front = true →
      t₁.kind? r₁ = some .property ∧ parse m (withRemark front text back) =
        .ok ((t₁.append { ofComment (.ofLine text) with roots := [0] }).append t₂)) ∧
    (unread m front ≠ [] → parse m (withRemark front text back) = .ok t₁) := by
  have hsource : withRemark front text back = front ++ '\n' :: remarkLine text back := by
    simp [withRemark, remarkLine]
  have hcases (hend : unread m front = []) : Settles m front t₁ ∨ Lingers m front t₁ := by
    refine settles_or_lingers h₁ hend ?_ ?_
    · rw [hroot₁]
      rintro r (_ | ⟨_, ⟨⟩⟩)
      exact hfile
    · rw [hroot₁]
      rintro r ⟨⟩
      exact hnote
  rw [hsource]
  refine ⟨fun hend hawaits ↦ ?_, fun hend hawaits ↦ ?_, fun hleft ↦ ?_⟩
  · have hsettles : Settles m front t₁ := (hcases hend).resolve_right fun h ↦ by
      rw [h.awaitsValue] at hawaits
      cases hawaits
    obtain ⟨n, hn, -⟩ := Option.map_eq_some_iff.mp hkind
    have hback := parse_remarkLine hc h₂ hroot₂ hkind hdeclares
    refine ⟨_, hsettles.parse_eq hback rfl, rfl, ?_, ?_, ?_⟩
    · rw [append, roots_remarked, hroot₁, hroot₂]
      rfl
    · exact (element?_append t₁ _ 0).trans (congrArg _ element?_remarked)
    · rw [listOf_append, headerComments_remarked hn, List.map_cons, List.map_map]
      rfl
  · have hlingers : Lingers m front t₁ := (hcases hend).resolve_left fun h ↦ by
      rw [h.awaitsValue] at hawaits
      cases hawaits
    exact ⟨hlingers.kind hroot₁, hlingers.parse_eq h₂ hc⟩
  · exact parse_append_of_unread h₁ hleft _

/-- A class with a comment above it, which ends with the property in it. -/
def upperSource : Text := "// n\n[A]\nclass C : B \x7b\n  int P \x7b get; \x7d\n\x7d  ".toList

/-- A property with a comment above it that does not come first. -/
def lowerSource : Text := "[X]\n// old\nint Q \x7b get; \x7d = 1;".toList

theorem parse_withRemark_upperSource : ∃ m t₁ t₂ t, markers {} = .ok m ∧
    parse m upperSource = .ok t₁ ∧ parse m lowerSource = .ok t₂ ∧ t₁.roots = [2] ∧ t₂.roots = [2] ∧
      parse m (withRemark upperSource " note\r".toList lowerSource) = .ok t ∧ t.roots = [2, 7] ∧
        t.element? 4 = some (.comment ⟨.line, " note".toList⟩) ∧
          t.listOf 7 .headerComments = [4, 6] := by
  have hsource : ((markers {}).toOption.any fun m ↦ (parse m upperSource).toOption.any fun t₁ ↦
      (parse m lowerSource).toOption.any fun t₂ ↦ t₁.roots = [2] ∧ t₂.roots = [2] ∧ t₁.size = 4 ∧
        t₁.kind? 2 ≠ some .comment ∧ t₁.element? 2 ≠ some (.nameSpace true) ∧
        t₂.kind? 2 = some .property ∧ t₂.listOf 2 .headerComments = [1] ∧
        unread m upperSource = [] ∧ awaitsValue m upperSource = false ∧
        m.opened? " note".toList = none ∧ m.closed? " note".toList = none) = true := by
    decide +kernel
  obtain ⟨m, hm, hsource⟩ := toOption_any.mp hsource
  obtain ⟨t₁, ht₁, hsource⟩ := toOption_any.mp hsource
  obtain ⟨t₂, ht₂, hsource⟩ := toOption_any.mp hsource
  obtain ⟨hroot₁, hroot₂, hsize, hnote, hfile, hkind, hlist, hend, hawaits, hopened, hclosed⟩ :=
    of_decide_eq_true hsource
  have hc : m.IsRemark " note\r".toList := ⟨by decide, by decide, hopened, hclosed⟩
  obtain ⟨t, ht, -, hroots, helement, hlist'⟩ :=
    (parse_withRemark ht₁ hroot₁ hnote hfile ht₂ hroot₂ hkind rfl hc).1 hend hawaits
  rw [hsize] at hroots helement hlist'
  rw [hlist] at hlist'
  exact ⟨m, t₁, t₂, t, hm, ht₁, ht₂, hroot₁, hroot₂, ht, hroots, helement, hlist'⟩

/-- A property that ends with its accessors. -/
def propertySource : Text := "int P \x7b get; \x7d".toList

def fieldSource : Text := "int Q;".toList

/-- A comment between two declarations can become a root of its own, although both texts have been
read to their ends. -/
theorem not_forall_parse_withRemark :
    ¬∀ (m : RegionMarkers) (front text back : Text) (t₁ t₂ : Tree) (r₁ r₂ : ElementId),
      parse m front = .ok t₁ → t₁.roots = [r₁] → (t₁.kind? r₁).any Kind.isDeclaration = true →
      t₁.element? r₁ ≠ some (.nameSpace true) → unread m front = [] →
      parse m back = .ok t₂ → t₂.roots = [r₂] → (t₂.kind? r₂).any Kind.isDeclaration = true →
      t₂.element? r₂ ≠ some (.nameSpace true) → unread m back = [] →
      (back.dropWhile isBlank).head? ≠ some '/' → m.IsRemark text →
      ∃ t, parse m (withRemark front text back) = .ok t ∧ t.roots.length = 2 := by
  intro h
  have hsource : ((markers {}).toOption.any fun m ↦ (parse m propertySource).toOption.any fun t₁ ↦
      (parse m fieldSource).toOption.any fun t₂ ↦
        (parse m (withRemark propertySource " c".toList fieldSource)).toOption.any fun t ↦
          t₁.roots = [0] ∧ (t₁.kind? 0).any Kind.isDeclaration = true ∧
          t₁.element? 0 ≠ some (.nameSpace true) ∧ unread m propertySource = [] ∧ t₂.roots = [0] ∧
          (t₂.kind? 0).any Kind.isDeclaration = true ∧ t₂.element? 0 ≠ some (.nameSpace true) ∧
          unread m fieldSource = [] ∧ m.opened? " c".toList = none ∧
          m.closed? " c".toList = none ∧ t.roots.length = 3) = true := by decide +kernel
  obtain ⟨m, hm, hsource⟩ := toOption_any.mp hsource
  obtain ⟨t₁, ht₁, hsource⟩ := toOption_any.mp hsource
  obtain ⟨t₂, ht₂, hsource⟩ := toOption_any.mp hsource
  obtain ⟨t, ht, hsource⟩ := toOption_any.mp hsource
  obtain ⟨hroot₁, hkind₁, hfile₁, hend₁, hroot₂, hkind₂, hfile₂, hend₂, hopened, hclosed, hthree⟩ :=
    of_decide_eq_true hsource
  have hc : m.IsRemark " c".toList := ⟨by decide, by decide, hopened, hclosed⟩
  obtain ⟨t', ht', htwo⟩ := h _ _ _ _ _ _ _ _ ht₁ hroot₁ hkind₁ hfile₁ hend₁ ht₂ hroot₂ hkind₂
    hfile₂ hend₂ (by decide) hc
  cases ht.symm.trans ht'
  cases hthree.symm.trans htwo

end Document

end SharpOutline
