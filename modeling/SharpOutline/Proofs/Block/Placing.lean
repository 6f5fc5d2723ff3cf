import SharpOutline.Proofs.Block.Runs
import SharpOutline.Proofs.Tree.Growth

/-!
# Placing what was read

Between two declarations a block knows its open scopes, its elements and the comments that wait for
the next declaration (`Between`), and then also the attributes (`Headed`). A finished declaration
gets what waits, and becomes a child of the innermost scope or an element of the block itself. Where
no declaration follows, the comments are placed as elements of their own. When a block ends, its
elements become children of the element that opened it.
-/

namespace SharpOutline

open Drafting SharpOutline.Tree

/-- The element that receives what is read, if a scope is open. -/
def ownerOf (scopes : List Scope) : Option Nat := scopes.head?.map Scope.owner

/-- The elements of a block after more of them have been read. -/
def gathered (scopes : List Scope) (elements ids : List ElementId) : List ElementId :=
  if scopes.isEmpty then elements ++ ids else elements

/-- The innermost scope belongs to an element that stands nowhere yet. -/
def IsOpen (t : Tree) (scopes : List Scope) : Prop :=
  ∀ p ∈ ownerOf scopes, p < t.size ∧ t.parent? p = none

theorem gathered_gathered (scopes : List Scope) (elements ids ids' : List ElementId) :
    gathered scopes (gathered scopes elements ids) ids' =
      gathered scopes elements (ids ++ ids') := by
  cases scopes <;> simp [gathered]

@[simp] theorem gathered_nil (scopes : List Scope) (elements : List ElementId) :
    gathered scopes elements [] = elements := by
  simp [gathered]

variable {t u : Tree} {scopes : List Scope} {ids : List Nat} {id : Nat} {os : List Outline}
  {c : Char}

theorem isOpen_nil : IsOpen t [] := by simp [IsOpen, ownerOf]

/-- A scope stays open while elements are added to it. -/
theorem IsOpen.sprouts {owner : Option Nat} (h : IsOpen t scopes) (h' : Sprouts t u owner ids os) :
    IsOpen u scopes := by
  intro p hp
  obtain ⟨hlt, hparent⟩ := h p hp
  rw [h'.parent?_old hlt]
  exact ⟨Nat.lt_of_lt_of_le hlt h'.size_le, hparent⟩

/-! ## Waiting comments -/

/-- Since the tree `base`, in which the innermost scope is open, nothing was read but comments that
still wait. -/
structure Between (base t : Tree) (scopes : List Scope) (comments : List Nat)
    (waiting : List Outline) : Prop where
  base_roots : base.roots = []
  sprouts : Sprouts base t none comments waiting
  isComment : ∀ o ∈ waiting, o.kind? = some .comment
  isOpen : IsOpen base scopes

section Between

variable {base : Tree} {comments : List Nat} {waiting : List Outline}

theorem between_nil (hroots : t.roots = []) (hopen : IsOpen t scopes) : Between t t scopes [] [] :=
  ⟨hroots, .nil hroots, by simp, hopen⟩

theorem Between.roots (h : Between base t scopes comments waiting) : t.roots = [] := h.sprouts.roots

theorem Between.placed (h : Between base t scopes comments waiting)
    (h' : Sprouts base u (ownerOf scopes) ids os) : Between u u scopes [] [] :=
  between_nil h'.roots (h.isOpen.sprouts h')

theorem Between.create (h : Between base t scopes comments waiting) (name : Text) (c : Comment)
    (k : ElementId) : Between base (t.create name (.comment c)) scopes (comments ++ [t.size])
      (waiting ++ [.node k name (.comment c) [] [] [] none]) := by
  refine ⟨h.base_roots, h.sprouts.append (.leaf h.roots rfl k) (by simp), fun o ho ↦ ?_, h.isOpen⟩
  rcases List.mem_append.mp ho with ho | ho
  · exact h.isComment o ho
  · rw [List.mem_singleton.mp ho]
    rfl

theorem runs_takeComments (rest : Text) (u : Tree) (comments attributes elements : List ElementId) :
    Runs takeComments ⟨rest, u, { comments, attributes, scopes, elements }⟩ comments
      ⟨rest, u, { attributes, scopes, elements }⟩ :=
  runs_block.bind ((runs_modifyBlock _).bind .pure)

end Between

/-- After the comments that wait, nothing was read but attributes, which wait as well. -/
structure Headed (base t : Tree) (scopes : List Scope) (comments attributes : List Nat)
    (waiting applied : List Outline) : Prop where
  between : ∃ t₀, Between base t₀ scopes comments waiting ∧ Sprouts t₀ t none attributes applied
  isAttribute : ∀ o ∈ applied, o.kind? = some .attributeUse

section Headed

variable {base : Tree} {comments attributes : List Nat} {waiting applied : List Outline}

theorem Between.headed (h : Between base t scopes comments waiting) :
    Headed base t scopes comments [] waiting [] :=
  ⟨⟨t, h, .nil h.roots⟩, by simp⟩

theorem Headed.roots (h : Headed base t scopes comments attributes waiting applied) :
    t.roots = [] := by
  obtain ⟨t₀, -, hattributes⟩ := h.between
  exact hattributes.roots

theorem Headed.append (h : Headed base t scopes comments attributes waiting applied)
    (h' : Sprouts t u none ids os) (hos : ∀ o ∈ os, o.kind? = some .attributeUse) :
    Headed base u scopes comments (attributes ++ ids) waiting (applied ++ os) := by
  obtain ⟨⟨t₀, hbetween, hattributes⟩, hkind⟩ := h
  exact ⟨⟨t₀, hbetween, hattributes.append h' (by simp)⟩,
    List.forall_mem_append.mpr ⟨hkind, hos⟩⟩

theorem Headed.isOpen (h : Headed base t scopes comments attributes waiting applied) :
    IsOpen base scopes := by
  obtain ⟨t₀, hbetween, -⟩ := h.between
  exact hbetween.isOpen

theorem Headed.placed (h : Headed base t scopes comments attributes waiting applied)
    (h' : Sprouts base u (ownerOf scopes) ids os) : Between u u scopes [] [] :=
  between_nil h'.roots (h.isOpen.sprouts h')

end Headed

/-! ## New elements -/

theorem runs_attachAll_block (rest : Text) (elements ids : List ElementId) :
    Runs (attachAll ids) ⟨rest, u, { elements }⟩ () ⟨rest, u, { elements := elements ++ ids }⟩ := by
  rintro ⟨c, _, _⟩ ⟨⟩
  exact ⟨_, attachAll_of_scopes_eq_nil rfl ids, rfl⟩

theorem runs_attachAll_scope {v : Tree} {s : Scope} (rest : Text) (elements : List ElementId)
    (h : ids.foldlM (fun w id ↦ w.addChild s.owner id) u = .ok v) :
    Runs (attachAll ids) ⟨rest, u, { scopes := s :: scopes, elements }⟩ ()
      ⟨rest, v, { scopes := s :: scopes, elements }⟩ := by
  rintro ⟨c, _, _⟩ ⟨⟩
  exact ⟨_, attachAll_of_scopes_eq_cons rfl h, rfl⟩

theorem runs_attachAll (rest : Text) (elements : List ElementId) (h : Sprouts t u none ids os)
    (hopen : IsOpen t scopes) :
    ∃ v, Runs (attachAll ids) ⟨rest, u, { scopes, elements }⟩ ()
        ⟨rest, v, { scopes, elements := gathered scopes elements ids }⟩ ∧
      Sprouts t v (ownerOf scopes) ids os := by
  cases scopes with
  | nil => exact ⟨u, runs_attachAll_block rest elements ids, h⟩
  | cons s scopes =>
    obtain ⟨hlt, hparent⟩ := hopen s.owner rfl
    obtain ⟨hadd, hsprouts⟩ := h.adopt hlt hparent
    exact ⟨_, runs_attachAll_scope rest elements hadd, hsprouts⟩

/-- A new element is placed. -/
theorem runs_emit (rest : Text) (elements : List ElementId) (h : Sprouts t u none [id] os)
    (hopen : IsOpen t scopes) :
    ∃ v, Runs (emit [id]) ⟨rest, u, { scopes, elements }⟩ (.produced 1)
        ⟨rest, v, { scopes, elements := gathered scopes elements [id] }⟩ ∧
      Sprouts t v (ownerOf scopes) [id] os := by
  obtain ⟨v, hattach, hv⟩ := runs_attachAll rest elements h hopen
  exact ⟨v, hattach.bind .pure, hv⟩

/-! ## Declarations -/

/-- Reading the source up to `rest` makes one element, which then gets what waits for it and is
placed. -/
def Declares (m : RegionMarkers) (source rest name : Text) (e : Element) : Prop :=
  ∀ ⦃t u : Tree⦄ ⦃b b' : Block⦄ ⦃y : Sketch⦄ ⦃fs : List Frame⦄, b.text = [] →
    Runs (applyHeader t.size) ⟨rest, t.create name e, b⟩ () ⟨rest, u, b'⟩ →
    Runs (emit [t.size]) ⟨rest, u, b'⟩ (.produced 1) y → Machine.Leads m ⟨source, t, b⟩ fs y fs

section Declaration

variable {base : Tree} {comments attributes : List Nat} {waiting applied : List Outline}
  {name rest : Text} {e : Element} {o : Option Outline} {k : ElementId}

theorem runs_applyHeader (rest : Text) (elements : List ElementId)
    (h : Headed base t scopes comments attributes waiting applied)
    (h' : Sprouts t u none [id] [.node k name e [] [] os o]) (he : e.kind.isCommentable = true)
    (happlied : applied = [] ∨ e.kind.isAttributable = true) :
    ∃ v, Runs (applyHeader id) ⟨rest, u, { comments, attributes, scopes, elements }⟩ ()
        ⟨rest, v, { scopes, elements }⟩ ∧
      Sprouts base v none [id] [.node k name e waiting applied os o] := by
  obtain ⟨⟨t₀, hbetween, hattributes⟩, hkind⟩ := h
  obtain ⟨hadd, hadd', hv⟩ := hbetween.sprouts.headed hbetween.isComment hattributes
    (fun o ho ↦ ⟨hkind o ho, happlied.resolve_left (List.ne_nil_of_mem ho)⟩) h' he
  have htake : Runs takeAttributes
      ⟨rest, u.adopted id .headerComments comments, { attributes, scopes, elements }⟩ attributes
      ⟨rest, u.adopted id .headerComments comments, { scopes, elements }⟩ :=
    runs_block.bind ((runs_modifyBlock _).bind .pure)
  refine ⟨_, ?_, hv⟩
  exact (runs_takeComments rest u comments attributes elements).bind
    ((runs_editAll hadd).bind (htake.bind (runs_editAll hadd')))

/-- A declaration after which no comment follows is placed with what waited for it. -/
theorem runs_emitMember {b b' : Block} {y : Sketch}
    (hrest : Reading.trailingComment?.Yields rest none rest)
    (hheader : Runs (applyHeader id) ⟨rest, t, b⟩ () ⟨rest, u, b'⟩)
    (hemit : Runs (emit [id]) ⟨rest, u, b'⟩ (.produced 1) y) :
    Runs (emitMember id) ⟨rest, t, b⟩ (.produced 1) y := by
  have htrailing : Runs (withTrailingComment [id]) ⟨rest, u, b'⟩ [id] ⟨rest, u, b'⟩ :=
    (runs_read hrest).bind .pure
  exact hheader.bind (htrailing.bind hemit)

theorem Declares.leads {m : RegionMarkers} {source : Text} (elements : List ElementId)
    (h : Declares m source rest name e)
    (hheaded : Headed base t scopes comments attributes waiting applied)
    (he : e.kind.isCommentable = true) (happlied : applied = [] ∨ e.kind.isAttributable = true)
    (hnext : e.otherwise? = none) (fs : List Frame) (k : ElementId) :
    ∃ v, Machine.Leads m ⟨source, t, { comments, attributes, scopes, elements }⟩ fs
        ⟨rest, v, { scopes, elements := gathered scopes elements [t.size] }⟩ fs ∧
      Sprouts base v (ownerOf scopes) [t.size] [.node k name e waiting applied [] none] := by
  obtain ⟨u, hheader, hu⟩ :=
    runs_applyHeader rest elements hheaded (.leaf hheaded.roots hnext k) he happlied
  obtain ⟨v, hemit, hv⟩ := runs_emit rest elements hu hheaded.isOpen
  exact ⟨v, h rfl hheader hemit, hv⟩

end Declaration

/-! ## The end of a block -/

section End

variable {base : Tree} {comments : List Nat} {waiting : List Outline}

theorem runs_takeText {b : Block} {w v : Text} (hb : b.text = []) (h : Text.trim w = v)
    (rest : Text) : Runs takeText ⟨rest, t, { b with text := w }⟩ v ⟨rest, t, b⟩ := by
  have htake : Runs takeText ⟨rest, t, { b with text := w }⟩ (Text.trim w)
      ⟨rest, t, { b with text := [] }⟩ := runs_block.bind ((runs_modifyBlock _).bind .pure)
  rwa [h, show { b with text := [] } = b by rw [← hb]] at htake

theorem runs_checkNoAttributes (rest : Text) (comments elements : List ElementId) :
    Runs checkNoAttributes ⟨rest, u, { comments, scopes, elements }⟩ ()
      ⟨rest, u, { comments, scopes, elements }⟩ :=
  runs_block.bind .pure

/-- The waiting comments are placed as elements of their own. -/
theorem runs_flushComments (rest : Text) (elements : List ElementId)
    (h : Between base t scopes comments waiting) :
    ∃ v, Runs flushComments ⟨rest, t, { comments, scopes, elements }⟩ ()
        ⟨rest, v, { scopes, elements := gathered scopes elements comments }⟩ ∧
      Sprouts base v (ownerOf scopes) comments waiting := by
  obtain ⟨v, hattach, hv⟩ := runs_attachAll rest elements h.sprouts h.isOpen
  exact ⟨v, (runs_takeComments rest t comments [] elements).bind hattach, hv⟩

/-- A block in which no scope is left open gives its elements and the comments after them. -/
theorem runs_finishBlock (rest : Text) (elements : List ElementId)
    (h : Between base t [] comments waiting) :
    ∃ v, Runs finishBlock ⟨rest, t, { comments, elements }⟩ (elements ++ comments)
        ⟨rest, v, { elements := elements ++ comments }⟩ ∧ Sprouts base v none comments waiting := by
  obtain ⟨v, hflush, hv⟩ := runs_flushComments rest elements h
  have htake := runs_takeText (b := { comments, elements }) (w := []) (t := t) rfl rfl rest
  refine ⟨v, htake.bind (runs_block.bind ?_), hv⟩
  exact (runs_checkNoAttributes rest comments elements).bind (hflush.bind (runs_block.bind .pure))

end End

theorem runs_leave {f : Frame} {x y z : Sketch} {step : Step} (h : Runs (endBlock f) x () y)
    (h' : Runs (emitMember f.owner) { y with block := f.block } step z) :
    Runs (leave f) x step z := by
  intro d hd
  obtain ⟨d', hend, hd'⟩ := h d hd
  obtain ⟨d'', hemit, hd''⟩ := h' { d' with block := f.block } (by rw [← hd']; rfl)
  exact ⟨d'', by rw [leave, hend]; exact hemit, hd''⟩

theorem yields_readEnding {ending : Ending} (rest : Text) (hending : ending ≠ .outerEnd)
    (hc : EndsLine c) :
    (readEnding ending).Yields ('\x7d' :: c :: rest) () (c :: rest) := by
  have hexpect : (Reading.expect '\x7d').Yields ('\x7d' :: c :: rest) () (c :: rest) :=
    Reading.yields_expect rfl
  cases ending with
  | namespaceBrace => exact hexpect
  | outerEnd => exact absurd rfl hending
  | typeBrace =>
    refine hexpect.bind ((Reading.yields_skipSpaces_of_endsLine hc).bind
      (Reading.yields_peek.bind ?_))
    rw [ahead_cons, if_neg (by rcases hc with rfl | rfl <;> decide)]
    exact .pure

/-- The end of the block of a namespace or a type, whose elements have been read. -/
theorem leads_leave (m : RegionMarkers) (fs : List Frame) {base inner : Tree} {ending : Ending}
    {name : Text} {e : Element} {comments attributes comments' : List Nat}
    {waiting applied waiting' : List Outline} (rest : Text) (elements : List ElementId)
    (hending : ending ≠ .outerEnd) (hc : EndsLine c) (he : e.otherwise? = none)
    (hkind : e.kind.isCommentable = true) (happlied : applied = [] ∨ e.kind.isAttributable = true)
    (h : Headed base t scopes comments attributes waiting applied)
    (hread : Sprouts (t.create name e) inner none ids os)
    (h' : Between inner u [] comments' waiting') (k : ElementId) :
    ∃ v, Machine.Leads m ⟨'\x7d' :: c :: rest, u, { comments := comments', elements := ids }⟩
        (⟨t.size, ending, { comments, attributes, scopes, elements }⟩ :: fs)
        ⟨c :: rest, v, { scopes, elements := gathered scopes elements [t.size] }⟩ fs ∧
      Sprouts base v (ownerOf scopes) [t.size]
        [.node k name e waiting applied (os ++ waiting') none] := by
  have hget : (t.create name e).get? t.size = some { name := name, element := e } := by
    rw [get?_create, if_pos rfl]
  obtain ⟨w, hfinish, hw⟩ := runs_finishBlock ('\x7d' :: c :: rest) ids h'
  have hall := hread.append hw (by simp)
  obtain ⟨hadd, hadopted⟩ := hall.adopt (lt_of_get? hget) (by rw [parent?_of_get? hget])
  have hnode := Sprouts.beneath he (.inl rfl) hadopted (Continues.nil hadopted.roots t.size) k rfl
  obtain ⟨u', hheader, hu'⟩ := runs_applyHeader (c :: rest) elements h hnode hkind happlied
  obtain ⟨v, hemit, hv⟩ := runs_emit (c :: rest) elements hu' h.isOpen
  have hend : Runs (endBlock ⟨t.size, ending, { comments, attributes, scopes, elements }⟩)
      ⟨'\x7d' :: c :: rest, u, { comments := comments', elements := ids }⟩ ()
      ⟨c :: rest, w.adopted t.size .children (ids ++ comments'),
        { elements := ids ++ comments' }⟩ :=
    hfinish.bind ((runs_editAll hadd).bind (runs_read (yields_readEnding rest hending hc)))
  have hmember := runs_emitMember (Reading.yields_trailingComment? hc) hheader hemit
  exact ⟨v, Machine.leads_of_leave rfl (runs_leave hend hmember) (by simp), hv⟩

end SharpOutline
