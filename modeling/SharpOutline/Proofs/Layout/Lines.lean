import SharpOutline.Proofs.Block.Checks
import SharpOutline.Proofs.Block.Comments

/-!
# Reading lines of a layout

What the machine builds from laid out lines. `Line.Builds` says that the lines, inside any open
scope and after comments that wait, add elements that look like the given outlines and leave
comments that wait behind; `Line.BuildsNext` says the same of the further branches of a conditional,
and `Line.Heads` of a declaration for which attributes may wait as well. There is one lemma for each
way in which lines are put together, and none of them depends on the indentation or the end of a
line.

Most lines are read in the same way in front of any text. Behind the accessors of a property,
however, the reader goes on over all blanks to see whether a value follows, and then takes a comment
there for one that belongs to the line. So all runs are described up to blanks, and `Line.Quiet` is
what has to be known of the text behind a property.
-/

namespace SharpOutline

open Drafting SharpOutline.Tree Machine

/-- The list of attributes as it is read back. -/
def Outline.relisted : Outline → Outline
  | .node _ name (.attributeUse a) _ _ children _ =>
    ListedAttribute.outline ⟨name, a⟩
      ((children.filterMap Outline.listed?).map fun b ↦ b.outline [])
  | o => o

/-- Nothing that comments may stand above refers to a next branch. -/
theorem Element.otherwise?_eq_none (e : Element) (h : e.kind.isCommentable = true) :
    e.otherwise? = none := by
  cases e with
  | conditionDirective => exact absurd h Bool.false_ne_true
  | _ => rfl

namespace Line

variable {m : RegionMarkers} {s : LayoutSettings} {fs : List Frame} {t : Tree} {b : Block}
  {scopes : List Scope} {comments attributes elements : List ElementId} {rest text : Text}
  {ls ls' : List Line} {after after' : Text → Prop} {depth : Nat} {name a : Text}
  {waiting waiting' waiting'' applied os os' : List Outline}

/-! ## The text of a line -/

def indentation (s : LayoutSettings) (depth : Nat) : Text :=
  (List.replicate depth s.indent.unit).flatten

variable {c : Char} {u w rest : Text} {e : Element} {o : Option Outline}

theorem isBlank_of_mem_indentation (hc : c ∈ indentation s depth) :
    isBlank c = true := by
  obtain ⟨u, hu, hc⟩ := List.mem_flatten.mp hc
  obtain rfl := (List.mem_replicate.mp hu).2
  cases hindent : s.indent with
  | spaces width =>
    rw [hindent] at hc
    rw [(List.mem_replicate.mp hc).2]
    decide
  | tabs =>
    rw [hindent] at hc
    rw [List.mem_singleton.mp hc]
    decide

theorem toText_eq (s : LayoutSettings) (depth : Nat) (htext : text ≠ []) :
    toText s ⟨depth, text⟩ = indentation s depth ++ (text ++ s.lineEnding.text) := by
  rw [toText, if_neg (by simpa using htext), List.append_assoc]
  rfl

theorem lineEnding_text_eq (e : LineEnding) :
    ∃ c u, e.text = c :: u ∧ EndsLine c ∧ ∀ d ∈ u, isBlank d = true := by
  cases e with
  | newline => exact ⟨'\n', [], rfl, .inl rfl, by simp⟩
  | returnNewline => exact ⟨'\r', ['\n'], rfl, .inr rfl, by simp; decide⟩

theorem isBlank_of_mem_lineEnding {e : LineEnding} : ∀ c ∈ e.text, isBlank c = true :=
  List.all_eq_true.mp (by cases e <;> decide)

theorem allToText_append (ls ls' : List Line) :
    allToText s (ls ++ ls') = allToText s ls ++ allToText s ls' := List.flatMap_append

theorem allToText_cons (l : Line) (ls : List Line) :
    allToText s (l :: ls) = toText s l ++ allToText s ls := List.flatMap_cons

theorem allToText_blank : allToText s [.blank] = s.lineEnding.text := by
  simp [allToText, toText, blank]

theorem allToText_singleton (l : Line) : allToText s [l] = toText s l := List.append_nil _

/-! ## Blanks between lines -/

/-- The text begins with a character that is not blank. -/
def Begins (text : Text) : Prop := ∃ c w, text = c :: w ∧ isBlank c = false

/-- The text begins with a character of a word. -/
def StartsWord (text : Text) : Prop := ∃ c w, text = c :: w ∧ endsWord c = false

/-- Neither a comment nor an equals sign comes next. -/
def Quiet (t : Text) : Prop := ∀ c ∈ (Text.trimStart t).head?, c ≠ '/' ∧ c ≠ '='

theorem trimStart_append (hu : ∀ c ∈ u, isBlank c = true) (t : Text) :
    Text.trimStart (u ++ t) = Text.trimStart t :=
  List.dropWhile_append_of_pos hu

theorem Begins.trimStart_append (h : Begins text) (rest : Text) :
    Text.trimStart (text ++ rest) = text ++ rest := by
  obtain ⟨c, w, rfl, hc⟩ := h
  exact Text.trimStart_eq_self (by simpa using hc)

theorem trimStart_indented (h : Begins text) (rest : Text) :
    Text.trimStart (indentation s depth ++ text ++ rest) = text ++ rest := by
  rw [List.append_assoc, trimStart_append fun _ ↦ isBlank_of_mem_indentation, h.trimStart_append]

theorem trimStart_toText (h : Begins text) (rest : Text) :
    Text.trimStart (toText s ⟨depth, text⟩ ++ rest) = text ++ (s.lineEnding.text ++ rest) := by
  obtain ⟨c, w, rfl, hc⟩ := h
  rw [toText_eq s depth (List.cons_ne_nil c w), ← List.append_assoc, List.append_assoc,
    trimStart_indented ⟨c, w, rfl, hc⟩]

theorem StartsWord.begins (h : StartsWord text) : Begins text := by
  obtain ⟨c, w, rfl, hc⟩ := h
  exact ⟨c, w, rfl, isBlank_of_endsWord hc⟩

theorem StartsWord.quiet (h : StartsWord text) (rest : Text) :
    Quiet (indentation s depth ++ text ++ rest) := by
  rw [Quiet, trimStart_indented h.begins]
  obtain ⟨c, w, rfl, hc⟩ := h
  simpa using ⟨ne_of_endsWord hc (by decide), ne_of_endsWord hc (by decide)⟩

theorem startsWord_spaced {ws : List Text} (hws : ∀ v ∈ ws, IsWord v) (hw : IsWord w) (u : Text) :
    StartsWord (spaced ws ++ (w ++ u)) := by
  have hfirst {v : Text} (hv : IsWord v) (u : Text) : StartsWord (v ++ u) := by
    obtain ⟨c, v, rfl⟩ := List.exists_cons_of_ne_nil hv.1
    exact ⟨c, v ++ u, rfl, hv.2 c (by simp)⟩
  cases ws with
  | nil => exact hfirst hw u
  | cons v ws =>
    rw [spaced_cons, List.append_assoc]
    exact hfirst (hws v (by simp)) _

theorem quiet_toText (hc : isBlank c = false) (hslash : c ≠ '/') (hequals : c ≠ '=') (rest : Text) :
    Quiet (toText s ⟨depth, c :: w⟩ ++ rest) := by
  rw [Quiet, trimStart_toText ⟨c, w, rfl, hc⟩]
  simpa using ⟨hslash, hequals⟩

theorem quiet_cons (hc : isBlank c = false) (hslash : c ≠ '/') (hequals : c ≠ '=') (ls : List Line)
    (rest : Text) :
    Quiet (allToText s (⟨depth, c :: w⟩ :: ls) ++ rest) := by
  rw [allToText_cons, List.append_assoc]
  exact quiet_toText hc hslash hequals _

theorem quiet_blank (h : Quiet rest) : Quiet (allToText s [.blank] ++ rest) := by
  rwa [Quiet, allToText_blank, trimStart_append isBlank_of_mem_lineEnding]

theorem leads_trimStart (u : Text) (hb : b.text = []) :
    Leads m ⟨u, t, b⟩ fs ⟨Text.trimStart u, t, b⟩ fs := by
  have hleads : Leads m ⟨u.takeWhile isBlank ++ u.dropWhile isBlank, t, b⟩ fs
      ⟨u.dropWhile isBlank, t, b⟩ fs := leads_blanks (List.all_eq_true.mp List.all_takeWhile) hb
  rwa [List.takeWhile_append_dropWhile] at hleads

theorem leads_blanks_append (hu : ∀ c ∈ u, isBlank c = true) (hb : b.text = []) :
    Leads m ⟨u ++ rest, t, b⟩ fs ⟨Text.trimStart rest, t, b⟩ fs := by
  rw [← trimStart_append hu rest]
  exact leads_trimStart (u ++ rest) hb

theorem leads_lineEnding (hb : b.text = []) :
    Leads m ⟨s.lineEnding.text ++ rest, t, b⟩ fs ⟨Text.trimStart rest, t, b⟩ fs :=
  leads_blanks_append isBlank_of_mem_lineEnding hb

/-! ## Lines one after the other -/

/-- Reading the lines in front of a text that is as `after` says, while the comments `waiting` wait,
adds elements that look like the outlines, and then the comments `waiting'` wait. -/
def Builds (m : RegionMarkers) (s : LayoutSettings) (after : Text → Prop) (ls : List Line)
    (waiting os waiting' : List Outline) : Prop :=
  ∀ (rest : Text) (base t : Tree) (scopes : List Scope) (comments elements : List ElementId)
    (fs : List Frame), after rest → Between base t scopes comments waiting →
    ∃ base' u ids comments',
      Leads m ⟨Text.trimStart (allToText s ls ++ rest), t, { comments, scopes, elements }⟩ fs
        ⟨Text.trimStart rest, u,
          { comments := comments', scopes, elements := gathered scopes elements ids }⟩ fs ∧
      Sprouts base base' (ownerOf scopes) ids os ∧ Between base' u scopes comments' waiting'

theorem builds_nil : Builds m s after [] waiting [] waiting :=
  fun _ base t _ comments _ _ _ h ↦
    ⟨base, t, [], comments, by rw [gathered_nil]; exact .refl, .nil h.base_roots, h⟩

theorem Builds.append (h : Builds m s after ls waiting os waiting')
    (h' : Builds m s after' ls' waiting' os' waiting'')
    (hafter : ∀ rest, after' rest → after (allToText s ls' ++ rest)) :
    Builds m s after' (ls ++ ls') waiting (os ++ os') waiting'' := by
  intro rest base t scopes comments elements fs hrest hbetween
  obtain ⟨base', u, ids, comments', hleads, hsprouts, hbetween'⟩ :=
    h (allToText s ls' ++ rest) base t scopes comments elements fs (hafter rest hrest) hbetween
  obtain ⟨base'', v, ids', comments'', hleads', hsprouts', hbetween''⟩ :=
    h' rest base' u scopes comments' (gathered scopes elements ids) fs hrest hbetween'
  refine ⟨base'', v, ids ++ ids', comments'', ?_, ?_, hbetween''⟩
  · rw [allToText_append, List.append_assoc, ← gathered_gathered]
    exact hleads.trans hleads'
  · exact hsprouts.append hsprouts' fun p hp ↦ (hbetween.isOpen p hp).1

theorem Builds.append_any (h : Builds m s (fun _ ↦ True) ls waiting os waiting')
    (h' : Builds m s after' ls' waiting' os' waiting'') :
    Builds m s after' (ls ++ ls') waiting (os ++ os') waiting'' :=
  h.append h' fun _ _ ↦ trivial

theorem builds_blank : Builds m s after [.blank] waiting [] waiting := by
  intro rest base t scopes comments elements fs _ h
  refine ⟨base, t, [], comments, ?_, .nil h.base_roots, h⟩
  rw [gathered_nil, allToText_blank, trimStart_append isBlank_of_mem_lineEnding]
  exact .refl

theorem builds_comment {c : Comment} (hc : m.isPlain c = true) (depth : Nat) (k : ElementId) :
    Builds m s after (c.lines depth) waiting []
      (waiting ++ [.node k [] (.comment c) [] [] [] none]) := by
  intro rest base t scopes comments elements fs _ h
  have hnewline : '\n' ∉ c.text := by
    rw [RegionMarkers.isPlain, Bool.and_eq_true] at hc
    simpa using hc.1
  have hwritten : Begins c.written := by
    rw [Comment.written]
    split <;> exact ⟨'/', _, rfl, by decide⟩
  refine ⟨base, _, [], _, ?_, .nil h.base_roots, h.create [] c k⟩
  rw [Comment.lines_of_not_mem hnewline, allToText_singleton, gathered_nil,
    trimStart_toText hwritten]
  exact (leads_comment fs s.lineEnding rest t scopes comments elements hc).trans
    (leads_trimStart rest rfl)

/-! ## Declarations -/

/-- Where comments and attributes wait, reading the lines adds a declaration that gets them. -/
structure Heads (m : RegionMarkers) (s : LayoutSettings) (after : Text → Prop) (ls : List Line)
    (k : ElementId) (name : Text) (e : Element) (children : List Outline) : Prop where
  quiet : ∀ rest, Quiet (allToText s ls ++ rest)
  leads : ∀ (rest : Text) (base t : Tree) (scopes : List Scope)
    (comments attributes elements : List ElementId) (waiting applied : List Outline)
    (fs : List Frame), after rest → Headed base t scopes comments attributes waiting applied →
    (applied = [] ∨ e.kind.isAttributable = true) →
    ∃ v, Leads m ⟨Text.trimStart (allToText s ls ++ rest), t,
          { comments, attributes, scopes, elements }⟩ fs
        ⟨Text.trimStart rest, v, { scopes, elements := gathered scopes elements [t.size] }⟩ fs ∧
      Sprouts base v (ownerOf scopes) [t.size] [.node k name e waiting applied children none]

theorem leads_attributes {base : Tree} {before : List Outline} (m : RegionMarkers)
    (s : LayoutSettings) (depth : Nat) (rest : Text) (elements : List ElementId) (fs : List Frame)
    (happlied : ∀ o ∈ applied, o.isAttribute = true)
    (h : Headed base t scopes comments attributes waiting before) :
    ∃ u ids, Leads m ⟨Text.trimStart (allToText s (Outline.headerLines s depth applied) ++ rest), t,
          { comments, attributes, scopes, elements }⟩ fs
        ⟨Text.trimStart rest, u,
          { comments, attributes := attributes ++ ids, scopes, elements }⟩ fs ∧
      Headed base u scopes comments (attributes ++ ids) waiting
        (before ++ applied.map Outline.relisted) := by
  induction applied generalizing t attributes before with
  | nil => exact ⟨t, [], by simpa [Outline.headerLines, allToText] using .refl, by simpa using h⟩
  | cons o applied ih =>
    rw [List.forall_mem_cons] at happlied
    obtain ⟨ho, happlied⟩ := happlied
    obtain ⟨-, k, head, children, rfl, hhead, htarget, hchain⟩ := Outline.eq_of_isAttribute ho
    let later := allToText s (Outline.headerLines s depth applied) ++ rest
    obtain ⟨u, hlist, hu⟩ := exists_runs_attributeList hhead hchain (s.lineEnding.text ++ later)
      { comments, attributes, scopes, elements } h.roots
    obtain ⟨v, ids, hleads, hv⟩ := ih happlied (h.append hu (List.forall_mem_singleton.mpr rfl))
    refine ⟨v, t.size :: ids, ?_, by simpa [Outline.relisted] using hv⟩
    have hbracket : Runs squareBracket
        ⟨listText head (children.filterMap Outline.listed?) ++ ']' :: (s.lineEnding.text ++ later),
          t, { comments, attributes, scopes, elements }⟩ .more
        ⟨s.lineEnding.text ++ later, u,
          { comments, attributes := attributes ++ [t.size], scopes, elements }⟩ := by
      refine runs_block.bind (hlist.bind ?_)
      dsimp only
      rw [if_neg htarget]
      exact (runs_modifyBlock _).bind .pure
    have hadvance := runs_advance (m := m) (by decide) (runs_react_squareBracket hbracket)
    have htext : Text.trimStart (allToText s (Outline.headerLines s depth
        (.node k head.name (.attributeUse head.data) [] [] children none :: applied)) ++ rest) =
        '[' :: (listText head (children.filterMap Outline.listed?) ++
          ']' :: (s.lineEnding.text ++ later)) := by
      rw [Outline.headerLines, Outline.lines, allToText_append, allToText_singleton,
        List.append_assoc, attributeText_eq, trimStart_toText ⟨'[', _, rfl, by decide⟩]
      simp [later]
    rw [htext, List.append_cons attributes]
    exact (leads_of_done hadvance (by simp)).trans ((leads_lineEnding rfl).trans hleads)

/-- The lines of a declaration and of the attributes before it. -/
theorem Heads.builds {k : ElementId} {children : List Outline}
    (h : Heads m s after ls k name e children) (depth : Nat)
    (hattributes : ∀ o ∈ applied, o.isAttribute = true)
    (happlied : applied = [] ∨ e.kind.isAttributable = true) :
    Builds m s after (Outline.headerLines s depth applied ++ ls) waiting
      [.node k name e waiting (applied.map Outline.relisted) children none] [] := by
  intro rest base t scopes comments elements fs hrest hbetween
  obtain ⟨u, ids, hleads, hheaded⟩ := leads_attributes m s depth (allToText s ls ++ rest)
    elements fs hattributes hbetween.headed
  obtain ⟨v, hleads', hv⟩ := h.leads rest base u scopes comments _ elements waiting _ fs hrest
    hheaded (by simpa using happlied)
  refine ⟨v, v, [u.size], [], ?_, hv, hheaded.placed hv⟩
  rw [allToText_append, List.append_assoc]
  exact hleads.trans hleads'

/-- The lines of a declaration that is read as a whole. -/
theorem heads_of_declares
    (htext : allToText s ls = indentation s depth ++ (text ++ s.lineEnding.text))
    (hstarts : StartsWord text) (hkind : e.kind.isCommentable = true)
    (h : ∀ rest, after rest → ∃ rest', Text.trimStart rest' = Text.trimStart rest ∧
      Declares m (text ++ (s.lineEnding.text ++ rest)) rest' name e) (k : ElementId) :
    Heads m s after ls k name e [] := by
  have htext (rest : Text) : allToText s ls ++ rest =
      indentation s depth ++ text ++ (s.lineEnding.text ++ rest) := by
    simp [htext]
  refine ⟨fun rest ↦ by rw [htext]; exact hstarts.quiet _, ?_⟩
  intro rest base t scopes comments attributes elements waiting applied fs hrest hheaded happlied
  obtain ⟨rest', htrim, hdeclares⟩ := h rest hrest
  obtain ⟨v, hleads, hv⟩ := hdeclares.leads elements hheaded hkind happlied
    (e.otherwise?_eq_none hkind) fs k
  refine ⟨v, ?_, hv⟩
  rw [htext, trimStart_indented hstarts.begins, ← htrim]
  exact hleads.trans (leads_trimStart rest' rfl)

/-- Nothing of such a declaration is read behind the end of its line. -/
theorem heads_of_declares_line
    (htext : allToText s ls = indentation s depth ++ (text ++ s.lineEnding.text))
    (hstarts : StartsWord text) (hkind : e.kind.isCommentable = true)
    (h : ∀ c rest, EndsLine c → Declares m (text ++ c :: rest) (c :: rest) name e) (k : ElementId) :
    Heads m s after ls k name e [] := by
  refine heads_of_declares htext hstarts hkind (fun rest _ ↦
    ⟨s.lineEnding.text ++ rest, trimStart_append isBlank_of_mem_lineEnding rest, ?_⟩) k
  obtain ⟨c, u, hending, hc, -⟩ := lineEnding_text_eq s.lineEnding
  rw [hending]
  exact h c (u ++ rest) hc

theorem allToText_line (h : StartsWord text) :
    allToText s [⟨depth, text⟩] = indentation s depth ++ (text ++ s.lineEnding.text) := by
  obtain ⟨c, w, rfl, -⟩ := h
  rw [allToText_singleton, toText_eq s depth (List.cons_ne_nil c w)]

theorem startsWord_using (u : UsingDirective) (name : Text) : StartsWord (u.written name) := by
  rw [UsingDirective.written]
  split
  · exact ⟨'u', _, rfl, by decide⟩
  · split <;> exact ⟨'u', _, rfl, by decide⟩

theorem heads_using {u : UsingDirective} (hname : isDotted name = true)
    (hkeyword : isKeyword name = false) (hu : u.isMovable = true)
    (halias : ∀ target ∈ u.aliasOf, u.isStatic = false ∧ isDotted target = true) (k : ElementId) :
    Heads m s after [⟨depth, u.written name⟩] k name (.usingDirective u) [] :=
  heads_of_declares_line (allToText_line (startsWord_using u name)) (startsWord_using u name) rfl
    (fun _ rest hc ↦ declares_using rest hname hkeyword hu halias hc) k

/-! ## Lines between braces -/

/-- The lines of an element whose members stand between braces. -/
theorem heads_braced {e : Element} {ending : Ending} (htext : StartsWord text)
    (hending : ending ≠ .outerEnd) (hkind : e.kind.isCommentable = true)
    (hopening : ∀ {fs : List Frame} {t : Tree} {b : Block} {rest u : Text} {c : Char},
      b.text = [] → EndsLine c → (∀ d ∈ u, isBlank d = true) →
      Leads m ⟨text ++ (c :: u ++ '\x7b' :: rest), t, b⟩ fs
        ⟨rest, t.create name e, {}⟩ (⟨t.size, ending, b⟩ :: fs))
    (h : Builds m s Quiet ls [] os waiting') (k : ElementId) :
    Heads m s after (⟨depth, text⟩ :: ⟨depth, ['\x7b']⟩ :: (ls ++ [⟨depth, ['\x7d']⟩])) k name e
      (os ++ waiting') := by
  refine ⟨fun rest ↦ ?_, ?_⟩
  · rw [allToText_cons, toText_eq s depth (by obtain ⟨c, w, rfl, -⟩ := htext; simp),
      ← List.append_assoc, List.append_assoc, List.append_assoc]
    exact htext.quiet _
  intro rest base t scopes comments attributes elements waiting applied fs _ hheaded happlied
  obtain ⟨c, u, hlineEnding, hc, hu⟩ := lineEnding_text_eq s.lineEnding
  -- the members are read in a block of their own, which waits for the closing brace
  obtain ⟨inner, v, ids, comments', hmembers, hinner, hbetween'⟩ :=
    h (toText s ⟨depth, ['\x7d']⟩ ++ rest) (t.create name e) (t.create name e) [] [] []
      (⟨t.size, ending, { comments, attributes, scopes, elements }⟩ :: fs)
      (quiet_toText (by decide) (by decide) (by decide) rest) (between_nil hheaded.roots isOpen_nil)
  obtain ⟨v', hleave, hv'⟩ := leads_leave m fs (u ++ rest) elements hending hc
    (e.otherwise?_eq_none hkind) hkind happlied hheaded hinner hbetween' k
  refine ⟨v', ?_, hv'⟩
  have htexts : Text.trimStart (allToText s (⟨depth, text⟩ :: ⟨depth, ['\x7b']⟩ ::
      (ls ++ [⟨depth, ['\x7d']⟩])) ++ rest) = text ++ (c :: (u ++ indentation s depth) ++
        '\x7b' :: (s.lineEnding.text ++ (allToText s ls ++
          (toText s ⟨depth, ['\x7d']⟩ ++ rest)))) := by
    have hbrace := toText_eq s depth (List.cons_ne_nil '\x7b' [])
    rw [allToText_cons, List.append_assoc, trimStart_toText htext.begins]
    simp [allToText, hbrace, hlineEnding]
  have hblanks : ∀ d ∈ u ++ indentation s depth, isBlank d = true := fun d hd ↦
    (List.mem_append.mp hd).elim (hu d) isBlank_of_mem_indentation
  rw [trimStart_toText ⟨'\x7d', [], rfl, by decide⟩, hlineEnding] at hmembers
  rw [htexts]
  refine (hopening rfl hc hblanks).trans ((leads_lineEnding rfl).trans (hmembers.trans ?_))
  exact hleave.trans (leads_blanks_append (u := c :: u) (by simpa using ⟨hc.isBlank, hu⟩) rfl)

theorem heads_namespace (depth : Nat) (hname : isDotted name = true)
    (h : Builds m s Quiet ls [] os waiting') (k : ElementId) :
    Heads m s after (⟨depth, "namespace ".toList ++ name⟩ :: ⟨depth, ['\x7b']⟩ ::
      (ls ++ [⟨depth, ['\x7d']⟩])) k name (.nameSpace false) (os ++ waiting') :=
  heads_braced ⟨'n', _, rfl, by decide⟩ (by simp) rfl
    (fun hb hc hu ↦ leads_namespace hb hname hc hu) h k

theorem startsWord_signature (d : TypeDeclaration) (name u : Text) :
    StartsWord (d.signature name ++ u) := by
  rw [d.signature_eq, spaced_append, List.append_assoc, List.append_assoc, spaced_cons,
    List.append_assoc]
  exact startsWord_spaced isWord_of_mem_leadingWords (by cases d.kind <;> decide) _

theorem heads_type {d : TypeDeclaration} (depth : Nat) (hd : d.IsRegular) (hname : IsWord name)
    (h : Builds m s Quiet ls [] os waiting') (k : ElementId) :
    Heads m s after (⟨depth, d.signature name⟩ :: ⟨depth, ['\x7b']⟩ :: (ls ++ [⟨depth, ['\x7d']⟩]))
      k name (.typeDeclaration { d with bodyText := none }) (os ++ waiting') :=
  heads_braced (by simpa using startsWord_signature d name []) (by simp) rfl
    (fun hb hc hu ↦ leads_type hb hname hd hc hu) h k

/-! ## Lines between directives -/

theorem builds_region (depth : Nat) (waiting : List Outline) (hname : IsArgument a name)
    (h : Builds m s Quiet ls [] os waiting') (k : ElementId) :
    Builds m s after (⟨depth, "#region".toList ++ a⟩ :: (ls ++ [⟨depth, "#endregion".toList⟩]))
      waiting (waiting ++ [.node k name (.region true) [] [] (os ++ waiting') none]) [] := by
  intro rest base t scopes comments elements fs _ hbetween
  obtain ⟨v, hopening, hv⟩ := leads_openScope m fs s.lineEnding
    (allToText s ls ++ (toText s ⟨depth, "#endregion".toList⟩ ++ rest)) elements "region".toList
    (by decide) (by decide) hname rfl hbetween
  have hopen := hbetween.isOpen.sprouts hv
  obtain ⟨inner, u, ids, comments', hmembers, hinner, hbetween'⟩ :=
    h (toText s ⟨depth, "#endregion".toList⟩ ++ rest) (v.create name (.region true))
      (v.create name (.region true)) (.region v.size :: scopes) []
      (gathered scopes elements comments) fs
      (quiet_toText (by decide) (by decide) (by decide) rest)
      (between_nil hv.roots (isOpen_create rfl))
  obtain ⟨w, hclose, hw⟩ := leads_closeScope m fs s.lineEnding rest
    (gathered scopes elements comments) "endregion".toList (by decide) (by decide)
    hopen hbetween' (fun hy ↦ (runs_checkNoAttributes rest comments' _).bind (runs_block.bind hy))
    fun x hx ↦ by
      have hall := hinner.append hx (by simp [ownerOf, Scope.owner])
      exact .beneath rfl (.inl rfl) hall (.nil hall.roots v.size) k rfl
  have hall := hv.append hw fun p hp ↦ (hbetween.isOpen p hp).1
  refine ⟨w, w, comments ++ [v.size], [], ?_, hall, hbetween.placed hall⟩
  have htexts : allToText s (⟨depth, "#region".toList ++ a⟩ ::
      (ls ++ [⟨depth, "#endregion".toList⟩])) ++ rest = toText s ⟨depth, "#region".toList ++ a⟩ ++
        (allToText s ls ++ (toText s ⟨depth, "#endregion".toList⟩ ++ rest)) := by
    simp [allToText]
  have hbegins : Begins ("#region".toList ++ a) := ⟨'#', _, rfl, by decide⟩
  have hbegins' : Begins "#endregion".toList := ⟨'#', _, rfl, by decide⟩
  rw [trimStart_toText hbegins'] at hmembers
  rw [htexts, ← gathered_gathered, trimStart_toText hbegins]
  exact hopening.trans ((leads_trimStart _ rfl).trans
    (hmembers.trans (hclose.trans (leads_trimStart rest rfl))))

/-- Reading the lines ends the current branch of a conditional with the comments `waiting`, goes on
with further branches that look like `o`, and closes the conditional. How its first branch looks in
the end follows from how the current one does. -/
structure BuildsNext (m : RegionMarkers) (s : LayoutSettings) (ls : List Line)
    (waiting : List Outline) (o : Option Outline) : Prop where
  quiet : ∀ rest, Quiet (allToText s ls ++ rest)
  leads : ∀ (rest : Text) (base inner t : Tree) (scopes : List Scope)
    (comments elements : List ElementId) (fs : List Frame) (head current : Nat) (whole : Outline),
    IsOpen base scopes → Between inner t (.conditional head current :: scopes) comments waiting →
    (o.isSome → HasCondition inner current) →
    (∀ u v next, Sprouts inner u (some current) comments waiting → Continues u v current next o →
      Sprouts base v none [head] [whole]) →
    ∃ v, Leads m ⟨Text.trimStart (allToText s ls ++ rest), t,
        { comments, scopes := .conditional head current :: scopes, elements }⟩ fs
        ⟨Text.trimStart rest, v, { scopes, elements := gathered scopes elements [head] }⟩ fs ∧
      Sprouts base v (ownerOf scopes) [head] [whole]

theorem buildsNext_nil (depth : Nat) : BuildsNext m s [⟨depth, "#endif".toList⟩] waiting none := by
  constructor
  · intro rest
    rw [allToText_singleton]
    exact quiet_toText (by decide) (by decide) (by decide) rest
  intro rest base inner t scopes comments elements fs head current whole hopen hbetween _ hwhole
  obtain ⟨v, hclose, hv⟩ := leads_closeScope m fs s.lineEnding rest elements "endif".toList
    (by decide) (by decide) hopen hbetween
    (fun hy ↦ (runs_checkNoAttributes rest comments elements).bind
      ((runs_innermostConditional rest t comments elements _ head current).bind hy))
    fun u hu ↦ hwhole u u none hu (.nil hu.roots current)
  refine ⟨v, ?_, hv⟩
  have hbegins : Begins "#endif".toList := ⟨'#', _, rfl, by decide⟩
  rw [allToText_singleton, trimStart_toText hbegins]
  exact hclose.trans (leads_trimStart rest rfl)

/-- The lines of a branch and of the branches after it. -/
theorem buildsNext_cons (depth : Nat) (waiting : List Outline) {l : Text} {condition : Option Text}
    (hl : IsBranchLine l condition) (hlast : o.isSome → condition.isSome)
    (h : Builds m s Quiet ls [] os waiting') (h' : BuildsNext m s ls' waiting' o) (k : ElementId)
    (i : Option ElementId) :
    BuildsNext m s (⟨depth, l⟩ :: (ls ++ ls')) waiting
      (some (.node k (condition.getD []) (.conditionDirective condition i) [] []
        (os ++ waiting') o)) := by
  obtain ⟨w, rfl⟩ : ∃ w, l = '#' :: w := by cases hl <;> exact ⟨_, rfl⟩
  have htexts (rest : Text) : allToText s (⟨depth, '#' :: w⟩ :: (ls ++ ls')) ++ rest =
      toText s ⟨depth, '#' :: w⟩ ++ (allToText s ls ++ (allToText s ls' ++ rest)) := by
    simp [allToText]
  constructor
  · intro rest
    rw [htexts]
    exact quiet_toText (by decide) (by decide) (by decide) _
  intro rest base inner t scopes comments elements fs head current whole hopen hbetween hcurrent
    hwhole
  have hcurrent := hcurrent rfl
  obtain ⟨v, hnext, hv⟩ := leads_nextBranch m fs s.lineEnding
    (allToText s ls ++ (allToText s ls' ++ rest)) elements hl hbetween hcurrent
  have hlt : current < v.size := (hcurrent.sprouts hv).lt
  obtain ⟨inner', u, ids, comments', hmembers, hinner', hbetween'⟩ := h (allToText s ls' ++ rest)
    (v.branched current (condition.getD []) condition)
    (v.branched current (condition.getD []) condition) (.conditional head v.size :: scopes) []
    elements fs (h'.quiet rest)
    (between_nil (by rw [roots_branched, hv.roots]) (isOpen_branched hlt head))
  have hfurther : o.isSome → HasCondition inner' v.size := fun ho ↦ by
    obtain ⟨a, rfl⟩ := Option.isSome_iff_exists.mp (hlast ho)
    exact (hasCondition_branched hlt).sprouts hinner'
  obtain ⟨w, hfurtherLines, hw⟩ := h'.leads rest base inner' u scopes comments' elements fs head
    v.size whole hopen hbetween' hfurther fun u' v' next hu' hv' ↦ by
      have hall := hinner'.append hu' (by simp [ownerOf, Scope.owner])
      exact hwhole v v' (some v.size) hv (.beneath hlt hall hv' k i)
  refine ⟨w, ?_, hw⟩
  rw [htexts, trimStart_toText ⟨'#', _, rfl, by decide⟩]
  exact hnext.trans ((leads_trimStart _ rfl).trans (hmembers.trans hfurtherLines))

/-- The lines of a conditional. -/
theorem builds_conditional (depth : Nat) (waiting : List Outline) (hname : IsArgument text name)
    (ha : conditionText name = a) (h : Builds m s Quiet ls [] os waiting')
    (h' : BuildsNext m s ls' waiting' o) (k : ElementId) (i : Option ElementId) :
    Builds m s after (⟨depth, "#if".toList ++ text⟩ :: (ls ++ ls')) waiting
      (waiting ++ [.node k a (.conditionDirective (some a) i) [] [] (os ++ waiting') o]) [] := by
  intro rest base t scopes comments elements fs _ hbetween
  obtain ⟨v, hopening, hv⟩ := leads_openScope m fs s.lineEnding
    (allToText s ls ++ (allToText s ls' ++ rest)) elements "if".toList (by decide) (by decide) hname
    (congrArg openConditional ha) hbetween
  have hopen := hbetween.isOpen.sprouts hv
  obtain ⟨inner, u, ids, comments', hmembers, hinner, hbetween'⟩ := h (allToText s ls' ++ rest)
    (v.create a (.conditionDirective (some a) none))
    (v.create a (.conditionDirective (some a) none))
    (.conditional v.size v.size :: scopes) [] (gathered scopes elements comments) fs
    (h'.quiet rest) (between_nil hv.roots (isOpen_create rfl))
  -- the first branch has a place only when the conditional is closed, so it grows until then
  obtain ⟨w, hfurther, hw⟩ := h'.leads rest v inner u scopes comments'
    (gathered scopes elements comments) fs
    v.size v.size (.node k a (.conditionDirective (some a) i) [] [] (os ++ waiting') o)
    hopen hbetween' (fun _ ↦ hasCondition_create.sprouts hinner) fun u' v' next hu' hv' ↦
      .beneath rfl (.inr rfl) (hinner.append hu' (by simp [ownerOf, Scope.owner])) hv' k rfl
  have hall := hv.append hw fun p hp ↦ (hbetween.isOpen p hp).1
  refine ⟨w, w, comments ++ [v.size], [], ?_, hall, hbetween.placed hall⟩
  have htexts : allToText s (⟨depth, "#if".toList ++ text⟩ :: (ls ++ ls')) ++ rest =
      toText s ⟨depth, "#if".toList ++ text⟩ ++ (allToText s ls ++ (allToText s ls' ++ rest)) := by
    simp [allToText]
  have hbegins : Begins ("#if".toList ++ text) := ⟨'#', _, rfl, by decide⟩
  rw [htexts, ← gathered_gathered, trimStart_toText hbegins]
  exact hopening.trans ((leads_trimStart _ rfl).trans (hmembers.trans hfurther))

end Line

end SharpOutline
