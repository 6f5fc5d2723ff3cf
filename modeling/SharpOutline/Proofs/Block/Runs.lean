import Mathlib.Logic.Relation
import SharpOutline.Proofs.Block.Outcomes
import SharpOutline.Proofs.Words

/-!
# Runs of the reader

What the operations of the reader do, as far as it matters for the tree that is built: they depend
on the text that is left and not on where it stands in the source. `Reading.Yields` says so of a
reading, `Drafting.Runs` of an operation on a draft, of which a `Sketch` keeps all but the position,
and `Machine.Leads` of any number of moves of the machine; `Machine.Passes` is for moves that only
read on, as within a word. Each composes along the way its subject does, so that a long run is put
together from the runs of its parts.

Only runs without a fault are described here.
-/

namespace SharpOutline

/-- The character starts the end of a line. -/
def EndsLine (c : Char) : Prop := c = '\n' ∨ c = '\r'

variable {c : Char}

theorem EndsLine.endsWord (h : EndsLine c) : endsWord c = true := by
  rcases h with rfl | rfl <;> decide

theorem EndsLine.isBlank (h : EndsLine c) : isBlank c = true := by
  rcases h with rfl | rfl <;> decide

/-! ## Readings -/

namespace Reading

variable {α β : Type}

/-- In front of the text `t` the reading returns `a`, and leaves `u`. -/
def Yields (r : Reading α) (t : Text) (a : α) (u : Text) : Prop :=
  ∀ c : Cursor, c.rest = t → ∃ c', r c = .ok a c' ∧ c'.rest = u

variable {r : Reading α} {f : α → Reading β} {t u v : Text} {a : α} {b : β}

variable {c : Char}

theorem Yields.pure : Yields (Pure.pure a) t a t := fun c hc ↦ ⟨c, rfl, hc⟩

theorem Yields.bind (h : Yields r t a u) (h' : Yields (f a) u b v) : Yields (r >>= f) t b v := by
  intro c hc
  obtain ⟨c', hr, hc'⟩ := h c hc
  obtain ⟨c'', hf, hc''⟩ := h' c' hc'
  refine ⟨c'', ?_, hc''⟩
  simp only [Bind.bind, EStateM.bind, hr, hf]

theorem yields_peek : Yields peek t (ahead t) t := fun c hc ↦ ⟨c, by rw [← hc]; rfl, hc⟩

theorem yields_skip (n : Nat) : Yields (skip n) t () (t.drop n) := fun c hc ↦
  ⟨c.skip n, rfl, by rw [Cursor.rest_skip, hc]⟩

theorem drop_length_takeWhile (test : Char → Bool) (t : Text) :
    t.drop (t.takeWhile test).length = t.dropWhile test :=
  (congrArg (List.drop _) List.takeWhile_append_dropWhile.symm).trans List.drop_left

theorem yields_skipBlanks : Yields skipBlanks t () (t.dropWhile isBlank) := fun c hc ↦
  ⟨c.skipBlanks, rfl, by
    rw [Cursor.skipBlanks, Cursor.skipWhile, Cursor.rest_skip, hc, drop_length_takeWhile]⟩

theorem yields_skipSpaces : Yields skipSpaces t () (t.dropWhile fun c ↦ c == ' ' || c == '\t') :=
  fun c hc ↦
  ⟨c.skipWhile _, rfl, by rw [Cursor.skipWhile, Cursor.rest_skip, hc, drop_length_takeWhile]⟩

theorem yields_line {l : Text} (hl : '\n' ∉ l) :
    Yields line (l ++ '\n' :: t) (Text.dropReturn l) t := by
  intro c hc
  have hall : ∀ x ∈ l, (x != '\n') = true := fun x hx ↦ bne_iff_ne.mpr fun h ↦ hl (h ▸ hx)
  have hline : (l ++ '\n' :: t).takeWhile (· != '\n') = l := by
    rw [List.takeWhile_append_of_pos hall]
    simp
  refine ⟨c.skipLine, ?_, ?_⟩
  · have hl : c.line = Text.dropReturn l := by rw [Cursor.line, hc, hline]
    rw [← hl]
    rfl
  · rw [Cursor.skipLine, Cursor.rest_skip, hc, hline]
    simp

theorem yields_span {find : Text → Option (α × Nat)} {n : Nat} (expected : Text)
    (h : find t = some (a, n)) : Yields (span find expected) t a (t.drop n) := fun c hc ↦
  ⟨c.skip n, by rw [span, hc, h], by rw [Cursor.rest_skip, hc]⟩

theorem yields_expect (h : t.dropWhile isBlank = c :: u) : Yields (expect c) t () u := by
  refine yields_skipBlanks.bind ?_
  rw [h]
  refine yields_peek.bind ?_
  rw [ahead_cons, if_pos rfl]
  exact yields_skip 1

theorem yields_skipSpaces_of_endsLine (hc : EndsLine c) :
    Yields skipSpaces (c :: t) () (c :: t) := by
  have h := yields_skipSpaces (t := c :: t)
  rwa [List.dropWhile_cons_of_neg (by rcases hc with rfl | rfl <;> decide)] at h

theorem yields_trailingComment?_none (h : ∀ c ∈ t.head?, c ≠ ' ' ∧ c ≠ '\t' ∧ c ≠ '/') :
    Yields trailingComment? t none t := by
  have hskip := yields_skipSpaces (t := t)
  cases t with
  | nil => exact hskip.bind (yields_peek.bind .pure)
  | cons c t =>
    obtain ⟨hspace, htab, hslash⟩ := h c rfl
    rw [List.dropWhile_cons_of_neg (by simp [hspace, htab])] at hskip
    refine hskip.bind (yields_peek.bind ?_)
    rw [ahead_cons, if_neg hslash]
    exact .pure

theorem yields_trailingComment? (hc : EndsLine c) :
    Yields trailingComment? (c :: t) none (c :: t) := by
  refine yields_trailingComment?_none ?_
  rintro d ⟨⟩
  rcases hc with rfl | rfl <;> decide

end Reading

/-! ## Drafts -/

/-- What the reader has to work with, without the place in the source. -/
structure Sketch where
  rest : Text
  tree : Tree
  block : Block

def Draft.sketch (d : Draft) : Sketch := ⟨d.cursor.rest, d.tree, d.block⟩

namespace Drafting

variable {α β : Type}

/-- From the sketch `x` the operation returns `a`, and leaves `y`. -/
def Runs (p : Drafting α) (x : Sketch) (a : α) (y : Sketch) : Prop :=
  ∀ d : Draft, d.sketch = x → ∃ d', p d = .ok a d' ∧ d'.sketch = y

variable {p : Drafting α} {f : α → Drafting β} {x y z : Sketch} {a : α} {b : β} {fault : Fault}

variable {t : Text} {tree tree' : Tree} {block : Block}

theorem Runs.pure : Runs (Pure.pure a) x a x := fun d hd ↦ ⟨d, rfl, hd⟩

theorem Runs.bind (h : Runs p x a y) (h' : Runs (f a) y b z) : Runs (p >>= f) x b z := by
  intro d hd
  obtain ⟨d', hp, hd'⟩ := h d hd
  obtain ⟨d'', hf, hd''⟩ := h' d' hd'
  refine ⟨d'', ?_, hd''⟩
  simp only [Bind.bind, EStateM.bind, hp, hf]

/-- The whole draft may be looked at, but only its sketch is known. -/
theorem Runs.get_bind {f : Draft → Drafting β} (h : ∀ d : Draft, d.sketch = x → Runs (f d) x b y) :
    Runs (get >>= f) x b y := fun d hd ↦ h d hd d hd

theorem runs_read {r : Reading α} {u : Text} (h : r.Yields t a u) :
    Runs (read r) ⟨t, tree, block⟩ a ⟨u, tree, block⟩ := by
  rintro d ⟨⟩
  obtain ⟨c, hr, hc⟩ := h d.cursor rfl
  exact ⟨{ d with cursor := c }, by rw [read, hr], by rw [← hc]; rfl⟩

theorem runs_propertyValue_none (h : ahead (t.dropWhile isBlank) ≠ '=') :
    Runs propertyValue ⟨t, tree, block⟩ none ⟨t.dropWhile isBlank, tree, block⟩ := by
  refine (runs_read Reading.yields_skipBlanks).bind ((runs_read Reading.yields_peek).bind ?_)
  rw [if_neg h]
  exact .pure

theorem runs_edit {change : Tree → Except Refusal Tree} (h : change tree = .ok tree') :
    Runs (edit change) ⟨t, tree, block⟩ () ⟨t, tree', block⟩ := by
  rintro d ⟨⟩
  exact ⟨{ d with tree := tree' }, by rw [edit, h], rfl⟩

theorem runs_editAll {change : ElementId → Tree → Except Refusal Tree} {ids : List ElementId}
    (h : ids.foldlM (fun u id ↦ change id u) tree = .ok tree') :
    Runs (editAll change ids) ⟨t, tree, block⟩ () ⟨t, tree', block⟩ := by
  rintro d ⟨⟩
  exact ⟨_, editAll_eq_ok.mpr ⟨tree', h, rfl⟩, rfl⟩

theorem runs_create (name : Text) (e : Element) :
    Runs (create name e) ⟨t, tree, block⟩ tree.size ⟨t, tree.create name e, block⟩ := by
  rintro d ⟨⟩
  exact ⟨_, rfl, rfl⟩

theorem runs_block : Runs Drafting.block x x.block x := by
  rintro d ⟨⟩
  exact ⟨d, rfl, rfl⟩

theorem runs_modifyBlock (g : Block → Block) :
    Runs (modifyBlock g) x () { x with block := g x.block } := by
  rintro d ⟨⟩
  exact ⟨_, rfl, rfl⟩

theorem runs_ofExcept {e : Except Fault α} (h : e = .ok a) : Runs (ofExcept e) x a x := by
  subst h
  exact .pure

/-- From the sketch `x` the operation fails. -/
def Fails (p : Drafting α) (x : Sketch) (fault : Fault) : Prop :=
  ∀ d : Draft, d.sketch = x → ∃ d', p d = .error fault d'

theorem Fails.bind (h : Fails p x fault) : Fails (p >>= f) x fault := by
  intro d hd
  obtain ⟨d', hp⟩ := h d hd
  exact ⟨d', by simp only [Bind.bind, EStateM.bind, hp]⟩

theorem Runs.bind_fails (h : Runs p x a y) (h' : Fails (f a) y fault) :
    Fails (p >>= f) x fault := by
  intro d hd
  obtain ⟨d', hp, hd'⟩ := h d hd
  obtain ⟨d'', hf⟩ := h' d' hd'
  exact ⟨d'', by simp only [Bind.bind, EStateM.bind, hp, hf]⟩

end Drafting

/-! ## The machine -/

namespace Machine

variable {m : RegionMarkers} {x y z : Sketch} {fs fs' fs'' : List Frame}

variable {s s' : Machine} {step : Step}

theorem run_of_move (step : Step) (h : s.move m = .ok step s') (hstep : step ≠ .finished) :
    run m s = run m s' := by
  rw [run]
  split
  · rename_i e s'' h'
    simp [h] at h'
  · rename_i step' s'' h'
    obtain ⟨rfl, rfl⟩ : step = step' ∧ s' = s'' := by simpa [h] using h'
    rw [dif_neg hstep]

/-- From one sketch with waiting blocks the machine gets to another one, which is to say that the
rest of the run is the same. -/
def Leads (m : RegionMarkers) (x : Sketch) (fs : List Frame) (y : Sketch) (fs' : List Frame) :
    Prop :=
  ∀ d : Draft, d.sketch = x → ∃ d' : Draft, d'.sketch = y ∧ run m ⟨d, fs⟩ = run m ⟨d', fs'⟩

theorem Leads.refl : Leads m x fs x fs := fun d hd ↦ ⟨d, hd, rfl⟩

theorem Leads.trans (h : Leads m x fs y fs') (h' : Leads m y fs' z fs'') : Leads m x fs z fs'' := by
  intro d hd
  obtain ⟨d', hd', hrun⟩ := h d hd
  obtain ⟨d'', hd'', hrun'⟩ := h' d' hd'
  exact ⟨d'', hd'', hrun.trans hrun'⟩

/-- The machine has read on, and nothing was completed. -/
def Goes (m : RegionMarkers) (s s' : Machine) : Prop := s.move m = .ok .more s'

theorem run_of_goes (h : Relation.ReflTransGen (Goes m) s s') :
    run m s = run m s' := by
  induction h with
  | refl => rfl
  | tail _ hgoes ih => exact ih.trans (run_of_move .more hgoes (by simp))

/-- From one sketch to another one the machine only reads on, whatever blocks wait. -/
def Passes (m : RegionMarkers) (x y : Sketch) : Prop :=
  ∀ d : Draft, d.sketch = x → ∃ d' : Draft, d'.sketch = y ∧
    ∀ fs, Relation.ReflTransGen (Goes m) ⟨d, fs⟩ ⟨d', fs⟩

theorem Passes.refl : Passes m x x := fun d hd ↦ ⟨d, hd, fun _ ↦ .refl⟩

theorem Passes.trans (h : Passes m x y) (h' : Passes m y z) : Passes m x z := by
  intro d hd
  obtain ⟨d', hd', hgoes⟩ := h d hd
  obtain ⟨d'', hd'', hgoes'⟩ := h' d' hd'
  exact ⟨d'', hd'', fun fs ↦ (hgoes fs).trans (hgoes' fs)⟩

theorem Passes.leads (h : Passes m x y) : Leads m x fs y fs := by
  intro d hd
  obtain ⟨d', hd', hgoes⟩ := h d hd
  exact ⟨d', hd', run_of_goes (hgoes fs)⟩

theorem passes_of_done (h : Drafting.Runs (Drafting.advance m) x (.done .more) y) :
    Passes m x y := by
  intro d hd
  obtain ⟨d', hadvance, hd'⟩ := h d hd
  exact ⟨d', hd', fun fs ↦ .single (by rw [Goes, move, hadvance])⟩

open Drafting in
/-- A character that leads to a step of the block. -/
theorem leads_of_done (h : Runs (Drafting.advance m) x (.done step) y) (hstep : step ≠ .finished) :
    Leads m x fs y fs := by
  intro d hd
  obtain ⟨d', hadvance, hd'⟩ := h d hd
  exact ⟨d', hd', run_of_move step (Moves.stepped hadvance hstep).move hstep⟩

open Drafting in
/-- A character that starts the block of an element. -/
theorem leads_of_opened {owner : ElementId} {ending : Ending} {t : Text} {tree : Tree}
    {block : Block} (h : Runs (Drafting.advance m) x (.opened owner ending) ⟨t, tree, block⟩) :
    Leads m x fs ⟨t, tree, {}⟩ (⟨owner, ending, block⟩ :: fs) := by
  intro d hd
  obtain ⟨d', hadvance, ⟨⟩⟩ := h d hd
  exact ⟨{ d' with block := {} }, rfl, run_of_move .more (Moves.opened hadvance).move (by simp)⟩

open Drafting in
/-- The end of a block that lies in another one. -/
theorem leads_of_leave {f : Frame} (hend : endsBlock (ahead x.rest) = true)
    (h : Runs (leave f) x step y) (hstep : step ≠ .finished) : Leads m x (f :: fs) y fs := by
  rintro d ⟨⟩
  obtain ⟨d', hleave, hd'⟩ := h d rfl
  have hadvance : Drafting.advance m d = .ok (.done .finished) d := if_pos hend
  have hleft : Moves m ⟨d, f :: fs⟩ step ⟨d', fs⟩ := .left hadvance rfl hleave
  exact ⟨d', hd', run_of_move step hleft.move hstep⟩

/-- The end of the outermost block. -/
theorem run_of_end {d : Draft} (hend : Drafting.endsBlock d.cursor.peek = true) :
    run m ⟨d, []⟩ = .ok () d := by
  have hended : Moves m ⟨d, []⟩ .finished ⟨d, []⟩ := .ended (if_pos hend) rfl
  have hmove := hended.move
  rw [run]
  split
  · rename_i e s' h'
    simp [hmove] at h'
  · rename_i step s' h'
    obtain ⟨rfl, rfl⟩ : Step.finished = step ∧ (⟨d, []⟩ : Machine) = s' := by simpa [hmove] using h'
    rfl

end Machine

/-! ## Characters -/

namespace Drafting

variable {m : RegionMarkers} {c : Char} {t : Text} {tree : Tree} {block : Block} {y : Sketch}
  {signal : Signal} {step : Step}

variable {x : Sketch}

theorem advance_eq {d : Draft} (m : RegionMarkers) (hc : endsBlock c = false)
    (hd : d.sketch = ⟨c :: t, tree, block⟩) :
    Drafting.advance m d = react m c { d with cursor := d.cursor.advance } ∧
      ({ d with cursor := d.cursor.advance } : Draft).sketch = ⟨t, tree, block⟩ := by
  have hrest : d.cursor.rest = c :: t := congrArg Sketch.rest hd
  have hpeek : d.cursor.peek = c := by rw [Cursor.peek, hrest, ahead_cons]
  constructor
  · rw [Drafting.advance, hpeek, if_neg (by simp [hc])]
  · rw [Draft.sketch, Cursor.rest_advance, hrest]
    exact congrArg (fun s : Sketch ↦ (⟨t, s.tree, s.block⟩ : Sketch)) hd

theorem runs_advance (hc : endsBlock c = false) (h : Runs (react m c) ⟨t, tree, block⟩ signal y) :
    Runs (Drafting.advance m) ⟨c :: t, tree, block⟩ signal y := by
  intro d hd
  obtain ⟨hadvance, hd⟩ := advance_eq m hc hd
  rw [hadvance]
  exact h _ hd

theorem runs_done {p : Drafting Step} (h : Runs p x step y) :
    Runs (done p) x (.done step) y := h.bind .pure

theorem runs_react_directive (h : Runs directive x step y) :
    Runs (react m '#') x (.done step) y :=
  runs_block.bind (runs_done h)

theorem runs_react_squareBracket (h : Runs squareBracket x step y) :
    Runs (react m '[') x (.done step) y :=
  runs_block.bind (runs_done h)

theorem runs_react_semicolon (h : Runs semicolon x step y) :
    Runs (react m ';') x (.done step) y :=
  runs_block.bind (runs_done h)

theorem runs_react_blank (hc : isBlank c = true) (h : Runs blank x step y) :
    Runs (react m c) x (.done step) y := by
  have hne {d : Char} (hd : isBlank d = false) : c ≠ d := fun heq ↦ by simp [← heq, hc] at hd
  refine runs_block.bind ?_
  rw [if_neg (hne (d := '/') rfl), if_neg (hne (d := '#') rfl), if_neg (hne (d := '[') rfl),
    if_neg fun h ↦ hne (d := '<') rfl h.1, if_neg (hne (d := '?') rfl), if_pos hc]
  exact runs_done h

theorem runs_react_letter (hc : endsWord c = false) (h : Runs (letter c) x signal y) :
    Runs (react m c) x signal y := by
  have hne {d : Char} : isSymbol d = true → c ≠ d := ne_of_endsWord hc
  refine runs_block.bind ?_
  rw [if_neg (hne (d := '/') rfl), if_neg (hne (d := '#') rfl), if_neg (hne (d := '[') rfl),
    if_neg fun h ↦ hne (d := '<') rfl h.1, if_neg (hne (d := '?') rfl),
    if_neg (by simp [isBlank_of_endsWord hc]), if_neg (hne (d := '(') rfl),
    if_neg (hne (d := ';') rfl), if_neg fun h ↦ hne (d := '=') rfl h.1,
    if_neg (hne (d := '\x7b') rfl)]
  exact h

theorem endsBlock_of_isBlank (hc : isBlank c = true) : endsBlock c = false := by
  have hne {d : Char} (hd : isBlank d = false) : c ≠ d := fun heq ↦ by simp [← heq, hc] at hd
  simp [endsBlock, hne (d := endMark) rfl, hne (d := '\x7d') rfl]

theorem endsBlock_of_endsWord (hc : endsWord c = false) : endsBlock c = false := by
  have hbrace : c ≠ '\x7d' := ne_of_endsWord hc rfl
  simp_all [endsBlock, endsWord]

end Drafting

namespace Machine

open Drafting

variable {m : RegionMarkers} {fs : List Frame} {t u w : Text} {c : Char} {tree : Tree}
  {block : Block} {y : Sketch}

/-- Blanks between declarations and behind a space leave no trace. -/
theorem passes_blanks (hu : ∀ c ∈ u, isBlank c = true)
    (htext : (block.text.isEmpty || block.text.getLast? == some ' ') = true) :
    Passes m ⟨u ++ t, tree, block⟩ ⟨t, tree, block⟩ := by
  induction u with
  | nil => exact .refl
  | cons c u ih =>
    have hc := hu c (by simp)
    have hblank : Runs blank ⟨u ++ t, tree, block⟩ .more ⟨u ++ t, tree, block⟩ := by
      refine (runs_modifyBlock _).bind ?_
      simp only [htext, if_true]
      exact .pure
    have hadvance := runs_advance (m := m) (endsBlock_of_isBlank hc) (runs_react_blank hc hblank)
    exact (passes_of_done hadvance).trans (ih fun x hx ↦ hu x (by simp [hx]))

theorem leads_blanks (hu : ∀ c ∈ u, isBlank c = true) (htext : block.text = []) :
    Leads m ⟨u ++ t, tree, block⟩ fs ⟨t, tree, block⟩ fs :=
  (passes_blanks hu (by simp [htext])).leads

theorem passes_blank (hc : isBlank c = true) (hne : block.text ≠ [])
    (hlast : ∀ c ∈ block.text.getLast?, isBlank c = false) :
    Passes m ⟨c :: t, tree, block⟩ ⟨t, tree, { block with text := block.text ++ [' '] }⟩ := by
  have hlast' : (block.text.getLast? == some ' ') = false := by
    rw [beq_eq_false_iff_ne]
    intro h
    exact absurd (hlast ' ' h) (by decide)
  have hblank : Runs blank ⟨t, tree, block⟩ .more
      ⟨t, tree, { block with text := block.text ++ [' '] }⟩ := by
    refine (runs_modifyBlock _).bind ?_
    simp only [List.isEmpty_eq_false_iff.mpr hne, hlast', Bool.or_self, Bool.false_eq_true,
      if_false]
    exact .pure
  exact passes_of_done (runs_advance (endsBlock_of_isBlank hc) (runs_react_blank hc hblank))

theorem runs_push (c : Char) : Runs (push c) ⟨t, tree, block⟩ ()
    ⟨t, tree, { block with text := block.text ++ [c] }⟩ := runs_modifyBlock _

theorem passes_letters (hw : ∀ c ∈ w, endsWord c = false) (hnext : endsWord (ahead t) = false) :
    Passes m ⟨w ++ t, tree, block⟩ ⟨t, tree, { block with text := block.text ++ w }⟩ := by
  induction w generalizing block with
  | nil =>
    rw [List.append_nil]
    exact .refl
  | cons c w ih =>
    have hc := hw c (by simp)
    have hahead : endsWord (ahead (w ++ t)) = false := by
      cases w with
      | nil => exact hnext
      | cons d w => exact hw d (by simp)
    have hletter : Runs (letter c) ⟨w ++ t, tree, block⟩ (.done .more)
        ⟨w ++ t, tree, { block with text := block.text ++ [c] }⟩ := by
      refine (runs_push c).bind ((runs_read Reading.yields_peek).bind ?_)
      rw [hahead, if_neg Bool.false_ne_true]
      exact .pure
    refine (passes_of_done (runs_advance (endsBlock_of_endsWord hc)
      (runs_react_letter hc hletter))).trans ?_
    rw [List.append_cons block.text c w]
    exact ih fun x hx ↦ hw x (by simp [hx])

/-- The last character of a word, where the words are looked at. -/
theorem runs_advance_wordEnd {signal : Signal} (hc : endsWord c = false)
    (hnext : endsWord (ahead t) = true)
    (h : Runs wordEnd ⟨t, tree, { block with text := block.text ++ [c] }⟩ signal y) :
    Runs (Drafting.advance m) ⟨c :: t, tree, block⟩ signal y := by
  refine runs_advance (endsBlock_of_endsWord hc) (runs_react_letter hc ?_)
  refine (runs_push c).bind ((runs_read Reading.yields_peek).bind ?_)
  rw [hnext, if_pos rfl]
  exact h

theorem passes_word_init (m : RegionMarkers) (t : Text) (tree : Tree) (block : Block)
    (hw : IsWord w) : ∃ v c, w = v ++ [c] ∧ endsWord c = false ∧
    Passes m ⟨w ++ t, tree, block⟩ ⟨c :: t, tree, { block with text := block.text ++ v }⟩ := by
  obtain ⟨v, c, rfl⟩ : ∃ v c, w = v ++ [c] := ⟨_, _, (List.dropLast_append_getLast hw.1).symm⟩
  have hc := hw.2 c (by simp)
  refine ⟨v, c, rfl, hc, ?_⟩
  rw [List.append_assoc, List.singleton_append]
  exact passes_letters (fun x hx ↦ hw.2 x (by simp [hx])) hc

/-- A word after which more has to be read. -/
theorem passes_word (hw : IsWord w) (hnext : endsWord (ahead t) = true)
    (h : Runs wordEnd ⟨t, tree, { block with text := block.text ++ w }⟩ (.done .more) y) :
    Passes m ⟨w ++ t, tree, block⟩ y := by
  obtain ⟨v, c, rfl, hc, hinit⟩ := passes_word_init m t tree block hw
  refine hinit.trans (passes_of_done (runs_advance_wordEnd hc hnext ?_))
  simpa using h

/-- A word that leads to a step of the block. -/
theorem leads_word {step : Step} (hw : IsWord w) (hnext : endsWord (ahead t) = true)
    (h : Runs wordEnd ⟨t, tree, { block with text := block.text ++ w }⟩ (.done step) y)
    (hstep : step ≠ .finished) : Leads m ⟨w ++ t, tree, block⟩ fs y fs := by
  obtain ⟨v, c, rfl, hc, hinit⟩ := passes_word_init m t tree block hw
  refine hinit.leads.trans (leads_of_done (runs_advance_wordEnd hc hnext ?_) hstep)
  simpa using h

theorem leads_word_opened {owner : ElementId} {ending : Ending} {tree' : Tree} {block' : Block}
    (hw : IsWord w) (hnext : endsWord (ahead t) = true)
    (h : Runs wordEnd ⟨t, tree, { block with text := block.text ++ w }⟩ (.opened owner ending)
      ⟨u, tree', block'⟩) :
    Leads m ⟨w ++ t, tree, block⟩ fs ⟨u, tree', {}⟩ (⟨owner, ending, block'⟩ :: fs) := by
  obtain ⟨v, c, rfl, hc, hinit⟩ := passes_word_init m t tree block hw
  refine hinit.leads.trans (leads_of_opened (runs_advance_wordEnd hc hnext ?_))
  simpa using h

end Machine

end SharpOutline
