import SharpOutline.Proofs.Block.Placing

/-!
# Reading directives

What the machine makes of a line with a directive. Such a line is read whole, its end included, and
opens or closes a scope: a region or a conditional. What is read inside a scope hangs from the
element of the scope, or from the current branch; the element itself is placed when its scope is
closed.
-/

namespace SharpOutline

open Drafting SharpOutline.Tree Machine

/-- The text stands on one line, with no blanks around it. -/
def isLineText (t : Text) : Bool := Text.trim t == t && !t.contains '\n'

/-- The text may be a condition: it stands on one line, and no part of it reads as a comment. -/
def isCondition (t : Text) : Bool := isLineText t && !Text.includes "//".toList t

variable {c : Char} {elements : List ElementId}

theorem isLineText_of_isCondition {t : Text} (h : isCondition t = true) : isLineText t = true := by
  rw [isCondition, Bool.and_eq_true] at h
  exact h.1

theorem trim_of_isLineText {t : Text} (h : isLineText t = true) : Text.trim t = t := by
  rw [isLineText, Bool.and_eq_true] at h
  exact eq_of_beq h.1

theorem before_of_includes_eq_false {mark t : Text} (h : Text.includes mark t = false) :
    Text.before mark t = t := by
  induction t with
  | nil => rfl
  | cons c cs ih =>
    rw [Text.includes, Bool.or_eq_false_iff] at h
    rw [Text.before, if_neg (Bool.eq_false_iff.mp h.1), ih h.2]

theorem conditionText_of_isCondition {t : Text} (h : isCondition t = true) :
    conditionText t = t := by
  have htrim := trim_of_isLineText (isLineText_of_isCondition h)
  rw [isCondition, Bool.and_eq_true, Bool.not_eq_true'] at h
  rw [conditionText, before_of_includes_eq_false h.2, htrim]

theorem conditionText_cons (hc : isBlank c = true) (t : Text) :
    conditionText (c :: t) = conditionText t := by
  have hslash : c ≠ '/' := by
    rintro rfl
    exact absurd hc (by decide)
  rw [conditionText, Text.before, if_neg (by simp [hslash.symm]), Text.trim_cons hc, conditionText]

/-- A character other than a slash after a text belongs to the part before two slashes only if
there are none. -/
theorem before_append_singleton (hc : c ≠ '/') (t : Text) :
    Text.before "//".toList (t ++ [c]) = Text.before "//".toList t ∨
      Text.before "//".toList (t ++ [c]) = Text.before "//".toList t ++ [c] := by
  induction t with
  | nil => exact .inr (by simp [Text.before])
  | cons x t ih =>
    have hslashes : "//".toList.isPrefixOf (x :: t ++ [c]) = "//".toList.isPrefixOf (x :: t) := by
      cases t with
      | nil => simp [List.isPrefixOf, hc.symm]
      | cons y t => simp [List.isPrefixOf]
    rw [List.cons_append, Text.before, ← List.cons_append, hslashes, Text.before]
    split
    · exact .inl rfl
    · exact ih.imp (congrArg (x :: ·)) (congrArg (x :: ·))

theorem conditionText_append_singleton (hc : isBlank c = true) (t : Text) :
    conditionText (t ++ [c]) = conditionText t := by
  have hslash : c ≠ '/' := by
    rintro rfl
    exact absurd hc (by decide)
  rw [conditionText, conditionText]
  rcases before_append_singleton hslash t with h | h
  · rw [h]
  · rw [h, Text.trim_append_singleton hc]

theorem conditionText_trim (t : Text) : conditionText (Text.trim t) = conditionText t := by
  have hstart (u : Text) : conditionText (Text.trimStart u) = conditionText u := by
    induction u with
    | nil => rfl
    | cons c u ih =>
      by_cases hc : isBlank c = true
      · rw [Text.trimStart, List.dropWhile_cons_of_pos hc, ← Text.trimStart, ih,
          conditionText_cons hc]
      · rw [Text.trimStart, List.dropWhile_cons_of_neg hc]
  have hend (v u : Text) (hv : ∀ c ∈ v, isBlank c = true) :
      conditionText (u ++ v) = conditionText u := by
    induction v generalizing u with
    | nil => rw [List.append_nil]
    | cons c v ih =>
      rw [List.append_cons, ih _ fun x hx ↦ hv x (List.mem_cons_of_mem _ hx),
        conditionText_append_singleton (hv c List.mem_cons_self)]
  obtain ⟨v, ht, hv⟩ := Text.exists_eq_trimEnd_append t
  rw [Text.trim, hstart, ← hend v _ hv, ← ht]

variable {m : RegionMarkers} {fs : List Frame} {t u v : Tree} {scopes : List Scope}
  {rest w a : Text} {step : Step} {y : Sketch} {name : Text}

/-! ## Lines -/

/-- What may follow the name of a directive on its line. -/
structure IsArgument (v a : Text) : Prop where
  trim : Text.trim v = a
  letter : isAlphabetic (ahead v) = false
  newline : '\n' ∉ v

theorem isArgument_nil : IsArgument [] [] := ⟨rfl, by decide, by simp⟩

theorem isArgument_space (h : '\n' ∉ a) : IsArgument (' ' :: a) (Text.trim a) :=
  ⟨Text.trim_cons (by decide) a, by rw [ahead_cons]; decide, by simpa using h⟩

theorem isArgument_cons (ha : isLineText a = true) : IsArgument (' ' :: a) a := by
  have htrim := trim_of_isLineText ha
  rw [isLineText, Bool.and_eq_true, Bool.not_eq_true', List.contains_eq_mem,
    decide_eq_false_iff_not] at ha
  have hspace := isArgument_space ha.2
  rwa [htrim] at hspace

theorem isArgument_append_return {v : Text} : IsArgument (v ++ ['\r']) a ↔ IsArgument v a := by
  have htrim : Text.trim (v ++ ['\r']) = Text.trim v := Text.trim_append_singleton (by decide) v
  have hletter : isAlphabetic (ahead (v ++ ['\r'])) = isAlphabetic (ahead v) := by
    cases v with
    | nil => decide
    | cons c cs => rfl
  constructor
  · rintro ⟨ha, hv, hnewline⟩
    exact ⟨htrim ▸ ha, hletter ▸ hv, by simpa using hnewline⟩
  · rintro ⟨ha, hv, hnewline⟩
    exact ⟨htrim ▸ ha, hletter ▸ hv, by simpa using hnewline⟩

theorem IsArgument.dropReturn {v : Text} (h : IsArgument v a) :
    IsArgument (Text.dropReturn v) a := by
  rw [Text.dropReturn]
  split
  · rename_i hlast
    obtain ⟨u, rfl⟩ := List.getLast?_eq_some_iff.mp hlast
    rw [List.dropLast_concat]
    exact isArgument_append_return.mp h
  · exact h

theorem yields_line_of_lineEnding (e : LineEnding) {l : Text} (hnewline : '\n' ∉ l)
    (hreturn : l.getLast? ≠ some '\r') : Reading.line.Yields (l ++ (e.text ++ rest)) l rest := by
  cases e with
  | newline =>
    have hline := Reading.yields_line (t := rest) hnewline
    rwa [Text.dropReturn, if_neg hreturn] at hline
  | returnNewline =>
    have hline := Reading.yields_line (t := rest) (l := l ++ ['\r']) (by simpa using hnewline)
    rw [Text.dropReturn, if_pos (by simp), List.dropLast_concat] at hline
    simpa [LineEnding.text] using hline

/-- The line of a directive is read whole, and the directive is carried out. -/
theorem directive_eq {d : Draft} {v : Text} (hw : IsWord w) (hletters : w.all isAlphabetic = true)
    (hv : IsArgument v a) (htext : d.block.text = [])
    (hrest : d.cursor.rest = w ++ v ++ '\n' :: rest) :
    ∃ c, c.rest = rest ∧ directive d = carryOut w a { d with cursor := c } := by
  have hnewline : '\n' ∉ w ++ v := by
    have hw : '\n' ∉ w := fun hmem ↦ absurd (hw.2 _ hmem) (by decide)
    simpa [hw] using hv.newline
  obtain ⟨c, hline, hc⟩ := Reading.yields_line hnewline d.cursor hrest
  have hreturn : Text.dropReturn (w ++ v) = w ++ Text.dropReturn v := by
    rw [Text.dropReturn, Text.dropReturn, List.getLast?_append]
    cases hlast : v.getLast? with
    | none =>
      obtain rfl := List.getLast?_eq_none_iff.mp hlast
      have hw : w.getLast? ≠ some '\r' :=
        fun h ↦ absurd (hw.2 _ (List.mem_of_getLast? h)) (by decide)
      simp [hw]
    | some x =>
      have hv : v ≠ [] := by
        rintro rfl
        simp at hlast
      rw [Option.some_or]
      split
      · rw [List.dropLast_append_of_ne_nil hv]
      · rfl
  have hv := hv.dropReturn
  rw [hreturn] at hline
  generalize Text.dropReturn v = v at hv hline
  have hstart : Text.trimStart (w ++ v) = w ++ v := by
    obtain ⟨x, w, rfl⟩ := List.exists_cons_of_ne_nil hw.1
    exact Text.trimStart_eq_self (by simpa using hw.isBlank_eq_false (List.mem_cons_self))
  have hstop : v.takeWhile isAlphabetic = [] ∧ v.dropWhile isAlphabetic = v := by
    cases v with
    | nil => exact ⟨rfl, rfl⟩
    | cons x v =>
      have hx : ¬isAlphabetic x = true := by simpa using hv.letter
      exact ⟨List.takeWhile_cons_of_neg hx, List.dropWhile_cons_of_neg hx⟩
  have hletters := List.all_eq_true.mp hletters
  have hname : (Text.trimStart (w ++ v)).takeWhile isAlphabetic = w := by
    rw [hstart, List.takeWhile_append_of_pos hletters, hstop.1, List.append_nil]
  have hargument : Text.trim ((Text.trimStart (w ++ v)).dropWhile isAlphabetic) = a := by
    rw [hstart, List.dropWhile_append_of_pos hletters, hstop.2, hv.trim]
  have hread : Drafting.read Reading.line d = .ok (w ++ v) { d with cursor := c } := by
    rw [Drafting.read, hline]
  refine ⟨c, hc, ?_⟩
  have hdirective : directive d = (if !(Text.trim d.block.text).isEmpty then
      throw (.directiveInsideElement w (Text.trim d.block.text)) else carryOut w a)
      { d with cursor := c } := by
    simp only [directive, Bind.bind, EStateM.bind, hread, hname, hargument]
    rfl
  rw [hdirective, htext, if_neg (by decide)]

theorem runs_directive (e : LineEnding) {comments : List ElementId} {v : Text} (hw : IsWord w)
    (hletters : w.all isAlphabetic = true) (hv : IsArgument v a)
    (h : Runs (carryOut w a) ⟨rest, t, { comments, scopes, elements }⟩ step y) :
    Runs directive ⟨w ++ v ++ (e.text ++ rest), t, { comments, scopes, elements }⟩ step y := by
  obtain ⟨u, hu, hv⟩ : ∃ u, v ++ e.text = u ++ ['\n'] ∧ IsArgument u a := by
    cases e with
    | newline => exact ⟨v, rfl, hv⟩
    | returnNewline =>
      exact ⟨v ++ ['\r'], by simp [LineEnding.text], isArgument_append_return.mpr hv⟩
  rintro d hd
  have hrest : d.cursor.rest = w ++ u ++ '\n' :: rest := by
    have hrest : d.cursor.rest = w ++ v ++ (e.text ++ rest) := congrArg Sketch.rest hd
    rw [hrest, List.append_assoc, ← List.append_assoc v, hu]
    simp
  have hblock : d.block = { comments, scopes, elements } := congrArg Sketch.block hd
  obtain ⟨c, hc, hdirective⟩ := directive_eq hw hletters hv (by rw [hblock]) hrest
  have htree : d.tree = t := congrArg Sketch.tree hd
  obtain ⟨d', hcarry, hd'⟩ := h { d with cursor := c } (by rw [← hc, ← hblock, ← htree]; rfl)
  exact ⟨d', by rw [hdirective, hcarry], hd'⟩

/-- A line with a directive leads to what the directive does. -/
theorem leads_directive (e : LineEnding) {comments : List ElementId} {v : Text} (hw : IsWord w)
    (hletters : w.all isAlphabetic = true) (hv : IsArgument v a)
    (h : Runs (carryOut w a) ⟨rest, t, { comments, scopes, elements }⟩ step y)
    (hstep : step ≠ .finished) :
    Leads m ⟨'#' :: (w ++ v) ++ (e.text ++ rest), t, { comments, scopes, elements }⟩ fs y fs :=
  leads_of_done (runs_advance rfl (runs_react_directive (runs_directive e hw hletters hv h))) hstep

/-! ## Regions -/

section Region

variable {base inner : Tree} {comments : List Nat} {waiting : List Outline} {ids : List Nat}
  {os : List Outline}

variable {s : Scope} {e : Element}

/-- The waiting comments become the last children of the innermost scope. -/
theorem runs_adoptComments (rest : Text) (elements : List ElementId)
    (h : Between base t (s :: scopes) comments waiting) :
    ∃ v, Runs (adoptComments s.owner) ⟨rest, t, { comments, scopes := s :: scopes, elements }⟩ ()
        ⟨rest, v, { scopes := s :: scopes, elements }⟩ ∧
      Sprouts base v (some s.owner) comments waiting := by
  obtain ⟨hlt, hparent⟩ := h.isOpen s.owner rfl
  obtain ⟨hadd, hv⟩ := h.sprouts.adopt hlt hparent
  exact ⟨_, (runs_takeComments rest t comments [] elements).bind (runs_editAll hadd), hv⟩

theorem isOpen_create (hs : s.owner = t.size) :
    IsOpen (t.create name e) (s :: scopes) := by
  intro p hp
  obtain rfl : s.owner = p := by simpa [ownerOf] using hp
  have hget : (t.create name e).get? t.size = some { name := name, element := e } := by
    rw [get?_create, if_pos rfl]
  rw [hs]
  exact ⟨lt_of_get? hget, parent?_of_get? hget⟩

/-- The line of a region with a name that has no blanks around it. -/
theorem exists_isArgument_region (hname : isLineText name = true) :
    ∃ v, Text.trimEnd ("#region ".toList ++ name) = "#region".toList ++ v ∧ IsArgument v name := by
  cases name with
  | nil => exact ⟨[], rfl, isArgument_nil⟩
  | cons c cs =>
    refine ⟨' ' :: c :: cs, Text.trimEnd_eq_self ?_, isArgument_cons hname⟩
    rw [List.getLast?_append_of_ne_nil _ (List.cons_ne_nil c cs)]
    exact Text.isBlank_getLast?_of_trim_eq_self (trim_of_isLineText hname)

/-- The line that opens a scope for a new element, before which the waiting comments are placed. -/
theorem leads_openScope (m : RegionMarkers) (fs : List Frame) (ending : LineEnding) (rest : Text)
    (elements : List ElementId) (directive : Text) {argument : Text} {scope : ElementId → Scope}
    (hw : IsWord directive) (hletters : directive.all isAlphabetic = true)
    (hargument : IsArgument w argument)
    (hcarry : carryOut directive argument = openScope name e scope)
    (h : Between base t scopes comments waiting) :
    ∃ v, Leads m ⟨'#' :: (directive ++ w) ++ (ending.text ++ rest), t,
        { comments, scopes, elements }⟩ fs ⟨rest, v.create name e,
          { scopes := scope v.size :: scopes, elements := gathered scopes elements comments }⟩ fs ∧
      Sprouts base v (ownerOf scopes) comments waiting := by
  obtain ⟨v, hflush, hv⟩ := runs_flushComments rest elements h
  refine ⟨v, leads_directive ending hw hletters hargument ?_ (by simp : Step.more ≠ .finished), hv⟩
  rw [hcarry]
  refine (runs_checkNoAttributes rest comments elements).bind (hflush.bind ?_)
  exact (runs_create name e).bind ((runs_modifyBlock _).bind .pure)

/-- The line that closes a scope. Its element, which with the waiting comments looks like the
outline, is placed. -/
theorem leads_closeScope (m : RegionMarkers) (fs : List Frame) (ending : LineEnding) (rest : Text)
    (elements : List ElementId) (directive : Text) {s : Scope} {head : Nat} {o : Outline}
    (hw : IsWord directive) (hletters : directive.all isAlphabetic = true)
    (hopen : IsOpen base scopes) (h : Between inner t (s :: scopes) comments waiting)
    (hcarry : ∀ {y}, Runs (adoptComments s.owner >>= fun _ ↦ closeScope head)
        ⟨rest, t, { comments, scopes := s :: scopes, elements }⟩ (.produced 1) y →
      Runs (carryOut directive []) ⟨rest, t, { comments, scopes := s :: scopes, elements }⟩
        (.produced 1) y)
    (hnode : ∀ v, Sprouts inner v (some s.owner) comments waiting →
      Sprouts base v none [head] [o]) :
    ∃ v, Leads m ⟨'#' :: directive ++ (ending.text ++ rest), t,
        { comments, scopes := s :: scopes, elements }⟩ fs
        ⟨rest, v, { scopes, elements := gathered scopes elements [head] }⟩ fs ∧
      Sprouts base v (ownerOf scopes) [head] [o] := by
  obtain ⟨w, hadopt, hv⟩ := runs_adoptComments rest elements h
  obtain ⟨v, hemit, hv⟩ := runs_emit rest elements (hnode w hv) hopen
  have hclose := hcarry (hadopt.bind ((runs_modifyBlock _).bind hemit))
  rw [← List.append_nil directive, ← List.cons_append]
  exact ⟨v, leads_directive ending hw hletters isArgument_nil (by simpa using hclose) (by simp), hv⟩

end Region

/-! ## Conditionals -/

section Conditional

variable {base inner : Tree} {comments : List Nat} {waiting : List Outline}

variable {id current : Nat} {condition : Option Text} {l : Text} {head : ElementId}

theorem runs_innermostConditional (rest : Text) (t : Tree) (comments elements : List ElementId)
    (directive : Text) (head current : ElementId) :
    Runs (innermostConditional directive)
      ⟨rest, t, { comments, scopes := .conditional head current :: scopes, elements }⟩
      (head, current)
      ⟨rest, t, { comments, scopes := .conditional head current :: scopes, elements }⟩ :=
  runs_block.bind .pure

/-- The element is a branch with a condition, so that another branch may follow it. -/
def HasCondition (t : Tree) (id : Nat) : Prop :=
  ∃ n condition next, t.get? id = some n ∧ n.element = .conditionDirective (some condition) next

theorem HasCondition.lt (h : HasCondition t id) : id < t.size := by
  obtain ⟨n, -, -, hn, -⟩ := h
  exact lt_of_get? hn

theorem HasCondition.sprouts {owner : Option Nat} {ids : List Nat} {os : List Outline}
    (h : HasCondition t id) (h' : Sprouts t u owner ids os) : HasCondition u id := by
  have hlt := h.lt
  obtain ⟨n, condition, next, hn, he⟩ := h
  refine ⟨gaining owner ids id n, condition, next, by rw [h'.get?_old id hlt, hn]; rfl, ?_⟩
  rw [gaining]
  split <;> exact he

theorem hasCondition_create :
    HasCondition (t.create name (.conditionDirective (some a) none)) t.size :=
  ⟨_, a, none, by rw [get?_create, if_pos rfl], rfl⟩

theorem hasCondition_branched (hcurrent : current < t.size) :
    HasCondition (t.branched current name (some a)) t.size :=
  ⟨_, a, none, get?_branched_size name _ hcurrent, rfl⟩

/-- The scope of a conditional is open for its new branch. -/
theorem isOpen_branched (hcurrent : current < t.size) (head : ElementId) :
    IsOpen (t.branched current name condition) (.conditional head t.size :: scopes) := by
  intro p hp
  obtain rfl : t.size = p := by simpa [ownerOf, Scope.owner] using hp
  have hget := get?_branched_size name condition hcurrent
  exact ⟨lt_of_get? hget, parent?_of_get? hget⟩

/-- The text is the line of a further branch with this condition. -/
inductive IsBranchLine : Text → Option Text → Prop
  | some {w name a : Text} (hname : IsArgument w name) (ha : conditionText name = a) :
      IsBranchLine ("#elif".toList ++ w) (some a)
  | none : IsBranchLine "#else".toList none

theorem IsBranchLine.ne_nil (h : IsBranchLine l condition) :
    l ≠ [] := by
  cases h with
  | some => exact List.cons_ne_nil _ _
  | none => exact List.cons_ne_nil _ _

/-- The line of a further branch whose condition has no blanks around it. -/
theorem isBranchLine_of_isCondition (ha : isCondition a = true) :
    IsBranchLine ("#elif ".toList ++ a) (some a) :=
  .some (isArgument_cons (isLineText_of_isCondition ha)) (conditionText_of_isCondition ha)

/-- The current branch ends with the waiting comments, and the next one begins. -/
theorem runs_nextBranch (rest directive : Text) (elements : List ElementId)
    (condition : Option Text)
    (h : Between inner t (.conditional head current :: scopes) comments waiting)
    (hcurrent : HasCondition inner current) :
    ∃ v, Runs (nextBranch condition directive)
        ⟨rest, t, { comments, scopes := .conditional head current :: scopes, elements }⟩ .more
        ⟨rest, v.branched current (condition.getD []) condition,
          { scopes := .conditional head v.size :: scopes, elements }⟩ ∧
      Sprouts inner v (some current) comments waiting := by
  obtain ⟨v, hadopt, hv⟩ := runs_adoptComments rest elements h
  -- only a branch without a condition must be the last one
  have hlast : isLastResort t current = false := by
    obtain ⟨n, c, next, hn, hc⟩ := hcurrent.sprouts h.sprouts
    obtain ⟨⟩ := n
    obtain rfl := hc
    rw [isLastResort, hn]
  have hkind : v.kind? current = some .conditionDirective := by
    obtain ⟨n, c, next, hn, hc⟩ := hcurrent.sprouts hv
    rw [kind?_of_get? hn, Node.kind, hc]
    rfl
  refine ⟨v, ?_, hv⟩
  refine (runs_checkNoAttributes rest comments elements).bind ?_
  refine (runs_innermostConditional rest t comments elements directive head current).bind ?_
  refine Runs.get_bind fun d hd ↦ ?_
  obtain rfl : d.tree = t := congrArg Sketch.tree hd
  rw [if_neg (by simp [hlast])]
  refine hadopt.bind ?_
  refine (runs_create (condition.getD []) (.conditionDirective condition none)).bind ?_
  exact (runs_edit (setOtherwise_create hv.roots hkind)).bind ((runs_modifyBlock _).bind .pure)

theorem leads_nextBranch (m : RegionMarkers) (fs : List Frame) (e : LineEnding) (rest : Text)
    (elements : List ElementId) (hl : IsBranchLine l condition)
    (h : Between inner t (.conditional head current :: scopes) comments waiting)
    (hcurrent : HasCondition inner current) :
    ∃ v, Leads m ⟨l ++ (e.text ++ rest), t,
        { comments, scopes := .conditional head current :: scopes, elements }⟩ fs
        ⟨rest, v.branched current (condition.getD []) condition,
          { scopes := .conditional head v.size :: scopes, elements }⟩ fs ∧
      Sprouts inner v (some current) comments waiting := by
  cases hl with
  | none =>
    obtain ⟨v, hnext, hv⟩ := runs_nextBranch rest "else".toList elements none h hcurrent
    exact ⟨v, leads_directive (w := "else".toList) e (by decide) (by decide) isArgument_nil hnext
      (by simp), hv⟩
  | @some w name a hname ha =>
    have hcarry : carryOut "elif".toList name = nextBranch (some a) "elif".toList :=
      congrArg (fun c ↦ nextBranch (some c) "elif".toList) ha
    obtain ⟨v, hnext, hv⟩ := runs_nextBranch rest "elif".toList elements (some a) h hcurrent
    exact ⟨v, leads_directive (w := "elif".toList) e (by decide) (by decide) hname
      (hcarry ▸ hnext) (by simp), hv⟩

end Conditional

end SharpOutline
