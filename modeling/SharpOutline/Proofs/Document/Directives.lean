import SharpOutline.Proofs.Block.Directives
import SharpOutline.Proofs.Tree.Stems

/-!
# Documents of directives

A document may consist of directives only. Whether it can be read is then a matter of nesting:
regions and conditionals share one stack of scopes, further branches replace the scope on top of it,
and nothing but the end of a conditional may follow its last branch. `Nesting` has the well nested
lists of directives as its values, and `Nesting.lines` writes such a value out.

Only well nested directives can be read (`Document.exists_nesting_of_parse`). To see this it is
enough to know what a directive has done to the scopes where it has not failed (`Directive.Done`):
directives that leave no scope open complete the scopes that are open before them (`Completes`).
-/

namespace SharpOutline

open Drafting SharpOutline.Tree

/-! ## Directives and their nesting -/

/-- A text on one line. -/
structure LineText where
  text : Text
  newline : '\n' ∉ text

/-- A directive, with the text after its name. -/
inductive Directive where
  | region (name : LineText)
  | endRegion
  | opening (condition : LineText)
  | further (condition : LineText)
  | last
  | endConditional

namespace Directive

def line : Directive → Text
  | region name => "#region ".toList ++ name.text
  | endRegion => "#endregion".toList
  | opening condition => "#if ".toList ++ condition.text
  | further condition => "#elif ".toList ++ condition.text
  | last => "#else".toList
  | endConditional => "#endif".toList

/-- A document of directives, each on a line of its own. -/
def source (ls : List Directive) : Text := ls.flatMap fun l ↦ l.line ++ ['\n']

end Directive

mutual

/-- Directives that are well nested: any number of regions and conditionals. -/
inductive Nesting where
  | nil
  | region (name : LineText) (inside after : Nesting)
  | conditional (condition : LineText) (inside : Nesting) (next : Branches) (after : Nesting)

/-- The further branches of a conditional, of which only the last may lack a condition. -/
inductive Branches where
  | nil
  | further (condition : LineText) (inside : Nesting) (next : Branches)
  | last (inside : Nesting)

end

mutual

def Nesting.lines : Nesting → List Directive
  | .nil => []
  | .region name inside after => .region name :: (inside.lines ++ .endRegion :: after.lines)
  | .conditional condition inside next after =>
    .opening condition :: (inside.lines ++ (next.lines ++ .endConditional :: after.lines))

def Branches.lines : Branches → List Directive
  | .nil => []
  | .further condition inside next => .further condition :: (inside.lines ++ next.lines)
  | .last inside => .last :: inside.lines

end

/-! ## What directives do -/

/-- What a directive does once its line has been read. -/
def Directive.action : Directive → Drafting Step
  | region name => openRegion (Text.trim name.text) true
  | endRegion => closeRegion
  | opening condition => openConditional (conditionText condition.text)
  | further condition => nextBranch (some (conditionText condition.text)) "elif".toList
  | last => nextBranch none "else".toList
  | endConditional => closeConditional

variable {name : Text} {element : Element} {id : ElementId} {ids : List ElementId} {a : Unit}

theorem Directive.exists_carryOut (l : Directive) : ∃ w v a, l.line = '#' :: (w ++ v) ∧
    IsWord w ∧ w.all isAlphabetic = true ∧ IsArgument v a ∧ carryOut w a = l.action := by
  cases l with
  | region name =>
    exact ⟨"region".toList, ' ' :: name.text, _, rfl, by decide, by decide,
      isArgument_space name.newline, rfl⟩
  | endRegion => exact ⟨"endregion".toList, [], [], rfl, by decide, by decide, isArgument_nil, rfl⟩
  | opening condition =>
    exact ⟨"if".toList, ' ' :: condition.text, _, rfl, by decide, by decide,
      isArgument_space condition.newline, congrArg openConditional (conditionText_trim _)⟩
  | further condition =>
    exact ⟨"elif".toList, ' ' :: condition.text, _, rfl, by decide, by decide,
      isArgument_space condition.newline,
      congrArg (fun c ↦ nextBranch (some c) _) (conditionText_trim _)⟩
  | last => exact ⟨"else".toList, [], [], rfl, by decide, by decide, isArgument_nil, rfl⟩
  | endConditional =>
    exact ⟨"endif".toList, [], [], rfl, by decide, by decide, isArgument_nil, rfl⟩

variable {m : RegionMarkers} {d d' d'' e : Draft} {t u : Tree} {scopes : List Scope}
  {l : Directive} {ls : List Directive} {rest : Text} {step : Step}

theorem isLastResort_iff {x : ElementId} : isLastResort t x = true ↔
    ∃ next, t.element? x = some (.conditionDirective none next) := by
  rw [isLastResort, element?]
  cases t.get? x with
  | none => simp
  | some n =>
    obtain ⟨_, _, _, _, _, element⟩ := n
    cases element with
    | conditionDirective condition next => cases condition <;> simp
    | _ => simp

theorem element?_addChild {p c : ElementId} (h : t.addChild p c = .ok u) (x : ElementId) :
    u.element? x = t.element? x := by
  obtain ⟨-, rfl⟩ | ⟨-, -, rfl⟩ := Edit.cases_of_into (e := .addChild p c) rfl h
  · rfl
  · rw [element?_linked, element?_detached]

/-- The draft has gone on with other scopes: nothing was read, and a branch without a condition is
still without one. -/
structure Draft.Follows (d d' : Draft) (scopes : List Scope) : Prop where
  cursor : d'.cursor = d.cursor
  text : d'.block.text = d.block.text
  scopes : d'.block.scopes = scopes
  isLastResort : ∀ x, isLastResort d.tree x = true → isLastResort d'.tree x = true

theorem Draft.Follows.trans (h : d.Follows d' scopes) {scopes' : List Scope}
    (h' : d'.Follows d'' scopes') : d.Follows d'' scopes' :=
  ⟨h'.cursor.trans h.cursor, h'.text.trans h.text, h'.scopes,
    fun x hx ↦ h'.isLastResort x (h.isLastResort x hx)⟩

theorem follows_create (h : create name element d = .ok id d') : d.Follows d' d.block.scopes ∧
      d'.tree.element? id = some element := by
  cases h
  refine ⟨⟨rfl, rfl, rfl, fun x hx ↦ ?_⟩, by rw [element?_create, if_pos rfl]⟩
  obtain ⟨next, hx⟩ := isLastResort_iff.mp hx
  refine isLastResort_iff.mpr ⟨next, ?_⟩
  rw [element?_create, if_neg, hx]
  rintro rfl
  rw [element?, get?_eq_none_iff.mpr (Nat.le_refl _)] at hx
  simp at hx

theorem follows_of_element? (h : ∀ x, t.element? x = d.tree.element? x) {b : Block}
    (htext : b.text = d.block.text) : d.Follows ⟨d.cursor, t, b⟩ b.scopes := by
  refine ⟨rfl, htext, rfl, fun x hx ↦ ?_⟩
  rw [isLastResort_iff] at hx ⊢
  rwa [h]

theorem follows_attachAll (h : attachAll ids d = .ok a d') :
    d.Follows d' d.block.scopes := by
  obtain ⟨t, ht, rfl⟩ := attachAll_keeps (R := fun t u ↦ ∀ x, u.element? x = t.element? x)
    (fun _ _ ↦ rfl) (fun h h' x ↦ (h' x).trans (h x)) element?_addChild h
  exact follows_of_element? ht rfl

theorem follows_flushComments (h : flushComments d = .ok a d') :
    d.Follows d' d.block.scopes := by
  replace h := of_takeComments_bind h
  have hattach := follows_attachAll h
  exact ⟨hattach.cursor, hattach.text, hattach.scopes, hattach.isLastResort⟩

theorem follows_adoptComments {owner : ElementId} (h : adoptComments owner d = .ok a d') :
    d.Follows d' d.block.scopes := by
  replace h := of_takeComments_bind h
  obtain ⟨t, ht, rfl⟩ := editAll_keeps (R := fun t u ↦ ∀ x, u.element? x = t.element? x)
    (fun _ _ ↦ rfl) (fun h h' x ↦ (h' x).trans (h x)) element?_addChild h
  exact follows_of_element? (d := d) ht rfl

/-- A next branch does not change the condition of the one before it. -/
theorem follows_setOtherwise {branch : ElementId}
    (h : d.tree.setOtherwise id (some branch) = .ok t) :
    d.Follows { d with tree := t } d.block.scopes := by
  refine ⟨rfl, rfl, rfl, fun x hx ↦ ?_⟩
  obtain ⟨-, -, -, rfl⟩ := Tree.eq_of_setOtherwise h
  rw [isLastResort_iff] at hx ⊢
  obtain ⟨next, hx⟩ := hx
  rw [element?_withOtherwise, element?_detached, hx]
  split
  · exact ⟨some branch, rfl⟩
  · exact ⟨next, rfl⟩

theorem follows_closeScope (h : closeScope id d = .ok step d') :
    d.Follows d' d.block.scopes.tail ∧ step ≠ .finished := by
  replace h := of_modifyBlock_bind h
  obtain ⟨⟨⟩, d₂, hattach, h⟩ := bind_eq_ok.mp h
  cases h
  have hattach := follows_attachAll hattach
  exact ⟨⟨hattach.cursor, hattach.text, hattach.scopes, hattach.isLastResort⟩, by simp⟩

/-- What a directive has done to the scopes, where it has not failed. -/
inductive Directive.Done (d d' : Draft) : Directive → Prop
  | region {name : LineText} {id : ElementId}
      (h : d.Follows d' (.region id :: d.block.scopes)) : Done d d' (.region name)
  | endRegion {id : ElementId} {scopes : List Scope}
      (hscopes : d.block.scopes = .region id :: scopes)
      (h : d.Follows d' scopes) : Done d d' .endRegion
  | opening {condition : LineText} {id : ElementId}
      (h : d.Follows d' (.conditional id id :: d.block.scopes)) : Done d d' (.opening condition)
  | further {condition : LineText} {head current branch : ElementId} {scopes : List Scope}
      (hscopes : d.block.scopes = .conditional head current :: scopes)
      (hlast : isLastResort d.tree current = false)
      (h : d.Follows d' (.conditional head branch :: scopes)) : Done d d' (.further condition)
  | last {head current branch : ElementId} {scopes : List Scope}
      (hscopes : d.block.scopes = .conditional head current :: scopes)
      (hlast : isLastResort d.tree current = false)
      (h : d.Follows d' (.conditional head branch :: scopes))
      (hbranch : isLastResort d'.tree branch = true) : Done d d' .last
  | endConditional {head current : ElementId} {scopes : List Scope}
      (hscopes : d.block.scopes = .conditional head current :: scopes)
      (h : d.Follows d' scopes) : Done d d' .endConditional

theorem Directive.Done.follows (h : l.Done d d') : ∃ scopes, d.Follows d' scopes := by
  cases h with
  | region h | opening h => exact ⟨_, h⟩
  | endRegion _ h | endConditional _ h => exact ⟨_, h⟩
  | further _ _ h | last _ _ h => exact ⟨_, h⟩

theorem follows_openScope (scope : ElementId → Scope)
    (h : openScope name element scope d = .ok step d') :
    (∃ id, d.Follows d' (scope id :: d.block.scopes)) ∧ step ≠ .finished := by
  obtain ⟨d₁, hflush, rfl, rfl⟩ := openScope_eq_ok h
  have hflush := follows_flushComments hflush
  have hcreate := hflush.trans (follows_create (rfl : create name element d₁ = _)).1
  refine ⟨⟨d₁.tree.size, hcreate.cursor, hcreate.text, ?_, hcreate.isLastResort⟩, by simp⟩
  exact congrArg (scope _ :: ·) (hcreate.scopes.trans hflush.scopes)

theorem follows_nextBranch {condition : Option Text} {directive : Text}
    (h : nextBranch condition directive d = .ok step d') :
    (∃ head current branch scopes, d.block.scopes = .conditional head current :: scopes ∧
      isLastResort d.tree current = false ∧ d.Follows d' (.conditional head branch :: scopes) ∧
      (condition = none → isLastResort d'.tree branch = true)) ∧ step ≠ .finished := by
  obtain ⟨head, current, scopes, d₁, t, hscopes, hlast, hadopt, ht, rfl, rfl⟩ :=
    nextBranch_eq_ok h
  have hadopt := follows_adoptComments hadopt
  obtain ⟨hcreate, hbranch⟩ := follows_create
    (rfl : create (condition.getD []) (.conditionDirective condition none) d₁ = _)
  have hset := follows_setOtherwise (d := ⟨d₁.cursor, _, d₁.block⟩) ht
  have hall := (hadopt.trans hcreate).trans hset
  have htail : d₁.block.scopes.tail = scopes := by
    rw [hadopt.scopes, hscopes, List.tail_cons]
  refine ⟨⟨head, current, _, scopes, hscopes, hlast,
    ⟨hall.cursor, hall.text, congrArg (_ :: ·) htail, hall.isLastResort⟩, ?_⟩, by simp⟩
  rintro rfl
  exact hset.isLastResort _ (isLastResort_iff.mpr ⟨none, hbranch⟩)

theorem Directive.done_of_action (h : l.action d = .ok step d') :
    l.Done d d' ∧ step ≠ .finished := by
  cases l with
  | region name =>
    obtain ⟨⟨id, hid⟩, hstep⟩ := follows_openScope .region h
    exact ⟨.region hid, hstep⟩
  | endRegion =>
    obtain ⟨id, scopes, hscopes, h⟩ := closeRegion_eq_ok h
    obtain ⟨⟨⟩, d₃, hadopt, h⟩ := bind_eq_ok.mp h
    obtain ⟨hclose, hstep⟩ := follows_closeScope h
    have hadopt := follows_adoptComments hadopt
    rw [hadopt.scopes, hscopes] at hclose
    exact ⟨.endRegion hscopes (hadopt.trans hclose), hstep⟩
  | opening condition =>
    obtain ⟨⟨id, hid⟩, hstep⟩ := follows_openScope (fun id ↦ .conditional id id) h
    exact ⟨.opening hid, hstep⟩
  | further condition =>
    obtain ⟨⟨head, current, branch, scopes, hscopes, hlast, hd, -⟩, hstep⟩ := follows_nextBranch h
    exact ⟨.further hscopes hlast hd, hstep⟩
  | last =>
    obtain ⟨⟨head, current, branch, scopes, hscopes, hlast, hd, hb⟩, hstep⟩ := follows_nextBranch h
    exact ⟨.last hscopes hlast hd (hb rfl), hstep⟩
  | endConditional =>
    obtain ⟨head, current, scopes, hscopes, h⟩ := innermost_eq_ok h
    obtain ⟨⟨⟩, d₃, hadopt, h⟩ := bind_eq_ok.mp h
    obtain ⟨hclose, hstep⟩ := follows_closeScope h
    have hadopt := follows_adoptComments hadopt
    rw [hadopt.scopes, hscopes] at hclose
    exact ⟨.endConditional hscopes (hadopt.trans hclose), hstep⟩

/-! ## Only what is well nested can be read -/

/-- The directives complete the open scopes: each scope is closed after what is well nested in it,
and nothing but well nested directives follow the outermost one. -/
def Completes (t : Tree) : List Scope → List Directive → Prop
  | [], ls => ∃ inside : Nesting, ls = inside.lines
  | .region _ :: scopes, ls => ∃ (inside : Nesting) (rest : List Directive),
      ls = inside.lines ++ .endRegion :: rest ∧ Completes t scopes rest
  | .conditional _ current :: scopes, ls =>
    ∃ (inside : Nesting) (next : Branches) (rest : List Directive),
      ls = inside.lines ++ (next.lines ++ .endConditional :: rest) ∧
        (isLastResort t current = true → next = .nil) ∧ Completes t scopes rest

theorem Completes.mono (h : ∀ x, isLastResort t x = true → isLastResort u x = true)
    (hu : Completes u scopes ls) : Completes t scopes ls := by
  induction scopes generalizing ls with
  | nil => exact hu
  | cons scope scopes ih =>
    cases scope with
    | region id =>
      obtain ⟨inside, rest, rfl, hrest⟩ := hu
      exact ⟨inside, rest, rfl, ih hrest⟩
    | conditional head current =>
      obtain ⟨inside, next, rest, rfl, hlast, hrest⟩ := hu
      exact ⟨inside, next, rest, rfl, fun hx ↦ hlast (h current hx), ih hrest⟩

/-- What may stand before well nested directives may stand before those that complete scopes. -/
theorem Completes.prepend (ls' : List Directive) (f : Nesting → Nesting)
    (hf : ∀ after, (f after).lines = ls' ++ after.lines) (h : Completes t scopes ls) :
    Completes t scopes (ls' ++ ls) := by
  cases scopes with
  | nil =>
    obtain ⟨inside, rfl⟩ := h
    exact ⟨f inside, (hf inside).symm⟩
  | cons scope scopes =>
    cases scope with
    | region id =>
      obtain ⟨inside, rest, rfl, hrest⟩ := h
      exact ⟨f inside, rest, by rw [hf, List.append_assoc], hrest⟩
    | conditional head current =>
      obtain ⟨inside, next, rest, rfl, hlast, hrest⟩ := h
      exact ⟨f inside, next, rest, by rw [hf, List.append_assoc], hlast, hrest⟩

/-- **One directive.** What completes the scopes after a directive completes those before it
together with the directive. -/
theorem Directive.Done.completes (h : l.Done d d') (hd' : Completes d'.tree d'.block.scopes ls) :
    Completes d.tree d.block.scopes (l :: ls) := by
  cases h with
  | @region name id h =>
    rw [h.scopes] at hd'
    obtain ⟨inside, rest, rfl, hrest⟩ := hd'
    have hafter := (hrest.mono h.isLastResort).prepend
      (.region name :: (inside.lines ++ [.endRegion])) (.region name inside)
      fun after ↦ by simp [Nesting.lines]
    simpa using hafter
  | endRegion hscopes h =>
    rw [h.scopes] at hd'
    rw [hscopes]
    exact ⟨.nil, ls, rfl, hd'.mono h.isLastResort⟩
  | @opening condition id h =>
    rw [h.scopes] at hd'
    obtain ⟨inside, next, rest, rfl, -, hrest⟩ := hd'
    have hafter := (hrest.mono h.isLastResort).prepend
      (.opening condition :: (inside.lines ++ (next.lines ++ [.endConditional])))
      (.conditional condition inside next) fun after ↦ by simp [Nesting.lines]
    simpa using hafter
  | @further condition head current branch scopes hscopes hlast h =>
    rw [h.scopes] at hd'
    obtain ⟨inside, next, rest, rfl, -, hrest⟩ := hd'
    rw [hscopes]
    refine ⟨.nil, .further condition inside next, rest, ?_, ?_, hrest.mono h.isLastResort⟩
    · simp [Nesting.lines, Branches.lines]
    · simp [hlast]
  | last hscopes hlast h hbranch =>
    rw [h.scopes] at hd'
    obtain ⟨inside, next, rest, rfl, hnext, hrest⟩ := hd'
    rw [hnext hbranch, hscopes]
    refine ⟨.nil, .last inside, rest, ?_, ?_, hrest.mono h.isLastResort⟩
    · simp [Nesting.lines, Branches.lines]
    · simp [hlast]
  | endConditional hscopes h =>
    rw [h.scopes] at hd'
    rw [hscopes]
    exact ⟨.nil, .nil, ls, rfl, fun _ ↦ rfl, hd'.mono h.isLastResort⟩

/-- A run that begins with a directive goes on after the directive was carried out. -/
theorem Machine.run_directive (hrest : d.cursor.rest = l.line ++ '\n' :: rest)
    (htext : d.block.text = []) (hrun : run m ⟨d, []⟩ = .ok () e) :
    ∃ c d', c.rest = rest ∧ l.Done { d with cursor := c } d' ∧ run m ⟨d', []⟩ = .ok () e := by
  obtain ⟨w, v, a, hline, hw, hletters, hv, haction⟩ := l.exists_carryOut
  have hcursor : d.cursor.advance.rest = w ++ v ++ '\n' :: rest := by
    rw [Cursor.rest_advance, hrest, hline]
    rfl
  obtain ⟨c, hc, hdirective⟩ :=
    directive_eq (d := { d with cursor := d.cursor.advance }) hw hletters hv htext hcursor
  rw [haction] at hdirective
  have hpeek : d.cursor.peek = '#' := by rw [Cursor.peek, hrest, hline]; rfl
  have hadvance : Drafting.advance m d = Drafting.done directive
      { d with cursor := d.cursor.advance } := by
    rw [Drafting.advance, hpeek, if_neg (by decide)]
    rfl
  obtain ⟨step, s', hmoves, -, hnext⟩ := run_eq_ok hrun
  have hdone {signal : Signal} {d' : Draft} (h : Drafting.advance m d = .ok signal d') :
      ∃ step, signal = .done step ∧ l.Done { d with cursor := c } d' ∧ step ≠ .finished := by
    rw [hadvance] at h
    obtain ⟨step, hstep, rfl⟩ := done_eq_ok.mp h
    exact ⟨step, rfl, Directive.done_of_action (hdirective ▸ hstep)⟩
  cases hmoves with
  | opened h =>
    obtain ⟨_, hsignal, -⟩ := hdone h
    cases hsignal
  | ended h =>
    obtain ⟨step, hsignal, -, hstep⟩ := hdone h
    exact absurd (Signal.done.inj hsignal).symm hstep
  | left h hframes => cases hframes
  | @stepped d' step h hstep =>
    obtain ⟨_, -, hdone, -⟩ := hdone h
    exact ⟨c, d', hc, hdone, hnext hstep⟩

/-- **A run of directives.** Where a block ends properly after directives, these complete the scopes
that were open before them. -/
theorem completes_of_run {d₁ d₂ : Draft} (hrest : d.cursor.rest = Directive.source ls)
    (htext : d.block.text = []) (hrun : Machine.run m ⟨d, []⟩ = .ok () d₁)
    (hfinish : finishBlock d₁ = .ok ids d₂) :
    Completes d.tree d.block.scopes ls := by
  induction ls generalizing d with
  | nil =>
    have hend : Machine.run m ⟨d, []⟩ = .ok () d :=
      Machine.run_of_end (by rw [Cursor.peek, hrest]; rfl)
    obtain rfl := (EStateM.Result.ok.inj (hrun.symm.trans hend)).2
    rw [(finishBlock_eq_ok hfinish).2.1]
    exact ⟨.nil, rfl⟩
  | cons l ls ih =>
    have hline : d.cursor.rest = l.line ++ '\n' :: Directive.source ls := by
      rw [hrest, Directive.source, List.flatMap_cons, List.append_assoc]
      rfl
    obtain ⟨c, d', hc, hdone, hrun⟩ := Machine.run_directive hline htext hrun
    obtain ⟨scopes, hfollows⟩ := hdone.follows
    have hcompletes := ih (by rw [hfollows.cursor, hc]) (by rw [hfollows.text]; exact htext) hrun
    exact hdone.completes hcompletes

/-- Directives that can be read are well nested. -/
theorem Document.exists_nesting_of_parse (h : parse m (Directive.source ls) = .ok t) :
    ∃ n : Nesting, n.lines = ls := by
  obtain ⟨d, ids, e, hrun, hfinish, -⟩ := parse_eq_ok_iff.mp h
  obtain ⟨n, hn⟩ := completes_of_run (d := start (Directive.source ls)) rfl rfl hrun hfinish
  exact ⟨n, hn.symm⟩

end SharpOutline
