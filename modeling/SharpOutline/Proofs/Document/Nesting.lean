import SharpOutline.Proofs.Document.Directives
import SharpOutline.Proofs.Layout.Skeleton

/-!
# The trees of directives

Well nested directives can be read, and the tree mirrors their nesting: a region is an element with
the trimmed name, and a conditional is the chain of its branches. That they can be read is put
together from the lines that build a region and those that build a conditional; how the elements of
the tree look then says what they are. Together with the other direction this shows that exactly the
well nested documents of directives are accepted (`Document.parse_directives`).
-/

namespace SharpOutline

open Drafting SharpOutline.Tree Line
open Outline hiding id

variable {t : Tree}

/-! ## What is well nested builds a tree -/

mutual

/-- How the elements of well nested directives look. -/
def Nesting.outlines : Nesting → List Outline
  | .nil => []
  | .region name inside after =>
    .node 0 (Text.trim name.text) (.region true) [] [] inside.outlines none :: after.outlines
  | .conditional condition inside next after =>
    .node 0 (conditionText condition.text)
      (.conditionDirective (some (conditionText condition.text)) none) [] [] inside.outlines
      next.outline :: after.outlines

def Branches.outline : Branches → Option Outline
  | .nil => none
  | .further condition inside next =>
    some (.node 0 (conditionText condition.text)
      (.conditionDirective (some (conditionText condition.text)) none) [] [] inside.outlines
      next.outline)
  | .last inside => some (.node 0 [] (.conditionDirective none none) [] [] inside.outlines none)

end

/-- The lines of a layout that have the same text. -/
def Directive.layoutLines (ls : List Directive) : List Line := ls.map fun l ↦ ⟨0, l.line⟩

theorem Directive.allToText_layoutLines (ls : List Directive) :
    allToText {} (layoutLines ls) = source ls := by
  rw [allToText, layoutLines, List.flatMap_map, source]
  refine congrArg (ls.flatMap ·) (funext fun l ↦ ?_)
  have hline : l.line ≠ [] := by
    obtain ⟨w, v, a, hline, -⟩ := l.exists_carryOut
    simp [hline]
  rw [toText_eq _ _ hline]
  rfl

theorem Directive.layoutLines_append (ls ls' : List Directive) :
    layoutLines (ls ++ ls') = layoutLines ls ++ layoutLines ls' := List.map_append

theorem Directive.layoutLines_cons (l : Directive) (ls : List Directive) :
    layoutLines (l :: ls) = ⟨0, l.line⟩ :: layoutLines ls := rfl

open Directive

mutual

theorem Nesting.builds (m : RegionMarkers) : ∀ n : Nesting,
    Builds m {} Quiet (layoutLines n.lines) [] n.outlines []
  | .nil => builds_nil
  | .region name inside after => by
    have hregion := (builds_region 0 [] (isArgument_space name.newline) (inside.builds m)
      0).append_any (after.builds m)
    rw [List.append_nil, List.nil_append, List.cons_append, List.append_assoc] at hregion
    rw [Nesting.lines, layoutLines_cons, layoutLines_append, layoutLines_cons, Nesting.outlines]
    exact hregion
  | .conditional condition inside next after => by
    have hconditional := (builds_conditional 0 [] (isArgument_space condition.newline)
      (conditionText_trim _) (inside.builds m) (next.builds m) 0 none).append_any (after.builds m)
    rw [List.append_nil, List.nil_append, List.cons_append, List.append_assoc,
      layoutLines_append, List.append_assoc] at hconditional
    rw [Nesting.lines, layoutLines_cons, layoutLines_append, layoutLines_append, layoutLines_cons,
      Nesting.outlines]
    exact hconditional

theorem Branches.builds (m : RegionMarkers) : ∀ b : Branches,
    BuildsNext m {} (layoutLines (b.lines ++ [.endConditional])) [] b.outline
  | .nil => buildsNext_nil 0
  | .further condition inside next => by
    have hnext := buildsNext_cons 0 [] (.some (isArgument_space condition.newline)
      (conditionText_trim _)) (by simp) (inside.builds m) (next.builds m) 0 none
    rw [List.append_nil, ← layoutLines_append] at hnext
    rw [Branches.lines, List.cons_append, layoutLines_cons, List.append_assoc, Branches.outline]
    exact hnext
  | .last inside => by
    have hnext := buildsNext_cons 0 [] .none (by simp) (inside.builds m)
      (buildsNext_nil 0) 0 none
    rw [List.append_nil] at hnext
    rw [Branches.lines, List.cons_append, layoutLines_cons, layoutLines_append, Branches.outline]
    exact hnext

end

/-! ## The tree mirrors the nesting -/

/-- The element has this name, these data and these children, and nothing above its declaration. -/
def Tree.Stands (t : Tree) (id : ElementId) (name : Text) (element : Element)
    (children : List ElementId) : Prop :=
  ∃ n, t.get? id = some n ∧ n.name = name ∧ n.element = element ∧ n.children = children ∧
    n.headerComments = [] ∧ n.attributes = []

mutual

/-- The elements mirror well nested directives, one by one. A region has the trimmed name, and a
conditional is the chain of its branches. -/
def Nesting.Mirrors (t : Tree) : Nesting → List ElementId → Prop
  | .nil, ids => ids = []
  | .region name inside after, ids => ∃ id later children, ids = id :: later ∧
      t.Stands id (Text.trim name.text) (.region true) children ∧ inside.Mirrors t children ∧
        after.Mirrors t later
  | .conditional condition inside next after, ids => ∃ id later branches, ids = id :: later ∧
      t.chain id = .ok (id :: branches) ∧
        (∃ b children, t.Stands id (Text.trim (Text.before "//".toList condition.text))
          (.conditionDirective (some (Text.trim (Text.before "//".toList condition.text))) b)
          children ∧ inside.Mirrors t children) ∧
        next.Mirrors t branches ∧ after.Mirrors t later

def Branches.Mirrors (t : Tree) : Branches → List ElementId → Prop
  | .nil, ids => ids = []
  | .further condition inside next, ids => ∃ id later b children, ids = id :: later ∧
      t.Stands id (Text.trim (Text.before "//".toList condition.text))
        (.conditionDirective (some (Text.trim (Text.before "//".toList condition.text))) b)
        children ∧ inside.Mirrors t children ∧ next.Mirrors t later
  | .last inside, ids => ∃ id children, ids = [id] ∧
      t.Stands id [] (.conditionDirective none none) children ∧ inside.Mirrors t children

end

def Tree.branchesFrom (t : Tree) (next : Option ElementId) : List ElementId :=
  (next.map t.outline).elim [] fun o ↦ o.branches.map Outline.id

theorem Tree.stands_of_outline {id : ElementId} {name : Text} {e : Element} {os : List Outline}
    {o : Option Outline} (hwhole : (t.outline id).isWhole = true)
    (h : (t.outline id).unnumbered = (Outline.node 0 name e [] [] os o).unnumbered) :
    ∃ e' children, t.Stands id name e' children ∧ e'.withOtherwise none = e.withOtherwise none ∧
      areWhole (children.map t.outline) = true ∧
      unnumberedAll (children.map t.outline) = unnumberedAll os ∧
      isWholeNext (e'.otherwise?.map t.outline) = true ∧
      unnumberedNext (e'.otherwise?.map t.outline) = unnumberedNext o ∧
      t.branchesFrom (some id) = id :: t.branchesFrom e'.otherwise? := by
  obtain ⟨n, hn, houtline⟩ := outline_eq_node hwhole
  rw [houtline] at h hwhole
  simp only [unnumbered, unnumberedAll_eq_map, List.map_nil, List.map_eq_nil_iff,
    Outline.node.injEq, true_and] at h
  obtain ⟨hname, he, hheaders, hattributes, hchildren, hnext⟩ := h
  simp only [isWhole, Bool.and_eq_true] at hwhole
  refine ⟨n.element, n.children, ⟨n, hn, hname, rfl, rfl, hheaders, hattributes⟩, he, hwhole.1.2,
    ?_, hwhole.2, hnext, ?_⟩
  · rw [unnumberedAll_eq_map, unnumberedAll_eq_map, hchildren]
  · rw [branchesFrom, Option.map_some, houtline, branchesFrom]
    cases n.element.otherwise? <;> rfl

theorem eq_region_of_withOtherwise {e : Element}
    (h : e.withOtherwise none = (Element.region true).withOtherwise none) : e = .region true := by
  cases e <;> simp_all [Element.withOtherwise]

theorem eq_conditionDirective_of_withOtherwise {e : Element} {condition : Option Text}
    {i : Option ElementId}
    (h : e.withOtherwise none = (Element.conditionDirective condition i).withOtherwise none) :
    e = .conditionDirective condition e.otherwise? := by
  cases e <;> simp_all [Element.withOtherwise, Element.otherwise?]

mutual

theorem Nesting.mirrors (t : Tree) : ∀ (n : Nesting) (ids : List ElementId),
    areWhole (ids.map t.outline) = true →
      unnumberedAll (ids.map t.outline) = unnumberedAll n.outlines →
      n.Mirrors t ids
  | .nil, ids, _, h => by
    rw [unnumberedAll_eq_map, List.map_map, Nesting.outlines, unnumberedAll,
      List.map_eq_nil_iff] at h
    exact h
  | .region name inside after, [], _, h => by simp [Nesting.outlines, unnumberedAll] at h
  | .region name inside after, id :: later, hwhole, h => by
    rw [List.map_cons, areWhole, Bool.and_eq_true] at hwhole
    rw [Nesting.outlines, List.map_cons, unnumberedAll, unnumberedAll,
      List.cons.injEq] at h
    obtain ⟨e, children, hstands, he, hchildren, hinside, -⟩ := stands_of_outline hwhole.1 h.1
    rw [eq_region_of_withOtherwise he] at hstands
    exact ⟨id, later, children, rfl, hstands, inside.mirrors t children hchildren hinside,
      after.mirrors t later hwhole.2 h.2⟩
  | .conditional condition inside next after, [], _, h => by
    simp [Nesting.outlines, unnumberedAll] at h
  | .conditional condition inside next after, id :: later, hwhole, h => by
    rw [List.map_cons, areWhole, Bool.and_eq_true] at hwhole
    rw [Nesting.outlines, List.map_cons, unnumberedAll, unnumberedAll,
      List.cons.injEq] at h
    obtain ⟨e, children, hstands, he, hchildren, hinside, hnext, hbranches, hchain⟩ :=
      stands_of_outline hwhole.1 h.1
    rw [eq_conditionDirective_of_withOtherwise he] at hstands
    exact ⟨id, later, _, rfl, (chain_eq hwhole.1).trans (congrArg Except.ok hchain),
      ⟨_, children, hstands, inside.mirrors t children hchildren hinside⟩,
      next.mirrors t _ hnext hbranches, after.mirrors t later hwhole.2 h.2⟩

theorem Branches.mirrors (t : Tree) : ∀ (b : Branches) (next : Option ElementId),
    isWholeNext (next.map t.outline) = true →
      unnumberedNext (next.map t.outline) = unnumberedNext b.outline →
      b.Mirrors t (t.branchesFrom next)
  | .nil, none, _, _ => rfl
  | .nil, some id, _, h => by simp [Branches.outline, unnumberedNext] at h
  | .further condition inside b, none, _, h => by
    simp [Branches.outline, unnumberedNext] at h
  | .further condition inside b, some id, hwhole, h => by
    rw [Branches.outline, Option.map_some, unnumberedNext, unnumberedNext,
      Option.some.injEq] at h
    obtain ⟨e, children, hstands, he, hchildren, hinside, hnext, hbranches, hchain⟩ :=
      stands_of_outline hwhole h
    rw [eq_conditionDirective_of_withOtherwise he] at hstands
    exact ⟨id, _, _, children, hchain, hstands, inside.mirrors t children hchildren hinside,
      b.mirrors t _ hnext hbranches⟩
  | .last inside, none, _, h => by simp [Branches.outline, unnumberedNext] at h
  | .last inside, some id, hwhole, h => by
    rw [Branches.outline, Option.map_some, unnumberedNext, unnumberedNext,
      Option.some.injEq] at h
    obtain ⟨e, children, hstands, he, hchildren, hinside, hnext, hbranches, hchain⟩ :=
      stands_of_outline hwhole h
    rw [eq_conditionDirective_of_withOtherwise he] at hstands
    have hnone : e.otherwise? = none := by
      cases hotherwise : e.otherwise? with
      | none => rfl
      | some x => simp [hotherwise, unnumberedNext] at hbranches
    rw [hnone] at hstands hchain
    exact ⟨id, children, hchain, hstands, inside.mirrors t children hchildren hinside⟩

end

namespace Document

/-- Well nested directives can be read, and the tree mirrors them. -/
theorem exists_parse_nesting (m : RegionMarkers) (n : Nesting) :
    ∃ t, parse m (Directive.source n.lines) = .ok t ∧ n.Mirrors t t.roots := by
  obtain ⟨t, hparse, hforest, hwhole⟩ := parse_allToText (n.builds m)
  rw [Directive.allToText_layoutLines] at hparse
  rw [List.append_nil] at hforest hwhole
  have hforest : unnumberedAll (t.roots.map t.outline) =
      unnumberedAll n.outlines := by
    rw [unnumberedAll_eq_map, unnumberedAll_eq_map, List.map_map]
    exact hforest
  refine ⟨t, hparse, n.mirrors t t.roots ?_ hforest⟩
  rw [← areWhole_unnumberedAll, hforest, areWhole_unnumberedAll, hwhole]

/-- **Directives are accepted exactly.** A document of directives can be read if and only if the
directives are well nested, and then its tree mirrors the nesting. -/
theorem parse_directives (m : RegionMarkers) :
    (∀ ls, (∃ t, parse m (Directive.source ls) = .ok t) ↔ ∃ n : Nesting, n.lines = ls) ∧
      ∀ n : Nesting, ∃ t, parse m (Directive.source n.lines) = .ok t ∧ n.Mirrors t t.roots := by
  refine ⟨fun ls ↦ ⟨?_, ?_⟩, exists_parse_nesting m⟩
  · rintro ⟨t, ht⟩
    exact exists_nesting_of_parse ht
  · rintro ⟨n, rfl⟩
    obtain ⟨t, ht, -⟩ := exists_parse_nesting m n
    exact ⟨t, ht⟩

end Document

end SharpOutline
