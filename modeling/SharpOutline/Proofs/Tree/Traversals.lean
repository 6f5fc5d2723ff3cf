import SharpOutline.Proofs.Tree.Listings

/-!
# Ways through a tree

The descendants of an element are listed with a stack, the shape is read off the chains of branches,
and a visit goes from element to element by kind. Where no element lies beneath itself, by way of
children and next branches, all three follow the same order (`Tree.Layered.traversals_agree`): an
element, then what lies beneath its children, then what lies beneath its next branch.

Comments and attributes play no part in this. They may even lie beneath each other in circles, so
that the outlines have gaps in them; for this reason the proofs go by way of the bare tree, which
has neither.
-/

namespace SharpOutline

open Relation

/-! ## Without comments and attributes -/

/-- The node without its comments and attributes. -/
def Node.bare (n : Node) : Node := { n with headerComments := [], attributes := [] }

namespace Outline

mutual

def bare : Outline → Outline
  | gap id => gap id
  | node id name element _ _ children otherwise =>
    node id name element [] [] (bareAll children) (bareNext otherwise)

def bareAll : List Outline → List Outline
  | [] => []
  | o :: os => o.bare :: bareAll os

def bareNext : Option Outline → Option Outline
  | none => none
  | some o => some o.bare

end

theorem bareAll_eq_map (os : List Outline) : bareAll os = os.map bare := by
  induction os with
  | nil => rfl
  | cons o os ih => rw [bareAll, ih, List.map_cons]

theorem bareNext_eq_map (o : Option Outline) : bareNext o = o.map bare := by
  cases o <;> rfl

theorem drain_map_bare (stack : List Outline) : drain (stack.map bare) = drain stack := by
  fun_induction drain stack with
  | case1 => rw [List.map_nil, drain]
  | case2 id stack => rw [List.map_cons, bare, drain]
  | case3 id name element headers applied children otherwise stack ih =>
    rw [List.map_append, List.map_append] at ih
    have hnext : (bareNext otherwise).toList = otherwise.toList.map bare := by
      cases otherwise <;> rfl
    rw [List.map_cons, bare, drain, hnext, bareAll_eq_map, ih]

mutual

theorem visits_bare : ∀ o : Outline, o.bare.visits = o.visits.map bare
  | gap _ => rfl
  | node _ _ element _ _ children otherwise => by
    cases element <;>
      simp [bare, visits, visitsAll_bareAll children, visitsNext_bareNext otherwise]

theorem visitsAll_bareAll : ∀ os : List Outline, visitsAll (bareAll os) = (visitsAll os).map bare
  | [] => rfl
  | o :: os => by
    rw [bareAll, visitsAll, visitsAll, visits_bare o, visitsAll_bareAll os, List.map_append]

theorem visitsNext_bareNext :
    ∀ o : Option Outline, visitsNext (bareNext o) = (visitsNext o).map bare
  | none => rfl
  | some o => visits_bare o

end

theorem known_map_bare (os : List Outline) : known (os.map bare) = known os := by
  induction os with
  | nil => rfl
  | cons o os ih => cases o <;> simp [bare, known, ih]

/-! ## Visits -/

theorem visitsAll_eq_flatMap (os : List Outline) : visitsAll os = os.flatMap visits := by
  induction os with
  | nil => rfl
  | cons o os ih => rw [visitsAll, ih, List.flatMap_cons]

theorem mem_visits_node {v : Outline} {x : ElementId} {name : Text} {element : Element}
    {headers applied children : List Outline} {otherwise : Option Outline}
    (h : v ∈ (node x name element headers applied children otherwise).visits) :
    v = node x name element headers applied children otherwise ∨ v ∈ visitsAll children ∨
      v ∈ visitsNext otherwise := by
  cases element <;> simp only [visits, List.mem_cons, List.mem_append, List.not_mem_nil] at h <;>
    tauto

mutual

theorem isWhole_of_mem_visits : ∀ (o v : Outline), o.isWhole = true → v ∈ o.visits →
    v.isWhole = true
  | gap _, _, h, _ => by simp [isWhole] at h
  | node _ _ _ _ _ children otherwise, v, h, hv => by
    have hparts := h
    simp only [isWhole, Bool.and_eq_true] at hparts
    rcases mem_visits_node hv with rfl | hv | hv
    · exact h
    · exact isWhole_of_mem_visitsAll children v hparts.1.2 hv
    · exact isWhole_of_mem_visitsNext otherwise v hparts.2 hv

theorem isWhole_of_mem_visitsAll : ∀ (os : List Outline) (v : Outline), areWhole os = true →
    v ∈ visitsAll os → v.isWhole = true
  | [], _, _, hv => by simp [visitsAll] at hv
  | o :: os, v, h, hv => by
    rw [areWhole, Bool.and_eq_true] at h
    rw [visitsAll, List.mem_append] at hv
    exact hv.elim (isWhole_of_mem_visits o v h.1) (isWhole_of_mem_visitsAll os v h.2)

theorem isWhole_of_mem_visitsNext : ∀ (o : Option Outline) (v : Outline), isWholeNext o = true →
    v ∈ visitsNext o → v.isWhole = true
  | none, _, _, hv => by simp [visitsNext] at hv
  | some o, v, h, hv => isWhole_of_mem_visits o v h hv

end

theorem exists_known (os : List Outline) (h : ∀ o ∈ os, o.isWhole = true) :
    ∃ met, known os = .ok met ∧ met.map Prod.fst = os.map id := by
  induction os with
  | nil => exact ⟨[], rfl, rfl⟩
  | cons o os ih =>
    obtain ⟨met, hmet, hids⟩ := ih fun v hv ↦ h v (List.mem_cons_of_mem o hv)
    cases o with
    | gap x => simp [isWhole] at h
    | node x name element headers applied children otherwise =>
      refine ⟨(x, element) :: met, ?_, ?_⟩
      · rw [known, hmet]
        rfl
      · rw [List.map_cons, List.map_cons, hids]
        rfl

end Outline

namespace Tree

open Outline

variable {t : Tree} {n x y : Nat} {stack later : List ElementId}

/-! ## The bare tree -/

/-- The tree without comments and attributes. -/
def bare (t : Tree) : Tree := { t with nodes := t.nodes.map Node.bare }

@[simp] theorem size_bare (t : Tree) : t.bare.size = t.size := by
  simp [size, bare]

@[simp] theorem roots_bare (t : Tree) : t.bare.roots = t.roots := rfl

@[simp] theorem get?_bare (t : Tree) (x : ElementId) :
    t.bare.get? x = (t.get? x).map Node.bare := by
  simp [get?, bare]

theorem kind?_bare (t : Tree) (x : ElementId) : t.bare.kind? x = t.kind? x := by
  rw [kind?, get?_bare, Option.map_map, kind?]
  rfl

theorem nameOf_bare (t : Tree) (x : ElementId) : t.bare.nameOf x = t.nameOf x := by
  rw [nameOf, get?_bare, Option.map_map, nameOf]
  rfl

theorem children_bare (t : Tree) (x : ElementId) :
    t.bare.listOf x .children = t.listOf x .children := by
  rw [listOf, get?_bare, Option.map_map, listOf]
  rfl

theorem otherwise?_bare (t : Tree) (x : ElementId) : t.bare.otherwise? x = t.otherwise? x := by
  rw [otherwise?, get?_bare, otherwise?]
  cases t.get? x <;> rfl

theorem below_bare (t : Tree) (x : ElementId) : t.bare.below x = t.below x := by
  rw [below, below, children_bare, otherwise?_bare]

theorem node_bare (t : Tree) (x : ElementId) : t.bare.node x = Node.bare <$> t.node x := by
  rw [node, get?_bare, node]
  cases t.get? x <;> rfl

theorem eq_children_of_mem_listOf_bare {slot : Slot} (h : y ∈ t.bare.listOf x slot) :
    slot = .children := by
  rw [listOf, get?_bare] at h
  cases hx : t.get? x with
  | none => simp [hx] at h
  | some node => cases slot <;> simp_all [Node.list, Node.bare]

theorem owns_bare_iff : t.bare.Owns x y ↔ y ∈ t.below x := by
  rw [← below_bare]
  refine ⟨?_, owns_of_mem_below⟩
  rintro (⟨slot, hmem⟩ | hbranch)
  · obtain rfl := eq_children_of_mem_listOf_bare hmem
    exact List.mem_append_left _ hmem
  · exact List.mem_append_right _ (Option.mem_toList.mpr hbranch)

theorem unfold_bare (t : Tree) (n : Nat) (x : ElementId) :
    t.bare.unfold n x = (t.unfold n x).bare := by
  induction n generalizing x with
  | zero => rfl
  | succ n ih =>
    rw [unfold, unfold, get?_bare]
    cases t.get? x with
    | none => rfl
    | some node =>
      simp only [Option.map_some, Node.bare, List.map_nil, Outline.bare, bareAll_eq_map,
        bareNext_eq_map, List.map_map, Option.map_map]
      rw [List.map_congr_left fun y _ ↦ ih y, Option.map_congr fun y _ ↦ ih y]
      rfl

theorem descendants_bare (t : Tree) (x : ElementId) : t.bare.descendants x = t.descendants x := by
  rw [descendants, outline, unfold_bare, size_bare]
  exact drain_map_bare [t.outline x]

theorem visit_bare (t : Tree) (ids : List ElementId) : t.bare.visit ids = t.visit ids := by
  have houtlines : ids.map t.bare.outline = bareAll (ids.map t.outline) := by
    rw [bareAll_eq_map, List.map_map]
    refine List.map_congr_left fun x _ ↦ ?_
    rw [outline, size_bare, unfold_bare]
    rfl
  rw [visit, houtlines, visitsAll_bareAll, known_map_bare, visit]

theorem chainUpTo_bare (t : Tree) (seen : List ElementId) (n : Nat) (x : ElementId) :
    t.bare.chainUpTo seen n x = t.chainUpTo seen n x := by
  induction n generalizing seen x with
  | zero => rfl
  | succ n ih =>
    simp only [chainUpTo, node_bare, bind_map_left, ih]
    rfl

theorem shapeUpTo_bare (t : Tree) (n depth : Nat) (x : ElementId) :
    t.bare.shapeUpTo n depth x = t.shapeUpTo n depth x := by
  induction n generalizing depth x with
  | zero => rfl
  | succ n ih =>
    have hchain : t.bare.chain x = t.chain x := by rw [chain, size_bare, chainUpTo_bare, chain]
    have hbelow : t.bare.shapeUpTo n (depth + 1) = t.shapeUpTo n (depth + 1) :=
      funext (ih (depth + 1))
    simp only [shapeUpTo, hchain, node_bare, bind_map_left, hbelow]
    rfl

theorem shape_bare (t : Tree) : t.bare.shape = t.shape := by
  have hroots : t.bare.shapeUpTo (t.size + 1) 0 = t.shapeUpTo (t.size + 1) 0 :=
    funext (shapeUpTo_bare t _ 0)
  rw [shape, size_bare, hroots, roots_bare, shape]

/-! ## Layers -/

/-- Children, next branches and roots are elements of the tree, and no element lies beneath itself
by way of children and next branches. -/
structure Layered (t : Tree) : Prop where
  lt_of_mem_below : ∀ {x y}, y ∈ t.below x → y < t.size
  lt_of_mem_roots : ∀ {x}, x ∈ t.roots → x < t.size
  not_below_self : ∀ {x}, ¬TransGen (fun x y ↦ y ∈ t.below x) x x

theorem Layered.isWhole_outline_bare (h : t.Layered) (hx : x < t.size) :
    (t.bare.outline x).isWhole = true := by
  have howns : t.bare.Owns = fun x y ↦ y ∈ t.below x := by
    ext x y
    exact owns_bare_iff
  refine AcyclicBelow.isWhole_outline (fun y _ ↦ ?_) fun y hy ↦ ?_
  · rw [howns]
    exact h.not_below_self
  · rw [size_bare]
    rw [howns] at hy
    rcases hy.cases_tail with rfl | ⟨z, -, hzy⟩
    · exact hx
    · exact h.lt_of_mem_below hzy

/-! ## Stacks of elements -/

/-- Working off a stack: the element on top is listed, and its children and its next branch take its
place. -/
inductive Drains (t : Tree) : List ElementId → List ElementId → Prop
  | done : Drains t [] []
  | next {x : ElementId} {stack later : List ElementId} (hx : x < t.size)
      (hlater : Drains t (t.below x ++ stack) later) : Drains t (x :: stack) (x :: later)

theorem drains_flatMap {f : ElementId → List ElementId} (ids : List ElementId)
    (h : ∀ x ∈ ids, ∀ {stack later}, t.Drains stack later → t.Drains (x :: stack) (f x ++ later))
    (hlater : t.Drains stack later) : t.Drains (ids ++ stack) (ids.flatMap f ++ later) := by
  induction ids with
  | nil => exact hlater
  | cons x ids ih =>
    rw [List.flatMap_cons, List.append_assoc]
    exact h x List.mem_cons_self (ih fun y hy ↦ h y (List.mem_cons_of_mem x hy))

theorem isWhole_unfold_of_mem_below (h : (t.unfold (n + 1) x).isWhole = true)
    (hy : y ∈ t.below x) : (t.unfold n y).isWhole = true := by
  obtain ⟨node, hnode, heq⟩ := unfold_eq_node h
  rw [heq] at h
  simp only [isWhole, Bool.and_eq_true, areWhole_iff] at h
  obtain ⟨⟨-, hchildren⟩, hnext⟩ := h
  rw [below, listOf_of_get? hnode, otherwise?, hnode, Option.bind_some] at hy
  rcases List.mem_append.mp hy with hy | hy
  · exact hchildren _ (List.mem_map_of_mem hy)
  · rw [Option.mem_toList.mp hy] at hnext
    exact hnext

/-- An element on the stack is worked off before what stands behind it. -/
theorem drains_preorder (h : (t.bare.unfold n x).isWhole = true) (hlater : t.Drains stack later) :
    t.Drains (x :: stack) ((t.bare.unfold n x).preorder ++ later) := by
  induction n generalizing x stack later with
  | zero => simp [unfold, isWhole] at h
  | succ n ih =>
    obtain ⟨node, hnode, -⟩ := unfold_eq_node h
    have hx : x < t.bare.size := lt_of_get? hnode
    have hbelow : ∀ y ∈ t.below x, (t.bare.unfold n y).isWhole = true := fun y hy ↦
      isWhole_unfold_of_mem_below h (by rwa [below_bare])
    rw [preorder_unfold_succ hx, below_bare, List.cons_append]
    rw [size_bare] at hx
    exact .next hx (drains_flatMap (t.below x) (fun y hy ↦ ih (hbelow y hy)) hlater)

/-! ## Visits -/

/-- Only namespaces, types, regions and branches of conditionals have children. -/
def Nests (t : Tree) : Prop :=
  ∀ x, t.listOf x .children ≠ [] →
    ∃ k ∈ [Kind.nameSpace, .typeDeclaration, .region, .conditionDirective], t.kind? x = some k

theorem map_id_visits (h : t.Nests) (n : Nat) (x : ElementId) :
    (t.unfold n x).visits.map Outline.id = (t.unfold n x).preorder := by
  induction n generalizing x with
  | zero => rfl
  | succ n ih =>
    rw [unfold]
    cases hnode : t.get? x with
    | none => rfl
    | some node =>
      have hall : (visitsAll (node.children.map (t.unfold n))).map Outline.id =
          preorderAll (node.children.map (t.unfold n)) := by
        rw [visitsAll_eq_flatMap, preorderAll_eq_flatMap, List.map_flatMap, List.flatMap_map,
          List.flatMap_map]
        exact List.flatMap_congr fun y _ ↦ ih y
      have hnext : (visitsNext (node.element.otherwise?.map (t.unfold n))).map Outline.id =
          preorderNext (node.element.otherwise?.map (t.unfold n)) := by
        cases node.element.otherwise? with
        | none => rfl
        | some b => exact ih b
      have hleaf : node.kind ∉ [Kind.nameSpace, .typeDeclaration, .region, .conditionDirective] →
          node.children = [] := by
        intro hkind
        by_contra hne
        obtain ⟨k, hk, hx⟩ := h x (by rwa [listOf_of_get? hnode])
        rw [kind?_of_get? hnode] at hx
        exact hkind (Option.some.inj hx ▸ hk)
      simp only [preorder, ← hall, ← hnext]
      cases helement : node.element <;>
        simp_all [visits, visitsAll, visitsNext, Outline.id, Node.kind, Element.kind,
          Element.otherwise?]

theorem Nests.bare (h : t.Nests) : t.bare.Nests := by
  intro x hx
  rw [children_bare] at hx
  rw [kind?_bare]
  exact h x hx

/-! ## The three ways -/

theorem Depicts.map_eq {ids : List ElementId} {entries : List ShapeEntry}
    (h : List.Forall₂ t.Depicts ids entries) :
    entries.map (fun e ↦ (some e.kind, e.name)) = ids.map fun x ↦ (t.kind? x, t.nameOf x) := by
  induction h with
  | nil => rfl
  | cons hx _ ih => rw [List.map_cons, List.map_cons, ih, hx.1, hx.2]

namespace Layered

theorem preorder_eq (h : t.Layered) (hx : x < t.size) : (t.bare.outline x).preorder =
    x :: ((t.listOf x .children).flatMap (fun y ↦ (t.bare.outline y).preorder) ++
      (t.otherwise? x).toList.flatMap fun y ↦ (t.bare.outline y).preorder) := by
  have hsucc := unfold_succ_of_isWhole (h.isWhole_outline_bare hx)
  rw [← List.flatMap_append]
  calc (t.bare.outline x).preorder
    _ = (t.bare.unfold (t.bare.size + 1) x).preorder := by rw [hsucc, outline]
    _ = _ := by
      rw [preorder_unfold_succ (by rwa [size_bare]), below_bare]
      rfl

theorem descendants_eq (h : t.Layered) (hx : x < t.size) :
    t.descendants x = .ok (t.bare.outline x).preorder := by
  rw [← descendants_bare, descendants,
    drain_of_areWhole (by simp [areWhole, h.isWhole_outline_bare hx])]
  simp [preorderAll]

theorem exists_shape (h : t.Layered) : ∃ entries, t.shape = .ok entries ∧
    entries.map (fun e ↦ (some e.kind, e.name)) =
      (t.roots.flatMap fun r ↦ (t.bare.outline r).preorder).map
        fun x ↦ (t.kind? x, t.nameOf x) := by
  have hwhole : ∀ r ∈ t.bare.roots, (t.bare.outline r).isWhole = true := fun r hr ↦
    h.isWhole_outline_bare (h.lt_of_mem_roots hr)
  have hshape := shape_eq_shapeAll (t := t.bare) (areWhole_iff.mpr fun o ho ↦ by
    obtain ⟨r, hr, rfl⟩ := List.mem_map.mp ho
    exact hwhole r hr)
  have hentries : List.Forall₂ t.bare.Depicts (preorderAll (t.bare.roots.map t.bare.outline))
      (shapeAll 0 (t.bare.roots.map t.bare.outline)) :=
    forall₂_shapeAll t.bare.roots fun r hr ↦ forall₂_shape (hwhole r hr)
  rw [shape_bare] at hshape
  refine ⟨_, hshape, ?_⟩
  rw [preorderAll_eq_flatMap, List.flatMap_map] at hentries
  have hmap := Depicts.map_eq hentries
  simp only [kind?_bare, nameOf_bare] at hmap
  exact hmap

theorem exists_visit (h : t.Layered) (hnests : t.Nests) : ∃ met, t.visit t.roots = .ok met ∧
    met.map Prod.fst = t.roots.flatMap fun r ↦ (t.bare.outline r).preorder := by
  rw [← visit_bare, visit]
  have hwhole : areWhole (t.roots.map t.bare.outline) = true := areWhole_iff.mpr fun o ho ↦ by
    obtain ⟨r, hr, rfl⟩ := List.mem_map.mp ho
    exact h.isWhole_outline_bare (h.lt_of_mem_roots hr)
  obtain ⟨met, hmet, hids⟩ := exists_known _ fun v ↦ isWhole_of_mem_visitsAll _ v hwhole
  refine ⟨met, hmet, hids.trans ?_⟩
  rw [visitsAll_eq_flatMap, List.map_flatMap, List.flatMap_map]
  exact List.flatMap_congr fun r _ ↦ map_id_visits hnests.bare _ r

/-- **One order.** Where no element lies beneath itself by way of children and next branches, an
element comes before what lies beneath its children, and this before what lies beneath its next
branch. In this order a stack works off an element, and the descendants of an element are listed;
the shape of the tree gives kinds and names in this order, root by root; and so does a visit from
the roots meet the elements, if only those have children that a visit goes on from. -/
theorem traversals_agree (h : t.Layered) :
    ∃ preorder : ElementId → List ElementId,
      (∀ x < t.size, preorder x = x :: ((t.listOf x .children).flatMap preorder ++
        (t.otherwise? x).toList.flatMap preorder)) ∧
      (∀ x < t.size, t.descendants x = .ok (preorder x) ∧ t.Drains [x] (preorder x)) ∧
      (∃ entries, t.shape = .ok entries ∧ entries.map (fun e ↦ (some e.kind, e.name)) =
        (t.roots.flatMap preorder).map fun x ↦ (t.kind? x, t.nameOf x)) ∧
      (t.Nests → ∃ met, t.visit t.roots = .ok met ∧
        met.map Prod.fst = t.roots.flatMap preorder) := by
  refine ⟨fun x ↦ (t.bare.outline x).preorder, fun x hx ↦ h.preorder_eq hx, fun x hx ↦ ?_,
    h.exists_shape, h.exists_visit⟩
  refine ⟨h.descendants_eq hx, ?_⟩
  have hdrains := drains_preorder (h.isWhole_outline_bare hx) .done
  rwa [List.append_nil] at hdrains

end Layered

/-- A conditional with two branches and a namespace in each of them. -/
def forked : List Edit :=
  [.create [] (.conditionDirective (some "A".toList) none), .create "N".toList (.nameSpace false),
    .create [] (.conditionDirective none none), .create "M".toList (.nameSpace false), .addRoot 0,
    .addChild 0 1, .setOtherwise 0 (some 2), .addChild 2 3]

theorem lt_of_mem_below_forked (h : y ∈ (built forked).below x) :
    x < y ∧ y < (built forked).size := by
  have hall : ∀ x < (built forked).size, ∀ y ∈ (built forked).below x,
      x < y ∧ y < (built forked).size := by decide +kernel
  exact hall x (owns_of_mem_below h).lt y h

theorem layered_forked : (built forked).Layered where
  lt_of_mem_below h := (lt_of_mem_below_forked h).2
  lt_of_mem_roots {x} h := by
    have hroots : ∀ x ∈ (built forked).roots, x < (built forked).size := by decide +kernel
    exact hroots x h
  not_below_self {x} h := by
    have hlt : ∀ {z}, TransGen (fun x y ↦ y ∈ (built forked).below x) x z → x < z := by
      intro z hz
      induction hz with
      | single h => exact (lt_of_mem_below_forked h).1
      | tail _ h ih => exact Nat.lt_trans ih (lt_of_mem_below_forked h).1
    exact Nat.lt_irrefl x (hlt h)

theorem nests_forked : (built forked).Nests := by
  intro x hx
  have hall : ∀ x < (built forked).size,
      ∃ k ∈ [Kind.nameSpace, .typeDeclaration, .region, .conditionDirective],
        (built forked).kind? x = some k := by decide +kernel
  obtain ⟨y, hy⟩ := List.exists_mem_of_ne_nil _ hx
  exact hall x (lt_of_mem_listOf hy)

/-- Both branches are met, the first with its namespace before the second. -/
theorem traversals_agree_forked :
    (built forked).descendants 0 = .ok [0, 1, 2, 3] ∧
    ∃ met, (built forked).visit [0] = .ok met ∧ met.map Prod.fst = [0, 1, 2, 3] := by
  obtain ⟨preorder, hrec, hlisted, -, hvisit⟩ := layered_forked.traversals_agree
  have hall : preorder 0 = [0, 1, 2, 3] := by
    have hleaf : ∀ x ∈ [1, 3], preorder x = [x] := by
      intro x hx
      have hnone : ∀ x ∈ [1, 3], x < (built forked).size ∧ (built forked).listOf x .children = [] ∧
          (built forked).otherwise? x = none := by decide +kernel
      obtain ⟨hlt, hchildren, hnext⟩ := hnone x hx
      rw [hrec x hlt, hchildren, hnext]
      rfl
    have hfirst : (built forked).listOf 0 .children = [1] ∧
        (built forked).otherwise? 0 = some 2 := by
      decide +kernel
    have hsecond : (built forked).listOf 2 .children = [3] ∧
        (built forked).otherwise? 2 = none := by
      decide +kernel
    rw [hrec 0 (by decide +kernel), hfirst.1, hfirst.2]
    simp [hleaf 1 (by simp), hrec 2 (by decide +kernel), hsecond, hleaf 3 (by simp)]
  obtain ⟨met, hmet, hids⟩ := hvisit nests_forked
  refine ⟨hall ▸ (hlisted 0 (by decide +kernel)).1, met, hmet, hids.trans ?_⟩
  exact (List.flatMap_singleton preorder 0).trans hall

end Tree

end SharpOutline
