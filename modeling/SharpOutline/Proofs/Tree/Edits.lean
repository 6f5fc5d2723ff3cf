import SharpOutline.Proofs.Tree.Links

/-!
# Edits keep links in agreement

Each edit is described by the changes of links that it makes, and a tree that was built by edits
from nothing therefore has links that agree, whatever the edits were and however many of them were
refused. The edits are a type of their own, so that a history of a tree is a list.

Copying is the one edit that is more than a few changes. It plants an outline of the tree into the
tree itself; the outline was taken before, so what is planted never changes while it is read, and
the induction goes over the levels of the outline.
-/

namespace SharpOutline

namespace Node

theorem list_modifyList (n : Node) (f : List ElementId → List ElementId) (slot s : Slot) :
    (n.modifyList f slot).list s = if s = slot then f (n.list s) else n.list s := by
  cases slot <;> cases s <;> rfl

@[simp] theorem parent_modifyList (n : Node) (f : List ElementId → List ElementId) (slot : Slot) :
    (n.modifyList f slot).parent = n.parent := by
  cases slot <;> rfl

@[simp] theorem kind_modifyList (n : Node) (f : List ElementId → List ElementId) (slot : Slot) :
    (n.modifyList f slot).kind = n.kind := by
  cases slot <;> rfl

@[simp] theorem parent_drop (n : Node) (id : ElementId) : (n.drop id).parent = n.parent := rfl

@[simp] theorem kind_drop (n : Node) (id : ElementId) : (n.drop id).kind = n.kind := rfl

theorem list_drop (n : Node) (id : ElementId) (s : Slot) :
    (n.drop id).list s = (n.list s).filter (· != id) := by
  cases s <;> rfl

end Node

namespace Tree

variable {t u : Tree} {x p owner id : ElementId} {slot : Slot}

/-! ## Views after a change of one node -/

variable {α : Type} {f : Node → Node}

/-- A view that does not show a change of nodes does not show it in a tree. -/
theorem view_modify (view : Option Node → α) (hf : ∀ n, view (some (f n)) = view (some n))
    (t : Tree) (id x : ElementId) :
    view ((t.modify id f).get? x) = view (t.get? x) := by
  rw [get?_modify]
  split
  · cases t.get? x with
    | none => rfl
    | some n => exact hf n
  · rfl

theorem kind?_modify (t : Tree) (id x : ElementId) (hf : ∀ n, (f n).kind = n.kind) :
    (t.modify id f).kind? x = t.kind? x :=
  view_modify (Option.map Node.kind) (fun n ↦ congrArg some (hf n)) t id x

theorem parent?_modify (t : Tree) (id x : ElementId) (hf : ∀ n, (f n).parent = n.parent) :
    (t.modify id f).parent? x = t.parent? x :=
  view_modify (Option.bind · Node.parent) hf t id x

theorem listOf_modify (t : Tree) (id x : ElementId) (s : Slot)
    (hf : ∀ n s, (f n).list s = n.list s) : (t.modify id f).listOf x s = t.listOf x s :=
  view_modify (fun n? ↦ (n?.map (Node.list · s)).getD []) (fun n ↦ hf n s) t id x

theorem listOf_modify_eq {g : Slot → List ElementId → List ElementId}
    (hf : ∀ n s, (f n).list s = g s (n.list s)) (hid : id < t.size) (x : ElementId) (s : Slot) :
    (t.modify id f).listOf x s = if x = id then g s (t.listOf x s) else t.listOf x s := by
  by_cases hx : x = id
  · subst hx
    obtain ⟨n, hn⟩ := exists_get?_of_lt hid
    rw [if_pos rfl, listOf, get?_modify, if_pos rfl, hn, listOf_of_get? hn]
    exact hf n s
  · rw [if_neg hx, listOf, get?_modify, if_neg (Ne.symm hx), listOf]

theorem parent?_setParent (v : Option ElementId) (hid : id < t.size) (x : ElementId) :
    (t.modify id fun n ↦ { n with parent := v }).parent? x =
      if x = id then v else t.parent? x := by
  by_cases hx : x = id
  · subst hx
    obtain ⟨n, hn⟩ := exists_get?_of_lt hid
    rw [if_pos rfl, parent?, get?_modify, if_pos rfl, hn]
    rfl
  · rw [if_neg hx, parent?, get?_modify, if_neg (Ne.symm hx), parent?]

theorem kind?_setParent (t : Tree) (id x : ElementId) (v : Option ElementId) :
    (t.modify id fun n ↦ { n with parent := v }).kind? x = t.kind? x :=
  kind?_modify t id x fun _ ↦ rfl

theorem listOf_setParent (t : Tree) (id x : ElementId) (v : Option ElementId) (s : Slot) :
    (t.modify id fun n ↦ { n with parent := v }).listOf x s = t.listOf x s :=
  listOf_modify t id x s fun _ s ↦ by cases s <;> rfl

theorem listOf_modifyList (f : List ElementId → List ElementId) (hid : owner < t.size)
    (x : ElementId) (s : Slot) :
    (t.modify owner (·.modifyList f slot)).listOf x s =
      if x = owner ∧ s = slot then f (t.listOf x s) else t.listOf x s := by
  rw [listOf_modify_eq (g := fun s l ↦ if s = slot then f l else l)
    (fun n s ↦ n.list_modifyList f slot s) hid]
  by_cases hx : x = owner <;> simp [hx]

/-! ## Taking out -/

theorem filter_ne_of_not_mem {l : List ElementId} (h : x ∉ l) : l.filter (· != x) = l := by
  rw [List.filter_eq_self]
  intro y hy
  simp only [bne_iff_ne, ne_eq]
  rintro rfl
  exact h hy

theorem detached_of_root (h : t.parent? id = none) :
    t.detached id = { t with roots := t.roots.filter (· != id) } := by
  rw [detached, h]

theorem detached_of_parent (h : t.parent? id = some p) :
    t.detached id = (t.modify id fun n ↦ { n with parent := none }).modify p (·.drop id) := by
  rw [detached, h]

theorem released_detached (h : t.Linked) (id : ElementId) :
    Released t (t.detached id) (· == id) := by
  cases hp : t.parent? id with
  | none =>
    rw [detached_of_root hp]
    refine ⟨rfl, fun _ ↦ rfl, fun x ↦ ?_, fun q s ↦ ?_, rfl⟩
    · by_cases hx : x = id
      · subst hx
        rw [if_pos (beq_self_eq_true x)]
        exact hp
      · rw [if_neg (by simpa using hx)]
        rfl
    · exact (filter_ne_of_not_mem (h.not_mem_listOf hp q s)).symm
  | some p =>
    rw [detached_of_parent hp]
    obtain ⟨slot, hmem⟩ := h.exists_mem_listOf hp
    have hown : p < t.size := lt_of_mem_listOf hmem
    refine ⟨by simp, fun x ↦ ?_, fun x ↦ ?_, fun q s ↦ ?_, ?_⟩
    · rw [kind?_modify _ _ _ fun n ↦ n.kind_drop id, kind?_setParent]
    · rw [parent?_modify _ _ _ fun n ↦ n.parent_drop id, parent?_setParent none (lt_of_parent? hp)]
      simp only [beq_iff_eq]
    · rw [listOf_modify_eq (g := fun _ l ↦ l.filter (· != id)) (fun n s ↦ n.list_drop id s)
        (by simpa using hown), listOf_setParent]
      by_cases hq : q = p
      · rw [if_pos hq]
        rfl
      · rw [if_neg hq]
        exact (filter_ne_of_not_mem (h.not_mem_listOf_of_ne hp hq s)).symm
    · exact (filter_ne_of_not_mem (h.not_mem_roots hp)).symm

theorem released_erase (h : t.Linked) (hx : x ∈ t.listOf p slot) :
    Released t ((t.modify p (·.modifyList (·.erase x) slot)).modify x
      fun n ↦ { n with parent := none }) (· == x) := by
  have hparent := h.parent_of_mem hx
  have hp : p < t.size := lt_of_mem_listOf hx
  refine ⟨by simp, fun y ↦ ?_, fun y ↦ ?_, fun q s ↦ ?_, ?_⟩
  · rw [kind?_setParent, kind?_modify _ _ _ fun n ↦ n.kind_modifyList _ _]
  · rw [parent?_setParent none (by simpa using lt_of_parent? hparent),
      parent?_modify _ _ _ fun n ↦ n.parent_modifyList _ _]
    simp only [beq_iff_eq]
  · rw [listOf_setParent, listOf_modifyList _ hp]
    by_cases hq : q = p ∧ s = slot
    · obtain ⟨rfl, rfl⟩ := hq
      rw [if_pos ⟨rfl, rfl⟩, (h.nodup_listOf q s).erase_eq_filter]
      rfl
    · rw [if_neg hq]
      exact (filter_ne_of_not_mem fun hmem ↦ hq (h.place_unique hmem hx)).symm
  · exact (filter_ne_of_not_mem (h.not_mem_roots hparent)).symm

theorem orphaned (ids : List ElementId) (t : Tree) :
    let u := ids.foldl (fun u child ↦ u.modify child fun n ↦ { n with parent := none }) t
    u.size = t.size ∧ u.roots = t.roots ∧ (∀ x, u.kind? x = t.kind? x) ∧
      (∀ x s, u.listOf x s = t.listOf x s) ∧
      ∀ x, u.parent? x = if x ∈ ids then none else t.parent? x := by
  induction ids generalizing t with
  | nil => exact ⟨rfl, rfl, fun _ ↦ rfl, fun _ _ ↦ rfl, fun _ ↦ by simp⟩
  | cons id ids ih =>
    obtain ⟨hsize, hroots, hkind, hlist, hparent⟩ :=
      ih (t.modify id fun n ↦ { n with parent := none })
    refine ⟨by simpa using hsize, hroots, fun x ↦ ?_, fun x s ↦ ?_, fun x ↦ ?_⟩
    · rw [List.foldl_cons, hkind, kind?_setParent]
    · rw [List.foldl_cons, hlist, listOf_setParent]
    · rw [List.foldl_cons, hparent]
      by_cases hid : id < t.size
      · rw [parent?_setParent none hid]
        by_cases hx : x = id <;> simp [hx]
      · have hnone : ∀ y, (t.modify id fun n ↦ { n with parent := none }).parent? y
            = t.parent? y := by
          intro y
          rw [parent?, get?_modify, parent?]
          split
          · rename_i hy
            rw [← hy, get?_eq_none_iff.mpr (Nat.not_lt.mp hid)]
            rfl
          · rfl
        rw [hnone]
        by_cases hx : x = id
        · subst hx
          rw [parent?, get?_eq_none_iff.mpr (Nat.not_lt.mp hid)]
          simp
        · simp [hx]

theorem released_children (h : t.Linked) (hid : id < t.size) :
    Released t ((t.listOf id .children).foldl
      (fun u child ↦ u.modify child fun n ↦ { n with parent := none })
      (t.modify id fun n ↦ { n with children := [] }))
      fun x ↦ (t.listOf id .children).contains x := by
  obtain ⟨hsize, hroots, hkind, hlist, hparent⟩ :=
    orphaned (t.listOf id .children) (t.modify id fun n ↦ { n with children := [] })
  have keep : ∀ {l : List ElementId}, (∀ x ∈ l, x ∉ t.listOf id .children) →
      (l.filter fun x ↦ !(t.listOf id .children).contains x) = l := by
    intro l hl
    rw [List.filter_eq_self]
    intro x hx
    simpa using hl x hx
  refine ⟨by simpa using hsize, fun x ↦ ?_, fun x ↦ ?_, fun q s ↦ ?_, ?_⟩
  · rw [hkind, kind?_modify _ _ _ fun _ ↦ ?_]
    rfl
  · rw [hparent, parent?_modify _ _ _ fun _ ↦ ?_]
    · simp only [List.contains_iff_mem]
    · rfl
  · rw [hlist, listOf_modify_eq (g := fun s l ↦ if s = .children then [] else l)
      (fun n s ↦ by cases s <;> rfl) hid]
    by_cases hq : q = id ∧ s = .children
    · obtain ⟨rfl, rfl⟩ := hq
      simp
    · rw [keep fun x hx hmem ↦ hq (h.place_unique hx hmem)]
      by_cases hqid : q = id
      · rw [if_pos hqid, if_neg fun hs ↦ hq ⟨hqid, hs⟩]
      · rw [if_neg hqid]
  · rw [hroots, keep fun x hx hmem ↦ h.not_mem_roots (h.parent_of_mem hmem) hx]
    rfl

/-! ## Putting in -/

theorem placed_linked {put : List ElementId → List ElementId} (hown : owner < t.size)
    (hid : id < t.size) (hput : ∀ l, (put l).Perm (id :: l)) :
    Placed t (t.linked owner slot put id) owner slot id := by
  rw [linked]
  refine ⟨by simp, fun x ↦ ?_, fun x ↦ ?_, ?_, fun p s hp ↦ ?_, rfl⟩
  · rw [kind?_setParent, kind?_modify _ _ _ fun n ↦ n.kind_modifyList _ _]
  · rw [parent?_setParent _ (by simpa using hid),
      parent?_modify _ _ _ fun n ↦ n.parent_modifyList _ _]
  · rw [listOf_setParent, listOf_modifyList _ hown, if_pos ⟨rfl, rfl⟩]
    exact hput _
  · rw [listOf_setParent, listOf_modifyList _ hown, if_neg hp]

theorem placed_appended (hown : owner < t.size) (hid : id < t.size) :
    Placed t (t.appended owner slot id) owner slot id :=
  placed_linked hown hid fun l ↦ List.perm_append_singleton id l

/-! ## Creating -/

theorem kind?_create (name : Text) (e : Element) (x : ElementId) :
    (t.create name e).kind? x = if x = t.size then some e.kind else t.kind? x := by
  rw [kind?, get?_create]
  split <;> rfl

theorem parent?_create (name : Text) (e : Element) (x : ElementId) :
    (t.create name e).parent? x = t.parent? x := by
  rw [parent?, get?_create, parent?]
  split
  · rename_i hx
    rw [get?_eq_none_iff.mpr (Nat.le_of_eq hx.symm)]
    rfl
  · rfl

theorem listOf_create (name : Text) (e : Element) (x : ElementId) (s : Slot) :
    (t.create name e).listOf x s = t.listOf x s := by
  rw [listOf, get?_create, listOf]
  split
  · rename_i hx
    rw [get?_eq_none_iff.mpr (Nat.le_of_eq hx.symm)]
    cases s <;> rfl
  · rfl

theorem Linked.create (h : t.Linked) (name : Text) (e : Element) : (t.create name e).Linked where
  parent_of_mem hx := by
    rw [listOf_create] at hx
    rw [parent?_create, h.parent_of_mem hx]
  occurrences_eq_one hx := by
    rw [parent?_create] at hx
    rw [occurrences, listOf_create, listOf_create, listOf_create]
    exact h.occurrences_eq_one hx
  parent_of_mem_roots {x} hx := by
    obtain ⟨hlt, hnone⟩ := h.parent_of_mem_roots hx
    rw [size_create, parent?_create]
    exact ⟨Nat.lt_succ_of_lt hlt, hnone⟩
  count_roots_eq_one hx := h.count_roots_eq_one hx
  admits_of_mem {p s x} hx := by
    rw [listOf_create] at hx
    rw [kind?_create, kind?_create, if_neg (Nat.ne_of_lt (lt_of_mem_listOf hx)),
      if_neg (Nat.ne_of_lt (h.lt_of_mem hx))]
    exact h.admits_of_mem hx

theorem Linked.free_create (h : t.Linked) (name : Text) (e : Element) :
    (t.create name e).Free t.size where
  lt := by
    rw [size_create]
    exact Nat.lt_succ_self _
  parent := by rw [parent?_create, parent?, get?_eq_none_iff.mpr (Nat.le_refl _), Option.bind_none]
  not_mem_roots hx := Nat.lt_irrefl _ (h.parent_of_mem_roots hx).1

/-! ## Copying -/

theorem bind_eq_ok {ε β : Type} {a : Except ε α} {f : α → Except ε β} {b : β} :
    (a >>= f) = .ok b ↔ ∃ v, a = .ok v ∧ f v = .ok b := by
  cases a with
  | error r => simp [bind, Except.bind]
  | ok v => simp [bind, Except.bind]

theorem toOption_eq_some {ε : Type} {x : Except ε α} {a : α} :
    x.toOption = some a ↔ x = .ok a := by
  cases x <;> simp [Except.toOption]

theorem toOption_any {ε : Type} {x : Except ε α} {p : α → Bool} :
    x.toOption.any p = true ↔ ∃ a, x = .ok a ∧ p a = true := by
  cases x <;> simp [Except.toOption]

end Tree

namespace Outline

variable {t u : Tree} {copy : ElementId}

/-- First the next branch is planted, then the element is created, and then what stands in its
lists. -/
theorem plant_eq_ok {id : ElementId} {name : Text} {e : Element}
    {headers applied children : List Outline} {otherwise : Option Outline}
    (h : plant t (node id name e headers applied children otherwise) = .ok (u, copy)) :
    ∃ t₁ next t₃ t₄, plantNext t otherwise = .ok (t₁, next) ∧
      plantAll (t₁.create name (e.withOtherwise next)) t₁.size .children children = .ok t₃ ∧
      plantAll t₃ t₁.size .headerComments headers = .ok t₄ ∧
      plantAll t₄ t₁.size .attributes applied = .ok u ∧ t₁.size = copy := by
  simp only [plant] at h
  obtain ⟨⟨t₁, next⟩, hnext, h⟩ := Tree.bind_eq_ok.mp h
  obtain ⟨t₃, hchildren, h⟩ := Tree.bind_eq_ok.mp h
  obtain ⟨t₄, hheaders, h⟩ := Tree.bind_eq_ok.mp h
  obtain ⟨t₅, happlied, h⟩ := Tree.bind_eq_ok.mp h
  obtain ⟨rfl, hcopy⟩ : t₅ = u ∧ t₁.size = copy := by simpa using h
  exact ⟨t₁, next, t₃, t₄, hnext, hchildren, hheaders, happlied, hcopy⟩

theorem plantNext_eq_ok {o : Option Outline} {next : Option ElementId}
    (h : plantNext t o = .ok (u, next)) : o = none ∧ t = u ∧ none = next ∨
      ∃ o' copy, o = some o' ∧ some copy = next ∧ plant t o' = .ok (u, copy) := by
  cases o with
  | none => exact .inl ⟨rfl, by simpa [plantNext] using h⟩
  | some o =>
    rw [plantNext] at h
    obtain ⟨⟨t₁, copy⟩, hone, h⟩ := Tree.bind_eq_ok.mp h
    obtain ⟨rfl, hnext⟩ : t₁ = u ∧ some copy = next := by simpa using h
    exact .inr ⟨o, copy, rfl, hnext, hone⟩

end Outline

namespace Tree

variable {t u : Tree} {id copy : ElementId}

/-- Planting what a tree shows of an element. -/
theorem plant_unfold_eq_ok {src : Tree} {n : Nat}
    (h : Outline.plant t (src.unfold (n + 1) id) = .ok (u, copy)) :
    ∃ node t₁ next t₃ t₄, src.get? id = some node ∧
      Outline.plantNext t (node.element.otherwise?.map (src.unfold n)) = .ok (t₁, next) ∧
      Outline.plantAll (t₁.create node.name (node.element.withOtherwise next)) t₁.size .children
        (node.children.map (src.unfold n)) = .ok t₃ ∧
      Outline.plantAll t₃ t₁.size .headerComments
        (node.headerComments.map (src.unfold n)) = .ok t₄ ∧
      Outline.plantAll t₄ t₁.size .attributes (node.attributes.map (src.unfold n)) = .ok u ∧
      t₁.size = copy := by
  rw [unfold] at h
  cases hid : src.get? id with
  | none => simp [hid, Outline.plant] at h
  | some node =>
    rw [hid] at h
    obtain ⟨t₁, next, t₃, t₄, hparts⟩ := Outline.plant_eq_ok h
    exact ⟨node, t₁, next, t₃, t₄, rfl, hparts⟩

variable {t u : Tree} {owner x : ElementId} {slot : Slot}

/-- The second tree has further elements, but the elements of the first one are of the same kind and
have the same parent as before. -/
structure Kept (t u : Tree) : Prop where
  size : t.size ≤ u.size
  roots : u.roots = t.roots
  kind : ∀ {x}, x < t.size → u.kind? x = t.kind? x
  parent : ∀ {x}, x < t.size → u.parent? x = t.parent? x

theorem Kept.refl (t : Tree) : Kept t t := ⟨Nat.le_refl _, rfl, fun _ ↦ rfl, fun _ ↦ rfl⟩

theorem Kept.trans {v : Tree} (h : Kept t u) (k : Kept u v) : Kept t v where
  size := Nat.le_trans h.size k.size
  roots := k.roots.trans h.roots
  kind hx := (k.kind (Nat.lt_of_lt_of_le hx h.size)).trans (h.kind hx)
  parent hx := (k.parent (Nat.lt_of_lt_of_le hx h.size)).trans (h.parent hx)

theorem Kept.free (h : Kept t u) (hx : t.Free x) : u.Free x where
  lt := Nat.lt_of_lt_of_le hx.lt h.size
  parent := by rw [h.parent hx.lt, hx.parent]
  not_mem_roots := by
    rw [h.roots]
    exact hx.not_mem_roots

theorem kept_create (name : Text) (e : Element) : Kept t (t.create name e) where
  size := by
    rw [size_create]
    exact Nat.le_succ _
  roots := rfl
  kind hx := by rw [kind?_create, if_neg (Nat.ne_of_lt hx)]
  parent _ := parent?_create name e _

/-- What planting something does to a tree with agreeing links. -/
structure Planted (t u : Tree) (copy : ElementId) (kind : Option Kind) : Prop where
  linked : u.Linked
  kept : Kept t u
  free : u.Free copy
  le : t.size ≤ copy
  kind : u.kind? copy = kind

variable {src : Tree} {n : Nat}

theorem linked_plantAll
    (ih : ∀ {t u : Tree} {id copy : ElementId}, t.Linked →
      Outline.plant t (src.unfold n id) = .ok (u, copy) → Planted t u copy (src.kind? id))
    (ids : List ElementId) (h : t.Linked) (hown : owner < t.size)
    (hadmits : ∀ x ∈ ids, ∃ k l, t.kind? owner = some k ∧ src.kind? x = some l ∧
      slot.admits k l = true)
    (hplant : Outline.plantAll t owner slot (ids.map (src.unfold n)) = .ok u) :
    u.Linked ∧ Kept t u := by
  induction ids generalizing t with
  | nil =>
    rw [List.map_nil, Outline.plantAll, Except.ok.injEq] at hplant
    subst hplant
    exact ⟨h, Kept.refl t⟩
  | cons x ids ihids =>
    rw [List.map_cons, Outline.plantAll] at hplant
    obtain ⟨⟨t₁, copy⟩, hone, hrest⟩ := bind_eq_ok.mp hplant
    have planted := ih h hone
    obtain ⟨k, l, hk, hl, hkl⟩ := hadmits x List.mem_cons_self
    have hown₁ : owner < t₁.size := Nat.lt_of_lt_of_le hown planted.kept.size
    have placed : Placed t₁ (t₁.appended owner slot copy) owner slot copy :=
      placed_appended hown₁ planted.free.lt
    have hlinked : (t₁.appended owner slot copy).Linked :=
      planted.linked.placed planted.free
        ⟨k, l, by rw [planted.kept.kind hown, hk], by rw [planted.kind, hl], hkl⟩ placed
    have hkept : Kept t (t₁.appended owner slot copy) := by
      refine ⟨?_, ?_, fun {y} hy ↦ ?_, fun {y} hy ↦ ?_⟩
      · rw [placed.size]
        exact planted.kept.size
      · rw [placed.roots, planted.kept.roots]
      · rw [placed.kind, planted.kept.kind hy]
      · have hne : y ≠ copy := Nat.ne_of_lt (Nat.lt_of_lt_of_le hy planted.le)
        rw [placed.parent, if_neg hne, planted.kept.parent hy]
    obtain ⟨hu, hku⟩ := ihids hlinked (by rw [placed.size]; exact hown₁)
      (fun y hy ↦ by
        rw [hkept.kind hown]
        exact hadmits y (List.mem_cons_of_mem x hy)) hrest
    exact ⟨hu, hkept.trans hku⟩

theorem linked_plantNext
    (ih : ∀ {t u : Tree} {id copy : ElementId}, t.Linked →
      Outline.plant t (src.unfold n id) = .ok (u, copy) → Planted t u copy (src.kind? id))
    {next : Option ElementId} {copied : Option ElementId} (h : t.Linked)
    (hplant : Outline.plantNext t (next.map (src.unfold n)) = .ok (u, copied)) :
    u.Linked ∧ Kept t u := by
  rcases Outline.plantNext_eq_ok hplant with ⟨-, rfl, -⟩ | ⟨o, copy, ho, -, hone⟩
  · exact ⟨h, Kept.refl t⟩
  · obtain ⟨id, -, rfl⟩ := Option.map_eq_some_iff.mp ho
    exact ⟨(ih h hone).linked, (ih h hone).kept⟩

/-- Planting an outline of a tree with agreeing links into a tree with agreeing links. The induction
is on the levels of the outline; the tree it was taken from stays fixed. -/
theorem planted_unfold (hsrc : src.Linked) (n : Nat) (h : t.Linked)
    (hplant : Outline.plant t (src.unfold n id) = .ok (u, copy)) :
    Planted t u copy (src.kind? id) := by
  induction n generalizing t u id copy with
  | zero => simp [unfold, Outline.plant] at hplant
  | succ n ih =>
    obtain ⟨node, t₁, next, t₃, t₄, hid, hnext, hchildren, hheaders, happlied, rfl⟩ :=
      plant_unfold_eq_ok hplant
    obtain ⟨hlinked₁, hkept₁⟩ := linked_plantNext ih h hnext
    have hlinked₂ := hlinked₁.create node.name (node.element.withOtherwise next)
    have hfree₂ := hlinked₁.free_create node.name (node.element.withOtherwise next)
    have hkind₂ : (t₁.create node.name (node.element.withOtherwise next)).kind? t₁.size
        = some node.kind := by
      rw [kind?_create, if_pos rfl, Element.kind_withOtherwise]
      rfl
    -- The copy is of the kind of its original, so its lists admit what those of the original do.
    have hadmits : ∀ {s : Slot} {t' : Tree}, t'.kind? t₁.size = some node.kind →
        ∀ x ∈ node.list s, ∃ k l, t'.kind? t₁.size = some k ∧ src.kind? x = some l ∧
          s.admits k l = true := by
      intro s t' hkind x hx
      rw [← listOf_of_get? hid] at hx
      obtain ⟨k, l, hk, hl, hkl⟩ := hsrc.admits_of_mem hx
      rw [kind?_of_get? hid] at hk
      exact ⟨k, l, hkind.trans hk, hl, hkl⟩
    obtain ⟨hlinked₃, hkept₃⟩ := linked_plantAll ih node.children hlinked₂ hfree₂.lt
      (hadmits (s := .children) hkind₂) hchildren
    have hkind₃ := (hkept₃.kind hfree₂.lt).trans hkind₂
    have hfree₃ := hkept₃.free hfree₂
    obtain ⟨hlinked₄, hkept₄⟩ := linked_plantAll ih node.headerComments hlinked₃ hfree₃.lt
      (hadmits (s := .headerComments) hkind₃) hheaders
    have hkind₄ := (hkept₄.kind hfree₃.lt).trans hkind₃
    have hfree₄ := hkept₄.free hfree₃
    obtain ⟨hlinked₅, hkept₅⟩ := linked_plantAll ih node.attributes hlinked₄ hfree₄.lt
      (hadmits (s := .attributes) hkind₄) happlied
    refine ⟨hlinked₅, ?_, hkept₅.free hfree₄, hkept₁.size, ?_⟩
    · exact hkept₁.trans ((kept_create _ _).trans (hkept₃.trans (hkept₄.trans hkept₅)))
    · rw [hkept₅.kind hfree₄.lt, hkind₄, kind?_of_get? hid]

end Tree

end SharpOutline
