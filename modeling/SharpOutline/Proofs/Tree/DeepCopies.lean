import SharpOutline.Proofs.Tree.Listings

/-!
# Copies are deep

A copy looks like its original: the outlines are the same up to the numbers of the elements, and no
element of the copy was there before. Nor does anything else change. This holds of every element
from which no way down leads back to itself, and fails of such an element only where it leads to an
element that is not there (`Tree.AcyclicBelow.exists_deepCopy`).

What is planted first must not change while the rest is planted. The elements of an outline get
increasing numbers, except that a next branch is planted before the element that leads to it; so
what has been planted is described by its outline in every tree that keeps the elements from a
number on (`Tree.Unfolds`). Planting into a list changes one older element, which is below that
number.
-/

namespace SharpOutline

open Relation

theorem Element.withOtherwise_withOtherwise (e : Element) (next next' : Option ElementId) :
    (e.withOtherwise next).withOtherwise next' = e.withOtherwise next' := by
  cases e <;> rfl

theorem Element.otherwise?_withOtherwise_eq {e : Element} {next : Option ElementId}
    (h : e.otherwise? = none → next = none) : (e.withOtherwise next).otherwise? = next := by
  cases e with
  | conditionDirective condition otherwise => rfl
  | _ => exact (h rfl).symm

theorem Node.modifyList_append (n : Node) (slot : Slot) (ids ids' : List ElementId) :
    (n.modifyList (· ++ ids) slot).modifyList (· ++ ids') slot =
      n.modifyList (· ++ (ids ++ ids')) slot := by
  cases slot <;> simp [Node.modifyList]

namespace Outline

theorem countAll_toList (o : Option Outline) : countAll o.toList = countNext o := by
  cases o <;> simp [countAll, countNext]

/-! ## Gaps cannot be planted -/

theorem bind_eq_error {α β : Type} {a : Except Refusal α} {f : α → Except Refusal β} {r : Refusal}
    (h : (a >>= f) = .error r) : a = .error r ∨ ∃ v, a = .ok v ∧ f v = .error r := by
  cases a with
  | error r' => exact .inl (by simpa [bind, Except.bind] using h)
  | ok v => exact .inr ⟨v, rfl, h⟩

mutual

theorem exists_mem_gaps_of_plant : ∀ (o : Outline) {t : Tree} {r : Refusal},
    plant t o = .error r → ∃ y ∈ o.gaps, r = .unknownElement y
  | gap id, _, r, h => by
    obtain rfl : Refusal.unknownElement id = r := by simpa [plant] using h
    exact ⟨id, by simp [gaps], rfl⟩
  | node _ _ _ headers applied children otherwise, _, r, h => by
    simp only [plant] at h
    simp only [gaps, List.mem_append]
    rcases bind_eq_error h with h | ⟨⟨t₁, next⟩, -, h⟩
    · obtain ⟨y, hy, hr⟩ := exists_mem_gaps_of_plantNext otherwise h
      exact ⟨y, .inr hy, hr⟩
    rcases bind_eq_error h with h | ⟨t₃, -, h⟩
    · obtain ⟨y, hy, hr⟩ := exists_mem_gaps_of_plantAll children h
      exact ⟨y, .inl (.inr hy), hr⟩
    rcases bind_eq_error h with h | ⟨t₄, -, h⟩
    · obtain ⟨y, hy, hr⟩ := exists_mem_gaps_of_plantAll headers h
      exact ⟨y, .inl (.inl (.inl hy)), hr⟩
    rcases bind_eq_error h with h | ⟨t₅, -, h⟩
    · obtain ⟨y, hy, hr⟩ := exists_mem_gaps_of_plantAll applied h
      exact ⟨y, .inl (.inl (.inr hy)), hr⟩
    · cases h

theorem exists_mem_gaps_of_plantAll : ∀ (os : List Outline) {t : Tree} {owner : ElementId}
    {slot : Slot} {r : Refusal}, plantAll t owner slot os = .error r →
      ∃ y ∈ gapsAll os, r = .unknownElement y
  | [], _, _, _, _, h => by simp [plantAll] at h
  | o :: os, _, _, _, r, h => by
    rw [plantAll] at h
    simp only [gapsAll, List.mem_append]
    rcases bind_eq_error h with h | ⟨⟨t₁, c⟩, -, h⟩
    · obtain ⟨y, hy, hr⟩ := exists_mem_gaps_of_plant o h
      exact ⟨y, .inl hy, hr⟩
    · obtain ⟨y, hy, hr⟩ := exists_mem_gaps_of_plantAll os h
      exact ⟨y, .inr hy, hr⟩

theorem exists_mem_gaps_of_plantNext : ∀ (o : Option Outline) {t : Tree} {r : Refusal},
    plantNext t o = .error r → ∃ y ∈ gapsNext o, r = .unknownElement y
  | none, _, _, h => by simp [plantNext] at h
  | some o, _, r, h => by
    rw [plantNext] at h
    rcases bind_eq_error h with h | ⟨⟨t₁, c⟩, -, h⟩
    · exact exists_mem_gaps_of_plant o h
    · cases h

end

end Outline

namespace Tree

open Outline

-- Numbers of elements are compared in this file, so they are plain numbers here.
variable {t u v src : Tree} {low n id c owner : Nat} {ids ids' : List Nat} {os os' : List Outline}
  {slot : Slot}

/-! ## Elements that stay as they are -/

/-- The second tree has the elements of the first one, as they were, and its roots. -/
structure Intact (t u : Tree) : Prop where
  roots : u.roots = t.roots
  get?_eq : ∀ x : Nat, x < t.size → u.get? x = t.get? x

/-- All that has changed in the first tree is that one list of one element has gained others. -/
structure Gained (t u : Tree) (owner : Nat) (slot : Slot) (ids : List Nat) : Prop where
  roots : u.roots = t.roots
  get?_of_ne : ∀ x : Nat, x < t.size → x ≠ owner → u.get? x = t.get? x
  get?_owner : u.get? owner = (t.get? owner).map (·.modifyList (· ++ ids) slot)

theorem Gained.keeps (h : Gained t u owner slot ids) (howner : owner < low) : Keeps t u low :=
  keeps_of_get?_eq fun x hx hlt ↦ h.get?_of_ne x hlt (Nat.ne_of_gt (Nat.lt_of_lt_of_le howner hx))

/-! ## Unfolding what was planted -/

/-- In every tree that keeps the elements from `low` on, the elements look like the outlines. -/
def Unfolds (t : Tree) (low : Nat) (ids : List Nat) (os : List Outline) : Prop :=
  ∀ (v : Tree) (k : Nat), Keeps t v low → countAll os ≤ k →
    unnumberedAll (ids.map (v.unfold k)) = unnumberedAll os

namespace Unfolds

theorem nil : Unfolds t low [] [] := fun _ _ _ _ ↦ rfl

theorem keep (h : Unfolds t low ids os) (hu : Keeps t u low) : Unfolds u low ids os :=
  fun v k hv hk ↦ h v k (hu.trans hv) hk

theorem mono {low' : Nat} (h : Unfolds t low ids os) (hle : low' ≤ low) : Unfolds t low' ids os :=
  fun v k hv hk ↦ h v k (hv.mono hle) hk

theorem append (h : Unfolds t low ids os) (h' : Unfolds t low ids' os') :
    Unfolds t low (ids ++ ids') (os ++ os') := by
  intro v k hv hk
  rw [countAll_append] at hk
  have hids := h v k hv (by omega)
  have hids' := h' v k hv (by omega)
  simp only [unnumberedAll_eq_map, List.map_append] at hids hids' ⊢
  rw [hids, hids']

/-- An element looks like an outline if its lists and its next branch look like the parts. -/
theorem node {node : Node} {element : Element} {headers applied children : List Outline}
    {otherwise : Option Outline} (hc : low ≤ c) (hnode : t.get? c = some node)
    (helement : node.element.withOtherwise none = element.withOtherwise none)
    (hheaders : Unfolds t low node.headerComments headers)
    (happlied : Unfolds t low node.attributes applied)
    (hchildren : Unfolds t low node.children children)
    (hnext : Unfolds t low node.element.otherwise?.toList otherwise.toList) :
    Unfolds t low [c] [.node id node.name element headers applied children otherwise] := by
  intro v k hv hk
  obtain ⟨kept, hkept, heq⟩ := Option.map_eq_some_iff.mp (hv c node hc hnode)
  obtain ⟨kname, kchildren, kheaders, kapplied, kelement⟩ := Node.unplaced_eq_iff.mp heq
  simp only [countAll, count] at hk
  obtain ⟨k, rfl⟩ : ∃ m, k = m + 1 := ⟨k - 1, by omega⟩
  have hbranch : unnumberedNext (node.element.otherwise?.map (v.unfold k)) =
      unnumberedNext otherwise := by
    have hbranches := hnext v k hv (by rw [countAll_toList]; omega)
    cases hb : node.element.otherwise? <;> cases otherwise <;>
      simp_all [unnumberedAll, unnumberedNext]
  simp only [List.map_cons, List.map_nil, unfold, hkept, unnumberedAll, unnumbered, kname,
    kchildren, kheaders, kapplied, kelement, helement]
  rw [hheaders v k hv (by omega), happlied v k hv (by omega), hchildren v k hv (by omega), hbranch]

end Unfolds

/-- The tree has got the elements of some outlines, and they look like that. -/
structure Grafted (t u : Tree) (ids : List Nat) (os : List Outline) : Prop where
  size : u.size = t.size + countAll os
  unfolds : Unfolds u t.size ids os

theorem Grafted.nil : Grafted t t [] [] := ⟨rfl, .nil⟩

/-! ## Planting -/

section Induction

-- What planting does at one level less.
variable (ih : ∀ {t u : Tree} {id c : Nat}, plant t (src.unfold n id) = .ok (u, c) →
  Intact t u ∧ t.size ≤ c ∧ Grafted t u [c] [src.unfold n id])

include ih

theorem grafted_plantAll (sources : List Nat) (howner : owner < t.size)
    (hplant : plantAll t owner slot (sources.map (src.unfold n)) = .ok u) :
    ∃ ids, Gained t u owner slot ids ∧ Grafted t u ids (sources.map (src.unfold n)) := by
  induction sources generalizing t with
  | nil =>
    obtain rfl : t = u := by simpa [plantAll] using hplant
    refine ⟨[], ⟨rfl, fun _ _ _ ↦ rfl, ?_⟩, .nil⟩
    cases t.get? owner <;> cases slot <;> simp [Node.modifyList]
  | cons id sources ihsources =>
    rw [List.map_cons, plantAll] at hplant
    obtain ⟨⟨t₁, c⟩, hone, hrest⟩ := bind_eq_ok.mp hplant
    obtain ⟨hintact, hc, hone⟩ := ih hone
    have hsize : t.size ≤ t₁.size := by
      rw [hone.size]
      exact Nat.le_add_right _ _
    obtain ⟨ids, hgained, hrest⟩ :=
      ihsources (t := t₁.appended owner slot c) (by rw [size_appended]; omega) hrest
    have hne : owner ≠ c := by omega
    -- Nothing that was planted is the owner, so it stays as it is while the rest is planted.
    have happended : Keeps t₁ (t₁.adopted owner slot [c]) t.size :=
      keeps_adopted (by simpa using hne) fun x hx _ ↦ by omega
    have hkeeps : Keeps t₁ u t.size := happended.trans (hgained.keeps howner)
    refine ⟨c :: ids, ⟨?_, fun x hx hxo ↦ ?_, ?_⟩, ?_, ?_⟩
    · rw [hgained.roots, roots_appended, hintact.roots]
    · rw [hgained.get?_of_ne x (by rw [size_appended]; omega) hxo, get?_appended hne,
        hintact.get?_eq x hx]
      have hxc : x ∉ [c] := by
        rw [List.mem_singleton]
        omega
      cases t.get? x with
      | none => rfl
      | some node => rw [Option.map_some, adopting_of_not_mem hxo hxc]
    · rw [hgained.get?_owner, get?_appended hne, hintact.get?_eq owner howner]
      cases t.get? owner with
      | none => rfl
      | some node =>
        rw [Option.map_some, Option.map_some, Option.map_some, adopting, if_pos rfl,
          Node.modifyList_append, List.singleton_append]
    · rw [hrest.size, size_appended, hone.size, List.map_cons]
      simp only [countAll]
      omega
    · refine (hone.unfolds.keep hkeeps).append (hrest.unfolds.mono ?_)
      rw [size_appended]
      exact hsize

theorem grafted_plantNext {source next : Option Nat}
    (hplant : plantNext t (source.map (src.unfold n)) = .ok (u, next)) :
    Intact t u ∧ Grafted t u next.toList (source.map (src.unfold n)).toList ∧
      (source = none → next = none) := by
  rcases plantNext_eq_ok hplant with ⟨hnone, rfl, rfl⟩ | ⟨o, c, ho, rfl, hone⟩
  · rw [hnone]
    exact ⟨⟨rfl, fun _ _ ↦ rfl⟩, .nil, fun _ ↦ rfl⟩
  · obtain ⟨b, rfl, rfl⟩ := Option.map_eq_some_iff.mp ho
    obtain ⟨hintact, -, hgrafted⟩ := ih hone
    exact ⟨hintact, hgrafted, nofun⟩

end Induction

theorem grafted_node {t₁ t₃ t₄ t₅ : Tree} {name : Text} {element : Element} {next : Option Nat}
    {otherwise : Option Outline} {children headers applied : List Outline}
    {ids₃ ids₄ ids₅ : List Nat} (hintact : Intact t t₁)
    (hnext : Grafted t t₁ next.toList otherwise.toList)
    (hbranch : (element.withOtherwise next).otherwise? = next)
    (hgained₃ : Gained (t₁.create name (element.withOtherwise next)) t₃ t₁.size .children ids₃)
    (hchildren : Grafted (t₁.create name (element.withOtherwise next)) t₃ ids₃ children)
    (hgained₄ : Gained t₃ t₄ t₁.size .headerComments ids₄) (hheaders : Grafted t₃ t₄ ids₄ headers)
    (hgained₅ : Gained t₄ t₅ t₁.size .attributes ids₅) (happlied : Grafted t₄ t₅ ids₅ applied) :
    Intact t t₅ ∧ t.size ≤ t₁.size ∧
      Grafted t t₅ [t₁.size] [.node id name element headers applied children otherwise] := by
  have hsize₁ := hnext.size
  have hsize₃ := hchildren.size
  have hsize₄ := hheaders.size
  have hsize₅ := happlied.size
  rw [size_create] at hsize₃
  have hold : ∀ x, x < t₁.size → t₅.get? x = t₁.get? x := by
    intro x hx
    have hne : x ≠ t₁.size := Nat.ne_of_lt hx
    rw [hgained₅.get?_of_ne x (by omega) hne, hgained₄.get?_of_ne x (by omega) hne,
      hgained₃.get?_of_ne x (by rw [size_create]; omega) hne, get?_create, if_neg hne]
  have hnode : t₅.get? t₁.size = some
      { name := name, children := ids₃, headerComments := ids₄, attributes := ids₅,
        element := element.withOtherwise next } := by
    rw [hgained₅.get?_owner, hgained₄.get?_owner, hgained₃.get?_owner, get?_create, if_pos rfl]
    rfl
  have hkeeps₄ : Keeps t₄ t₅ t₃.size := hgained₅.keeps (by omega)
  have hkeeps₃ : Keeps t₃ t₅ (t₁.size + 1) :=
    (hgained₄.keeps (by omega)).trans (hgained₅.keeps (by omega))
  have hkeeps₁ : Keeps t₁ t₅ t.size := keeps_of_get?_eq fun x _ hx ↦ hold x hx
  refine ⟨⟨?_, fun x hx ↦ ?_⟩, by omega, ?_, ?_⟩
  · rw [hgained₅.roots, hgained₄.roots, hgained₃.roots]
    exact hintact.roots
  · rw [hold x (by omega), hintact.get?_eq x hx]
  · rw [countAll_toList] at hsize₁
    simp only [countAll, count]
    omega
  · have hunfolds₃ := hchildren.unfolds
    rw [size_create] at hunfolds₃
    refine Unfolds.node (by omega) hnode ?_ ?_ ?_ ?_ ?_
    · exact element.withOtherwise_withOtherwise next none
    · exact (hheaders.unfolds.keep hkeeps₄).mono (by omega)
    · exact happlied.unfolds.mono (by omega)
    · exact (hunfolds₃.keep hkeeps₃).mono (by omega)
    · rw [hbranch]
      exact hnext.unfolds.keep hkeeps₁

/-- **What is planted looks like the outline** of its original. -/
theorem grafted_unfold (n : Nat) {t u : Tree} {id c : Nat}
    (hplant : plant t (src.unfold n id) = .ok (u, c)) :
    Intact t u ∧ t.size ≤ c ∧ Grafted t u [c] [src.unfold n id] := by
  induction n generalizing t u id c with
  | zero => simp [unfold, plant] at hplant
  | succ n ih =>
    obtain ⟨node, t₁, next, t₃, t₄, hid, hnext, hchildren, hheaders, happlied, rfl⟩ :=
      plant_unfold_eq_ok hplant
    simp only [unfold, hid]
    obtain ⟨hintact, hgrafted₁, hnone⟩ := grafted_plantNext ih hnext
    have hc₂ : t₁.size < (t₁.create node.name (node.element.withOtherwise next)).size := by
      rw [size_create]
      exact Nat.lt_succ_self _
    obtain ⟨ids₃, hgained₃, hgrafted₃⟩ := grafted_plantAll ih node.children hc₂ hchildren
    have hc₃ : t₁.size < t₃.size := by
      rw [hgrafted₃.size]
      exact Nat.lt_add_right _ hc₂
    obtain ⟨ids₄, hgained₄, hgrafted₄⟩ := grafted_plantAll ih node.headerComments hc₃ hheaders
    have hc₄ : t₁.size < t₄.size := by
      rw [hgrafted₄.size]
      exact Nat.lt_add_right _ hc₃
    obtain ⟨ids₅, hgained₅, hgrafted₅⟩ := grafted_plantAll ih node.attributes hc₄ happlied
    exact grafted_node hintact hgrafted₁ (Element.otherwise?_withOtherwise_eq hnone) hgained₃
      hgrafted₃ hgained₄ hgrafted₄ hgained₅ hgrafted₅

/-! ## Copies -/

/-- The second tree is the first one with a copy of an element and of everything that hangs from it,
and the copy stands nowhere. -/
structure DeepCopy (t u : Tree) (id c : Nat) : Prop where
  /-- Everything that hangs from the element can be shown. -/
  whole : (t.outline id).isWhole = true
  /-- The copy looks like the element: names, data, and the lists in their order are the same, and a
  next branch is the copy of the next branch. -/
  outline : (u.outline c).unnumbered = (t.outline id).unnumbered
  /-- Nothing in the copy was there before. -/
  fresh : ∀ x, ReflTransGen u.Owns c x → t.size ≤ x
  /-- Nothing but the copy is there now that was not there before. -/
  size : u.size = t.size + (t.outline id).count
  free : u.Free c
  intact : Intact t u
  linked : u.Linked

/-- What hangs from a copy is new, because an element that was there before belongs to one that was
there before. -/
theorem size_le_of_copy (hlinked : t.Linked) (hcopy : t.copy id = .ok (u, c)) (hu : u.Linked)
    (hintact : Intact t u) (hc : t.size ≤ c) {x : Nat} (hx : ReflTransGen u.Owns c x) :
    t.size ≤ x := by
  induction hx with
  | refl => exact hc
  | @tail p x _ hown hp =>
    rcases hown with ⟨slot, hmem⟩ | hbranch
    · refine Nat.not_lt.mp fun hlt ↦ ?_
      have hparent := hu.parent_of_mem hmem
      rw [parent?, hintact.get?_eq x hlt, ← parent?] at hparent
      obtain ⟨slot, hmem⟩ := hlinked.exists_mem_listOf hparent
      exact Nat.not_lt.mpr hp (lt_of_mem_listOf hmem)
    · exact (sprouting_copy hcopy).2.fresh hp hbranch

theorem deepCopy_of_copy (hlinked : t.Linked) (hwhole : (t.outline id).isWhole = true)
    (hcopy : t.copy id = .ok (u, c)) : DeepCopy t u id c := by
  obtain ⟨hintact, hc, hgrafted⟩ := grafted_unfold t.size hcopy
  have planted := planted_unfold hlinked t.size hlinked hcopy
  have hsize : u.size = t.size + (t.outline id).count := by
    rw [hgrafted.size]
    simp [countAll, Tree.outline]
  refine ⟨hwhole, ?_, fun x hx ↦ ?_, hsize, planted.free, hintact, planted.linked⟩
  · have hkeeps : Keeps u u t.size := keeps_of_get?_eq fun _ _ _ ↦ rfl
    have hall := hgrafted.unfolds u u.size hkeeps (by rw [hgrafted.size]; omega)
    exact (List.cons.inj hall).1
  · exact size_le_of_copy hlinked hcopy planted.linked hintact hc hx

theorem AcyclicBelow.exists_of_copy_eq_error {r : Refusal} (hacyclic : t.AcyclicBelow id)
    (hcopy : t.copy id = .error r) :
    ∃ x, ReflTransGen t.Owns id x ∧ t.size ≤ x ∧ r = .unknownElement x := by
  obtain ⟨x, hx, hr⟩ := exists_mem_gaps_of_plant _ hcopy
  obtain ⟨hreached, hsize⟩ := hacyclic.size_le_of_mem_gaps hx
  exact ⟨x, hreached, hsize, hr⟩

/-- If everything that hangs from an element is there, the element is copied. -/
theorem AcyclicBelow.exists_copy (hlinked : t.Linked) (hacyclic : t.AcyclicBelow id)
    (hknown : ∀ x, ReflTransGen t.Owns id x → x < t.size) :
    ∃ u c, t.copy id = .ok (u, c) ∧ DeepCopy t u id c := by
  cases hcopy : t.copy id with
  | error r =>
    obtain ⟨x, hx, hsize, -⟩ := hacyclic.exists_of_copy_eq_error hcopy
    exact absurd (hknown x hx) (Nat.not_lt.mpr hsize)
  | ok result =>
    obtain ⟨u, c⟩ := result
    exact ⟨u, c, rfl, deepCopy_of_copy hlinked (hacyclic.isWhole_outline hknown) hcopy⟩

/-- **Copies are deep.** In a tree with agreeing links, an element from which no way down leads back
to itself is copied with everything that hangs from it, if all of that is there; and it is refused
only for something that hangs from it and is not there. -/
theorem AcyclicBelow.exists_deepCopy (t : Tree) (id : Nat) (hlinked : t.Linked)
    (hacyclic : t.AcyclicBelow id) :
    ((∀ x, ReflTransGen t.Owns id x → x < t.size) →
        ∃ u c, t.copy id = .ok (u, c) ∧ DeepCopy t u id c) ∧
      ∀ r, t.copy id = .error r →
        ∃ x, ReflTransGen t.Owns id x ∧ t.size ≤ x ∧ r = .unknownElement x :=
  ⟨hacyclic.exists_copy hlinked, fun _ ↦ hacyclic.exists_of_copy_eq_error⟩

/-- A namespace with a conditional, and in its last branch a delegate type with a comment above it
and an attribute. -/
def decorated : List Edit :=
  [.create ['N'] (.nameSpace false), .create [] (.conditionDirective (some ['A']) none),
    .create [] (.conditionDirective none none),
    .create ['D'] (.delegate ⟨.toAll, .empty, ['T'], [], []⟩),
    .create [] (.comment ⟨.line, ['c']⟩), .create ['X'] (.attributeUse ⟨none, none⟩),
    .addChild 0 1, .setOtherwise 1 (some 2), .addChild 2 3, .addHeaderComment 3 4,
    .addAttribute 3 5, .addRoot 0]

theorem owns_decorated {p x : Nat} (h : (built decorated).Owns p x) : p < x ∧ x < 6 := by
  have hbelow : ∀ p < 6, ∀ x ∈ (built decorated).listOf p .children ++
      (built decorated).listOf p .headerComments ++ (built decorated).listOf p .attributes ++
      ((built decorated).otherwise? p).toList, p < x ∧ x < 6 := by decide +kernel
  refine hbelow p h.lt x ?_
  rcases h with ⟨slot, hmem⟩ | hbranch
  · cases slot <;> simp [hmem]
  · simp [hbranch]

theorem acyclicBelow_decorated : (built decorated).AcyclicBelow 1 := by
  have hincreasing : ∀ {p x}, TransGen (built decorated).Owns p x → p < x := by
    intro p x h
    induction h with
    | single h => exact (owns_decorated h).1
    | tail _ h ih => exact Nat.lt_trans ih (owns_decorated h).1
  exact fun y _ hy ↦ Nat.lt_irrefl y (hincreasing hy)

theorem lt_of_reached_decorated {x : Nat} (hx : ReflTransGen (built decorated).Owns 1 x) :
    x < (built decorated).size := by
  rcases hx.cases_tail with rfl | ⟨p, -, hpx⟩
  · decide
  · exact (owns_decorated hpx).2

theorem exists_deepCopy_decorated :
    (built decorated).Linked ∧ (built decorated).AcyclicBelow 1 ∧
      ∃ u c, (built decorated).copy 1 = .ok (u, c) ∧ DeepCopy (built decorated) u 1 c := by
  have hlinked : (built decorated).Linked := Linked.empty.foldl_edited decorated
  exact ⟨hlinked, acyclicBelow_decorated, (AcyclicBelow.exists_deepCopy _ 1 hlinked
    acyclicBelow_decorated).1 fun _ ↦ lt_of_reached_decorated⟩

end Tree

end SharpOutline
