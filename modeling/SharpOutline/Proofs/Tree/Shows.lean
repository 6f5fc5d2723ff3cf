import SharpOutline.Proofs.Tree.Edits

/-!
# What an element looks like

The outline of an element is unfolded from the whole tree, so a fact about it is a fact about all
elements that hang from it. `Tree.Shows` says the same without unfolding anything: an element shows
an outline if its data are those of the outline, up to the numbers of elements, and the elements it
refers to show the parts. All elements involved have numbers from a bound on, so that changes below
the bound do not matter (`Tree.Shows.keep`).

An outline that is shown is the one that is unfolded, provided that the tree has enough elements to
unfold it to the end (`Tree.unnumbered_unfold`).
-/

namespace SharpOutline

namespace Outline

/-! ## Outlines without numbers -/

mutual

/-- The outline without the numbers of its elements. -/
def unnumbered : Outline → Outline
  | gap _ => gap 0
  | node _ name element headers applied children otherwise =>
    node 0 name (element.withOtherwise none) (unnumberedAll headers) (unnumberedAll applied)
      (unnumberedAll children) (unnumberedNext otherwise)

def unnumberedAll : List Outline → List Outline
  | [] => []
  | o :: os => o.unnumbered :: unnumberedAll os

def unnumberedNext : Option Outline → Option Outline
  | none => none
  | some o => some o.unnumbered

end

theorem unnumberedAll_eq_map (os : List Outline) : unnumberedAll os = os.map unnumbered := by
  induction os with
  | nil => rfl
  | cons o os ih => rw [unnumberedAll, ih, List.map_cons]

/-! ## The number of elements -/

mutual

/-- The number of elements in an outline, with those above a declaration. -/
def count : Outline → Nat
  | gap _ => 0
  | node _ _ _ headers applied children otherwise =>
    1 + countAll headers + countAll applied + countAll children + countNext otherwise

def countAll : List Outline → Nat
  | [] => 0
  | o :: os => o.count + countAll os

def countNext : Option Outline → Nat
  | none => 0
  | some o => o.count

end

@[simp] theorem countAll_append (os ps : List Outline) :
    countAll (os ++ ps) = countAll os + countAll ps := by
  induction os with
  | nil => simp [countAll]
  | cons o os ih => simp [countAll, ih, Nat.add_assoc]

end Outline

/-- The node without its place. -/
def Node.unplaced (n : Node) : Node := { n with parent := none }

theorem Node.unplaced_eq_iff {n k : Node} : n.unplaced = k.unplaced ↔ n.name = k.name ∧
    n.children = k.children ∧ n.headerComments = k.headerComments ∧
      n.attributes = k.attributes ∧ n.element = k.element := by
  simp [unplaced]

namespace Tree

-- Numbers of elements are compared in this file, so they are plain numbers here.
variable {t u : Tree} {low : Nat}

/-! ## Showing an outline -/

mutual

/-- The element looks like the outline. No element of it has a number below `low`, and what hangs
beneath an element has a greater number than that. -/
def Shows (t : Tree) (low : Nat) : Outline → Nat → Prop
  | .gap _, _ => False
  | .node _ name element headers applied children otherwise, id =>
    low ≤ id ∧ ∃ n, t.get? id = some n ∧ n.name = name ∧
      n.element.withOtherwise none = element.withOtherwise none ∧
      ShowsAll t low headers n.headerComments ∧ ShowsAll t low applied n.attributes ∧
      ShowsAll t (id + 1) children n.children ∧ ShowsNext t (id + 1) otherwise n.element.otherwise?

def ShowsAll (t : Tree) (low : Nat) : List Outline → List Nat → Prop
  | [], ids => ids = []
  | o :: os, ids => ∃ id later, ids = id :: later ∧ Shows t low o id ∧ ShowsAll t low os later

/-- There is a next branch if and only if the outline has one, and it looks like that. -/
def ShowsNext (t : Tree) (low : Nat) : Option Outline → Option Nat → Prop
  | none, branch => branch = none
  | some o, branch => ∃ id, branch = some id ∧ Shows t low o id

end

theorem Shows.le {o : Outline} {id : Nat} (h : t.Shows low o id) : low ≤ id ∧ id < t.size := by
  cases o with
  | gap k => exact h.elim
  | node k name e hs as cs o =>
    obtain ⟨hle, n, hn, -⟩ := h
    exact ⟨hle, lt_of_get? hn⟩

theorem Shows.kind? {o : Outline} {id : Nat} (h : t.Shows low o id) : t.kind? id = o.kind? := by
  cases o with
  | gap k => exact h.elim
  | node k name e hs as cs o =>
    obtain ⟨-, n, hn, -, he, -⟩ := h
    have hkind := congrArg Element.kind he
    rw [Element.kind_withOtherwise, Element.kind_withOtherwise] at hkind
    rw [kind?_of_get? hn, Node.kind, hkind]
    rfl

theorem ShowsAll.exists_of_mem {os : List Outline} {ids : List Nat} (h : t.ShowsAll low os ids) :
    ∀ id ∈ ids, ∃ o ∈ os, t.Shows low o id := by
  induction os generalizing ids with
  | nil =>
    obtain rfl : ids = [] := h
    simp
  | cons o os ih =>
    obtain ⟨x, later, rfl, hx, hlater⟩ := h
    intro id hid
    rcases List.mem_cons.mp hid with rfl | hid
    · exact ⟨o, by simp, hx⟩
    · obtain ⟨o', ho', hshows⟩ := ih hlater id hid
      exact ⟨o', by simp [ho'], hshows⟩

theorem ShowsAll.append {os os' : List Outline} {ids ids' : List Nat} (h : t.ShowsAll low os ids)
    (h' : t.ShowsAll low os' ids') : t.ShowsAll low (os ++ os') (ids ++ ids') := by
  induction os generalizing ids with
  | nil =>
    obtain rfl : ids = [] := h
    exact h'
  | cons o os ih =>
    obtain ⟨x, later, rfl, hx, hlater⟩ := h
    exact ⟨x, later ++ ids', rfl, hx, ih hlater⟩

/-! ## Changes that do not matter -/

/-- From a number on, all elements are still there, if not in their places. -/
def Keeps (t u : Tree) (low : Nat) : Prop :=
  ∀ (x : Nat) (n : Node), low ≤ x → t.get? x = some n →
    (u.get? x).map Node.unplaced = some n.unplaced

theorem Keeps.mono {low' : Nat} (h : Keeps t u low) (hle : low ≤ low') : Keeps t u low' :=
  fun x n hx hn ↦ h x n (Nat.le_trans hle hx) hn

mutual

theorem Shows.keep : ∀ {low : Nat}, Keeps t u low → ∀ (o : Outline) (id : Nat),
    t.Shows low o id → u.Shows low o id
  | _, _, .gap _, _, hs => hs
  | _, h, .node _ _ _ hs as cs o, id,
      ⟨hle, n, hn, hname, he, hheaders, happlied, hchildren, hnext⟩ => by
    obtain ⟨k, hk, hkn⟩ := Option.map_eq_some_iff.mp (h id n hle hn)
    obtain ⟨kname, kchildren, kheaders, kapplied, kelement⟩ := Node.unplaced_eq_iff.mp hkn
    have hbeneath := h.mono (Nat.le_succ_of_le hle)
    refine ⟨hle, k, hk, kname.trans hname, by rw [kelement, he], ?_, ?_, ?_, ?_⟩
    · exact kheaders ▸ ShowsAll.keep h hs _ hheaders
    · exact kapplied ▸ ShowsAll.keep h as _ happlied
    · exact kchildren ▸ ShowsAll.keep hbeneath cs _ hchildren
    · exact kelement ▸ ShowsNext.keep hbeneath o _ hnext

theorem ShowsAll.keep : ∀ {low : Nat}, Keeps t u low → ∀ (os : List Outline) (ids : List Nat),
    t.ShowsAll low os ids → u.ShowsAll low os ids
  | _, _, [], _, hs => hs
  | _, h, o :: os, _, ⟨id, later, hids, hid, hlater⟩ =>
    ⟨id, later, hids, Shows.keep h o id hid, ShowsAll.keep h os later hlater⟩

theorem ShowsNext.keep : ∀ {low : Nat}, Keeps t u low → ∀ (o : Option Outline)
    (branch : Option Nat), t.ShowsNext low o branch → u.ShowsNext low o branch
  | _, _, none, _, hs => hs
  | _, h, some o, _, ⟨id, hid, hs⟩ => ⟨id, hid, Shows.keep h o id hs⟩

end

mutual

theorem Shows.mono {low' : Nat} (h : low' ≤ low) :
    ∀ (o : Outline) (id : Nat), t.Shows low o id → t.Shows low' o id
  | .gap _, _, hs => hs
  | .node _ _ _ hs as _ _, _, ⟨hle, n, hn, hname, he, hheaders, happlied, hbeneath⟩ =>
    ⟨Nat.le_trans h hle, n, hn, hname, he, ShowsAll.mono h hs _ hheaders,
      ShowsAll.mono h as _ happlied, hbeneath⟩

theorem ShowsAll.mono {low' : Nat} (h : low' ≤ low) :
    ∀ (os : List Outline) (ids : List Nat), t.ShowsAll low os ids → t.ShowsAll low' os ids
  | [], _, hs => hs
  | o :: os, _, ⟨id, later, hids, hid, hlater⟩ =>
    ⟨id, later, hids, Shows.mono h o id hid, ShowsAll.mono h os later hlater⟩

end

theorem ShowsNext.mono {low' : Nat} (h : low' ≤ low) {o : Option Outline} {branch : Option Nat}
    (hs : t.ShowsNext low o branch) : t.ShowsNext low' o branch := by
  cases o with
  | none => exact hs
  | some o =>
    obtain ⟨id, hid, hs⟩ := hs
    exact ⟨id, hid, Shows.mono h o id hs⟩

/-! ## Unfolding -/

mutual

/-- What is unfolded far enough is what is shown. -/
theorem unnumbered_unfold : ∀ {low : Nat} (o : Outline) (id k : Nat), t.Shows low o id →
    o.count ≤ k → (t.unfold k id).unnumbered = o.unnumbered
  | _, .gap _, _, _, hs, _ => hs.elim
  | _, .node _ _ _ _ _ _ _, _, 0, _, hk => by simp [Outline.count] at hk
  | _, .node _ _ e hs as cs o, id, k + 1, hshows, hk => by
    obtain ⟨-, n, hn, hname, he, hheaders, happlied, hchildren, hnext⟩ := hshows
    rw [Outline.count] at hk
    rw [unfold, hn]
    simp only [Outline.unnumbered, hname, he]
    rw [unnumberedAll_map_unfold hs _ k hheaders (by omega),
      unnumberedAll_map_unfold as _ k happlied (by omega),
      unnumberedAll_map_unfold cs _ k hchildren (by omega),
      unnumberedNext_map_unfold o _ k hnext (by omega)]

theorem unnumberedAll_map_unfold : ∀ {low : Nat} (os : List Outline) (ids : List Nat) (k : Nat),
    t.ShowsAll low os ids → Outline.countAll os ≤ k →
      Outline.unnumberedAll (ids.map (t.unfold k)) = Outline.unnumberedAll os
  | _, [], _, _, hs, _ => by
    obtain rfl := hs
    rfl
  | _, o :: os, _, k, ⟨id, later, hids, hid, hlater⟩, hk => by
    rw [Outline.countAll] at hk
    rw [hids, List.map_cons, Outline.unnumberedAll, Outline.unnumberedAll,
      unnumbered_unfold o id k hid (by omega),
      unnumberedAll_map_unfold os later k hlater (by omega)]

theorem unnumberedNext_map_unfold : ∀ {low : Nat} (o : Option Outline) (branch : Option Nat)
    (k : Nat), t.ShowsNext low o branch → Outline.countNext o ≤ k →
      Outline.unnumberedNext (branch.map (t.unfold k)) = Outline.unnumberedNext o
  | _, none, _, _, hs, _ => by
    obtain rfl := hs
    rfl
  | _, some o, _, k, ⟨id, hid, hs⟩, hk => by
    rw [Outline.countNext] at hk
    rw [hid, Option.map_some, Outline.unnumberedNext, Outline.unnumberedNext,
      unnumbered_unfold o id k hs hk]

end

end Tree

end SharpOutline
