import SharpOutline.Proofs.Tree.Append
import SharpOutline.Proofs.Tree.Copies

/-!
# Ancestors

Following the parents of an element should never lead back to it (`Tree.Acyclic`); a walk through
the parents then comes to an end. Most edits cannot change this, because they only take parents away
or add elements of their own. An edit that puts an element into a list of another one closes a
circle exactly if that other one lies beneath it (`Tree.acyclic_moved_iff`). This is tested before
an element becomes a child, but not before it becomes a comment or an attribute. So a history stays
without circles exactly as long as no comment and no attribute is given to an element that lies
beneath it (`Tree.acyclic_built_iff`).
-/

namespace SharpOutline

namespace Tree

variable {t u : Tree} {id owner x y : ElementId}

/-! ## Walks through parents -/

/-- Following the parents of an element never leads back to it. -/
def Acyclic (t : Tree) : Prop := ∀ id n, t.ancestor? (n + 1) id ≠ some id

theorem mem_lineage_iff : x ∈ t.lineage id ↔ ∃ i, t.ancestor? i id = some x := by
  constructor
  · intro h
    obtain ⟨i, -, hi⟩ := mem_lineageUpTo_iff.mp h
    exact ⟨i, hi⟩
  · rintro ⟨i, hi⟩
    exact mem_lineage_of_mem_lineageUpTo (mem_lineageUpTo_iff.mpr ⟨i, Nat.lt_succ_self i, hi⟩)

theorem ancestor?_mul {n : Nat} (h : t.ancestor? n id = some id) (k : Nat) :
    t.ancestor? (k * n) id = some id := by
  induction k with
  | zero => rw [Nat.zero_mul, ancestor?]
  | succ k ih => rw [Nat.succ_mul, ancestor?_add, ih, Option.bind_some, h]

theorem exists_ancestor?_self {i n : Nat} (h : t.ancestor? (n + 1) x = some x)
    (hi : t.ancestor? i x = some id) : ∃ k, t.ancestor? (k + 1) id = some id := by
  cases i with
  | zero =>
    cases hi
    exact ⟨n, h⟩
  | succ i =>
    have hround := ancestor?_mul h (i + 1)
    rw [Nat.mul_succ, Nat.add_comm, ancestor?_add, hi, Option.bind_some] at hround
    refine ⟨(i + 1) * n + i, ?_⟩
    rw [Nat.add_assoc, ancestor?_add, hround, Option.bind_some, hi]

/-- A walk through parents ends after as many steps as the tree has elements. -/
theorem Acyclic.ancestor?_eq_none (h : t.Acyclic) (id : ElementId) :
    t.ancestor? (t.size + 1) id = none := by
  cases hend : t.ancestor? (t.size + 1) id with
  | none => rfl
  | some z =>
    -- All the elements that were met are known, so one of them was met twice.
    have hmet : ∀ i : Fin (t.size + 1), ∃ y : Fin t.size, t.ancestor? i id = some y.val := by
      rintro ⟨i, hi⟩
      obtain ⟨j, hj⟩ := Nat.exists_eq_add_of_lt hi
      rw [hj, Nat.add_assoc, ancestor?_add] at hend
      obtain ⟨y, hy, hrest⟩ := Option.bind_eq_some_iff.mp hend
      exact ⟨⟨y, lt_of_ancestor? hrest⟩, hy⟩
    choose met hmet using hmet
    have hne : ∀ i j : Fin (t.size + 1), i < j → met i ≠ met j := by
      intro i j hij heq
      obtain ⟨k, hk⟩ := Nat.exists_eq_add_of_lt hij
      have hj := hmet j
      rw [hk, Nat.add_assoc, ancestor?_add, hmet i, Option.bind_some, ← heq] at hj
      exact absurd hj (h _ k)
    have hinjective : Function.Injective met := by
      intro i j heq
      rcases Nat.lt_trichotomy i j with hij | hij | hij
      · exact absurd heq (hne i j hij)
      · exact Fin.ext hij
      · exact absurd heq.symm (hne j i hij)
    have hle : t.size + 1 ≤ t.size := by simpa using Fintype.card_le_of_injective met hinjective
    exact absurd hle (Nat.not_succ_le_self _)

/-! ## Changes of parents -/

theorem ancestor?_of_parent? (h : ∀ x p, u.parent? x = some p → t.parent? x = some p) {n : Nat}
    (hx : u.ancestor? n x = some y) : t.ancestor? n x = some y := by
  induction n generalizing x with
  | zero => exact hx
  | succ n ih =>
    rw [ancestor?] at hx
    obtain ⟨p, hp, hx⟩ := Option.bind_eq_some_iff.mp hx
    rw [ancestor?, h x p hp]
    exact ih hx

theorem Acyclic.of_parent? (h : t.Acyclic)
    (hparent : ∀ x p, u.parent? x = some p → t.parent? x = some p) : u.Acyclic :=
  fun x n hx ↦ h x n (ancestor?_of_parent? hparent hx)

theorem Acyclic.released {gone : ElementId → Bool} (h : t.Acyclic) (r : Released t u gone) :
    u.Acyclic := by
  refine h.of_parent? fun x p hp ↦ ?_
  rw [r.parent] at hp
  split at hp
  · cases hp
  · exact hp

/-- The walk to an element does not depend on the parent of that element. -/
theorem exists_ancestor?_congr (h : ∀ y, y ≠ id → u.parent? y = t.parent? y)
    (hx : ∃ i, u.ancestor? i x = some id) : ∃ i, t.ancestor? i x = some id := by
  obtain ⟨i, hi⟩ := hx
  induction i generalizing x with
  | zero => exact ⟨0, hi⟩
  | succ i ih =>
    by_cases hxid : x = id
    · exact ⟨0, congrArg some hxid⟩
    · rw [ancestor?] at hi
      obtain ⟨p, hp, hi⟩ := Option.bind_eq_some_iff.mp hi
      obtain ⟨j, hj⟩ := ih hi
      rw [h x hxid] at hp
      exact ⟨j + 1, by rw [ancestor?, hp]; exact hj⟩

/-- A walk that does not meet an element does not depend on the parent of that element. -/
theorem ancestor?_congr (h : ∀ y, y ≠ id → u.parent? y = t.parent? y)
    (hx : ∀ i, u.ancestor? i x ≠ some id) (n : Nat) : u.ancestor? n x = t.ancestor? n x := by
  induction n generalizing x with
  | zero => rfl
  | succ n ih =>
    have hne : x ≠ id := fun hxid ↦ hx 0 (congrArg some hxid)
    rw [ancestor?, ancestor?, h x hne]
    cases hp : t.parent? x with
    | none => rfl
    | some p =>
      refine ih fun i hi ↦ hx (i + 1) ?_
      rw [ancestor?, h x hne, hp]
      exact hi

/-- **Moving an element** closes a circle exactly if its new parent lies beneath it. -/
theorem acyclic_moved_iff (h : t.Acyclic)
    (hparent : ∀ x, u.parent? x = if x = id then some owner else t.parent? x) :
    u.Acyclic ↔ id ∉ t.lineage owner := by
  have hother : ∀ y, y ≠ id → u.parent? y = t.parent? y := fun y hy ↦ by rw [hparent, if_neg hy]
  have hstep : ∀ k, u.ancestor? (k + 1) id = u.ancestor? k owner := fun k ↦ by
    rw [ancestor?, hparent, if_pos rfl, Option.bind_some]
  rw [mem_lineage_iff]
  constructor
  · intro hu hmeets
    obtain ⟨i, hi⟩ := exists_ancestor?_congr (fun y hy ↦ (hother y hy).symm) hmeets
    exact hu id i ((hstep i).trans hi)
  · intro hmeets x n hx
    by_cases hid : ∃ i, u.ancestor? i x = some id
    · -- A circle that meets the element leads from its new parent to it.
      obtain ⟨i, hi⟩ := hid
      obtain ⟨k, hk⟩ := exists_ancestor?_self hx hi
      rw [hstep] at hk
      exact hmeets (exists_ancestor?_congr hother ⟨k, hk⟩)
    · rw [ancestor?_congr hother (not_exists.mp hid)] at hx
      exact h x n hx

theorem Acyclic.extends (h : t.Acyclic) (hlinked : t.Linked) (hnew : Sprouting t.size u)
    (hext : Extends t u) : u.Acyclic := by
  intro x n hx
  by_cases hlt : x < t.size
  · have hsame : ∀ n x, x < t.size → u.ancestor? n x = t.ancestor? n x := by
      intro n
      induction n with
      | zero => exact fun _ _ ↦ rfl
      | succ n ih =>
        intro x hlt
        rw [ancestor?, ancestor?, hext.parent hlt]
        cases hp : t.parent? x with
        | none => rfl
        | some p =>
          obtain ⟨slot, hmem⟩ := hlinked.exists_mem_listOf hp
          exact ih p (lt_of_mem_listOf hmem)
    rw [hsame _ _ hlt] at hx
    exact h x n hx
  · have hless : ∀ n x y, t.size ≤ x → u.ancestor? (n + 1) x = some y → y < x := by
      intro n
      induction n with
      | zero =>
        intro x y hle hy
        obtain ⟨p, hp, hy⟩ := Option.bind_eq_some_iff.mp hy
        cases hy
        exact (hnew.parent hle hp).2
      | succ n ih =>
        intro x y hle hy
        obtain ⟨p, hp, hy⟩ := Option.bind_eq_some_iff.mp hy
        obtain ⟨hple, hlt⟩ := hnew.parent hle hp
        exact Nat.lt_trans (ih p y hple hy) hlt
    exact Nat.lt_irrefl x (hless n x x (Nat.not_lt.mp hlt) hx)

end Tree

/-! ## Edits -/

/-- The edit gives a comment or an attribute to an element that lies beneath it, and is not
refused. -/
def Edit.Buries (t : Tree) : Edit → Prop
  | addHeaderComment owner comment =>
    comment ∈ t.lineage owner ∧ ∃ u, t.addHeaderComment owner comment = .ok u
  | addAttribute owner used => used ∈ t.lineage owner ∧ ∃ u, t.addAttribute owner used = .ok u
  | _ => False

namespace Tree

variable {t u : Tree} {id owner x : ElementId}

theorem Acyclic.empty : Acyclic {} := by
  intro id n h
  have hlt := lt_of_ancestor? h
  exact absurd hlt (Nat.not_lt_zero id)

theorem parent?_moved (h : t.Linked) {slot : Slot} {put : List ElementId → List ElementId}
    (howner : owner < t.size) (hid : id < t.size) (hput : ∀ l, (put l).Perm (id :: l))
    (x : ElementId) : ((t.detached id).linked owner slot put id).parent? x =
      if x = id then some owner else t.parent? x := by
  have r := released_detached h id
  rw [(placed_linked (by rwa [r.size]) (by rwa [r.size]) hput).parent, r.parent]
  by_cases hx : x = id <;> simp [hx]

theorem buries_iff {e : Edit} {slot : Slot} (hu : e.apply t = .ok u)
    (he : e.into = some (owner, slot, id)) :
    e.Buries t ↔ slot ≠ .children ∧ id ∈ t.lineage owner := by
  cases e with
  | addHeaderComment owner comment =>
    cases he
    exact ⟨fun h ↦ ⟨nofun, h.1⟩, fun h ↦ ⟨h.2, u, hu⟩⟩
  | addAttribute owner used =>
    cases he
    exact ⟨fun h ↦ ⟨nofun, h.1⟩, fun h ↦ ⟨h.2, u, hu⟩⟩
  | _ =>
    cases he
    try exact ⟨False.elim, fun h ↦ h.1 rfl⟩

theorem acyclic_apply_iff (h : t.Acyclic) (hlinked : t.Linked) {e : Edit}
    (hu : e.apply t = .ok u) : u.Acyclic ↔ ¬e.Buries t := by
  have hsame : ∀ {v : Tree} {b : Option ElementId} (x : ElementId), v.Acyclic →
      (v.withOtherwise x b).Acyclic :=
    fun _ hv ↦ hv.of_parent? fun x p hp ↦ by rwa [parent?_withOtherwise] at hp
  cases Edit.does_apply hu with
  | create name element =>
    exact iff_of_true (h.of_parent? fun x p hp ↦ by rwa [parent?_create] at hp) id
  | setName x name =>
    refine iff_of_true (h.of_parent? fun y p hp ↦ Eq.trans (Eq.symm ?_) hp) id
    exact parent?_modify t x y fun _ ↦ rfl
  | keepsRoot => exact iff_of_true h id
  | @addRoot x =>
    have hdetached := h.released (released_detached hlinked x)
    exact iff_of_true (hdetached.of_parent? fun _ _ hp ↦ hp) id
  | @keeps _ owner x slot he hmem =>
    -- The parent is the same as before.
    have hnot : x ∉ t.lineage owner := by
      refine (acyclic_moved_iff h fun y ↦ ?_).mp h
      split
      · rename_i hy
        rw [hy]
        exact hlinked.parent_of_mem hmem
      · rfl
    exact iff_of_true h fun hburies ↦ hnot ((buries_iff hu he).mp hburies).2
  | moves he hk hl hkl hbeneath =>
    refine (acyclic_moved_iff h (parent?_moved hlinked (lt_of_kind? hk) (lt_of_kind? hl)
      (e.perm_put _))).trans ?_
    rw [buries_iff hu he]
    exact ⟨fun hnot hb ↦ hnot hb.2, fun hnot hmem ↦ hnot ⟨fun hs ↦ hbeneath hs hmem, hmem⟩⟩
  | frees he released =>
    obtain ⟨gone, r⟩ := released hlinked
    refine iff_of_true (h.released r) fun hburies ↦ ?_
    cases e <;> first | exact he | exact hburies
  | ends => exact iff_of_true (hsame _ h) id
  | branches =>
    exact iff_of_true (hsame _ (h.released (released_detached hlinked _))) id
  | copies hu =>
    obtain ⟨hnew, hext⟩ := sprouting_copy hu
    exact iff_of_true (h.extends hlinked hnew hext) id

/-- **One edit** closes a circle exactly if it gives a comment or an attribute to an element beneath
it. -/
theorem acyclic_edited_iff (h : t.Acyclic) (hlinked : t.Linked) (e : Edit) :
    (t.edited e).Acyclic ↔ ¬e.Buries t := by
  rw [Tree.edited]
  cases hu : e.apply t with
  | error r =>
    -- A refused edit leaves the tree as it is.
    refine iff_of_true h fun hburies ↦ ?_
    cases e with
    | addHeaderComment owner comment =>
      obtain ⟨-, u, hok⟩ := hburies
      cases hu.symm.trans hok
    | addAttribute owner used =>
      obtain ⟨-, u, hok⟩ := hburies
      cases hu.symm.trans hok
    | _ => exact hburies
  | ok u => exact acyclic_apply_iff h hlinked hu

/-! ## Histories -/

theorem Acyclic.foldl_edited (h : t.Acyclic) (hlinked : t.Linked) {edits : List Edit}
    (hedits : ∀ e ∈ edits, ∀ u, ¬e.Buries u) : (edits.foldl Tree.edited t).Acyclic := by
  induction edits generalizing t with
  | nil => exact h
  | cons e edits ih =>
    obtain ⟨he, hedits⟩ := List.forall_mem_cons.mp hedits
    exact ih ((acyclic_edited_iff h hlinked e).mpr (he t)) (hlinked.edited e) hedits

/-- **Circles of parents.** Along a history no element is ever its own ancestor exactly as long as
no comment and no attribute is given to an element that lies beneath it. While this is so, every
walk through parents comes to its end. -/
theorem acyclic_built_iff (edits : List Edit) :
    ((∀ past, past <+: edits → (built past).Acyclic) ↔
      ∀ past e, past ++ [e] <+: edits → ¬e.Buries (built past)) ∧
    ∀ past, (built past).Acyclic →
      ∀ id, (built past).ancestor? ((built past).size + 1) id = none := by
  refine ⟨⟨fun h past e hpast ↦ ?_, fun h past ↦ ?_⟩, fun past h ↦ h.ancestor?_eq_none⟩
  · have hbefore := h past ((List.prefix_append past [e]).trans hpast)
    have hafter := h _ hpast
    rw [built_concat] at hafter
    exact (acyclic_edited_iff hbefore (Linked.empty.foldl_edited past) e).mp hafter
  · induction past using List.reverseRecOn with
    | nil => exact fun _ ↦ Acyclic.empty
    | append_singleton past e ih =>
      intro hpast
      have hbefore := ih ((List.prefix_append past [e]).trans hpast)
      rw [built_concat]
      exact (acyclic_edited_iff hbefore (Linked.empty.foldl_edited past) e).mpr (h past e hpast)

/-- A namespace that is given to a comment, which is then given to the namespace. -/
def circle : List Edit :=
  [.create [] (.nameSpace false), .create [] (.comment ⟨.line, []⟩), .addChild 1 0,
    .addHeaderComment 0 1]

/-- A history may lead to an element that is its own ancestor. -/
theorem not_forall_acyclic_built : ¬∀ edits, (built edits).Acyclic := fun h ↦
  h circle 0 1 (by decide +kernel)

end Tree

end SharpOutline
