import SharpOutline.Proofs.Tree.SingleOwners

/-!
# Conditionals come to an end

The next branches of a conditional are links that no edit but one sets, and this edit refuses a
branch that leads back to where it is to be put. Whether it does is asked of the chain of the
branch, and the walk along a chain stops at a branch that it has met before. So the answer is right
only where no chain runs in a circle, and that no chain does depends on the answers given before.

`Tree.EndingBranches` is the invariant. In a tree that has it, the walk along a chain meets no
branch twice, ends at a branch that nothing follows, and meets everything that follows
(`Tree.EndingBranches.chain`); what the edits do to next branches is known from `Edit.Effect`, and
so the invariant holds after every history (`Tree.branches_end_built`).
-/

namespace SharpOutline

open Relation

namespace Tree

variable {t u : Tree} {x y p b c : ElementId} {l : List ElementId}

/-! ## Chains -/

/-- The second element is the next branch of the first one. -/
def Leads (t : Tree) (p b : ElementId) : Prop := t.otherwise? p = some b

/-- No branch leads back to itself. -/
def EndingBranches (t : Tree) : Prop := ∀ x, ¬TransGen t.Leads x x

/-- The branches from one on, up to one that nothing follows. -/
inductive BranchesFrom (t : Tree) : ElementId → List ElementId → Prop
  | last {x : ElementId} (hlast : t.otherwise? x = none) : BranchesFrom t x [x]
  | next {x b : ElementId} {l : List ElementId} (hnext : t.Leads x b)
      (hrest : BranchesFrom t b l) : BranchesFrom t x (x :: l)

namespace BranchesFrom

theorem head?_eq (h : t.BranchesFrom x l) : l.head? = some x := by
  cases h <;> rfl

theorem isChain (h : t.BranchesFrom x l) : l.IsChain t.Leads := by
  induction h with
  | last => exact .singleton _
  | @next x b l hnext hrest ih =>
    refine List.isChain_cons.mpr ⟨fun y hy ↦ ?_, ih⟩
    rw [hrest.head?_eq] at hy
    cases hy
    exact hnext

theorem exists_last (h : t.BranchesFrom x l) :
    ∃ last, l.getLast? = some last ∧ t.otherwise? last = none := by
  induction h with
  | last hlast => exact ⟨_, rfl, hlast⟩
  | @next x b l hnext hrest ih =>
    obtain ⟨last, hlast, hnone⟩ := ih
    exact ⟨last, by rw [List.getLast?_cons, hlast, Option.getD_some], hnone⟩

theorem mem_iff (h : t.BranchesFrom x l) : y ∈ l ↔ ReflTransGen t.Leads x y := by
  induction h with
  | last hlast =>
    rw [List.mem_singleton, ReflTransGen.cases_head_iff, eq_comm]
    refine (or_iff_left ?_).symm
    rintro ⟨b, hb, -⟩
    cases hlast.symm.trans hb
  | @next x b l hnext hrest ih =>
    rw [List.mem_cons, ih, ReflTransGen.cases_head_iff (a := x), eq_comm]
    refine or_congr Iff.rfl ⟨fun hy ↦ ⟨b, hnext, hy⟩, ?_⟩
    rintro ⟨c, hc, hy⟩
    cases hnext.symm.trans hc
    exact hy

theorem nodup (h : t.BranchesFrom x l) (hend : t.EndingBranches) : l.Nodup := by
  induction h with
  | last => exact List.nodup_singleton _
  | @next x b l hnext hrest ih =>
    refine List.nodup_cons.mpr ⟨fun hmem ↦ ?_, ih⟩
    exact hend x (.head' hnext (hrest.mem_iff.mp hmem))

end BranchesFrom

/-- The walk along a chain. The branches that were met lead to the one that comes next, so none is
met again, and there are as many steps left as there are elements that were not met. -/
theorem EndingBranches.chainUpTo (hend : t.EndingBranches) (hknown : t.KnownBranches) (n : Nat)
    (seen : List ElementId) (hx : x < t.size) (hseen : seen.Nodup)
    (hleads : ∀ y ∈ seen, TransGen t.Leads y x) (hn : t.size < seen.length + n) :
    ∃ l, t.chainUpTo seen n x = .ok (seen ++ l) ∧ t.BranchesFrom x l := by
  induction n generalizing seen x with
  | zero =>
    -- There are not enough elements for such a walk.
    have hsub : seen ⊆ List.range t.size := by
      intro y hy
      obtain ⟨z, hz, -⟩ := TransGen.head'_iff.mp (hleads y hy)
      exact List.mem_range.mpr (lt_of_otherwise? hz)
    have hle := (hseen.subperm hsub).length_le
    rw [List.length_range] at hle
    omega
  | succ n ih =>
    obtain ⟨node, hnode⟩ := exists_get?_of_lt hx
    have hotherwise : t.otherwise? x = node.element.otherwise? := by
      rw [otherwise?, hnode, Option.bind_some]
    have hnew : x ∉ seen := fun hmem ↦ hend x (hleads x hmem)
    rw [Tree.chainUpTo, node_eq_ok.mpr hnode]
    cases hb : node.element.otherwise? with
    | none =>
      refine ⟨[x], ?_, .last (hotherwise.trans hb)⟩
      simp [bind, Except.bind, hb]
    | some b =>
      have hnext : t.Leads x b := hotherwise.trans hb
      have hleads' : ∀ y ∈ seen ++ [x], TransGen t.Leads y b := by
        intro y hy
        rcases List.mem_append.mp hy with hy | hy
        · exact (hleads y hy).tail hnext
        · rw [List.mem_singleton.mp hy]
          exact .single hnext
      have hguard : b ∉ seen ++ [x] := fun hmem ↦ hend b (hleads' b hmem)
      obtain ⟨l, hl, hfrom⟩ := ih (seen ++ [x]) (hknown hnext)
        (List.nodup_append_comm.mpr (List.nodup_cons.mpr ⟨hnew, hseen⟩)) hleads'
        (by rw [List.length_append, List.length_singleton]; omega)
      refine ⟨x :: l, ?_, .next hnext hfrom⟩
      simp only [bind, Except.bind, hb, if_neg hguard]
      rw [hl, List.append_assoc, List.singleton_append]

/-- Where no branch leads back to itself, a chain is all that follows. -/
theorem EndingBranches.chain (hend : t.EndingBranches) (hknown : t.KnownBranches)
    (hx : x < t.size) : ∃ l, t.chain x = .ok l ∧ t.BranchesFrom x l :=
  hend.chainUpTo hknown (t.size + 1) [] hx List.nodup_nil (by simp) (by simp)

/-! ## Setting a next branch -/

theorem setOtherwise_eq (hc : t.kind? c = some .conditionDirective)
    (hb : t.kind? b = some .conditionDirective) :
    t.setOtherwise c (some b) = if b = c then .error .cycle else
      t.chain b >>= fun branches ↦ if c ∈ branches then .error .cycle
        else .ok ((t.detached b).withOtherwise c (some b)) := by
  simp only [Tree.setOtherwise, expectKind_of_kind? hc, expectKind_of_kind? hb, bind, Except.bind]

theorem EndingBranches.setOtherwise (hend : t.EndingBranches) (hknown : t.KnownBranches)
    (hc : t.kind? c = some .conditionDirective) (hb : t.kind? b = some .conditionDirective) :
    (ReflTransGen t.Leads b c ∧ t.setOtherwise c (some b) = .error .cycle) ∨
      (¬ReflTransGen t.Leads b c ∧ ∃ u, t.setOtherwise c (some b) = .ok u) := by
  obtain ⟨l, hl, hfrom⟩ := hend.chain hknown (lt_of_kind? hb)
  rw [setOtherwise_eq hc hb]
  by_cases hself : b = c
  · exact .inl ⟨hself ▸ .refl, if_pos hself⟩
  · rw [if_neg hself, hl, ← hfrom.mem_iff]
    by_cases hmem : c ∈ l
    · exact .inl ⟨hmem, if_pos hmem⟩
    · exact .inr ⟨hmem, _, if_neg hmem⟩

/-! ## Edits -/

theorem EndingBranches.empty : EndingBranches {} := by
  intro x h
  obtain ⟨b, hb, -⟩ := TransGen.head'_iff.mp h
  exact absurd (lt_of_otherwise? hb) (Nat.not_lt_zero x)

theorem EndingBranches.of_leads (h : t.EndingBranches) (hle : ∀ p b, u.Leads p b → t.Leads p b) :
    u.EndingBranches := fun x hx ↦ h x (TransGen.mono hle x x hx)

/-- One more link. A way that does not take it was there before, and one that takes it goes on from
its far end. -/
theorem transGen_branched {owner : ElementId}
    (hbranch : ∀ p, u.otherwise? p = if owner = p then some b else t.otherwise? p)
    (h : TransGen u.Leads x y) :
    TransGen t.Leads x y ∨ (ReflTransGen u.Leads x owner ∧ ReflTransGen u.Leads b y) := by
  -- A step of the new tree starts at the owner, or it is one of the old tree.
  have hstep : ∀ {p q}, u.Leads p q → (p = owner ∧ q = b) ∨ t.Leads p q := by
    intro p q hq
    rw [Leads, hbranch] at hq
    by_cases hp : owner = p
    · rw [if_pos hp] at hq
      exact .inl ⟨hp.symm, (Option.some.inj hq).symm⟩
    · rw [if_neg hp] at hq
      exact .inr hq
  induction h with
  | single hxy =>
    obtain ⟨rfl, rfl⟩ | hold := hstep hxy
    · exact .inr ⟨.refl, .refl⟩
    · exact .inl (.single hold)
  | @tail y z hxy hyz ih =>
    obtain ⟨rfl, rfl⟩ | hold := hstep hyz
    · exact .inr ⟨hxy.to_reflTransGen, .refl⟩
    · obtain hxy | ⟨hxo, hby⟩ := ih
      · exact .inl (hxy.tail hold)
      · exact .inr ⟨hxo, hby.tail hyz⟩

/-- A branch may follow another one unless it leads to it. -/
theorem EndingBranches.branched (h : t.EndingBranches) {owner : ElementId}
    (hbranch : ∀ p, u.otherwise? p = if owner = p then some b else t.otherwise? p)
    (hnot : ¬ReflTransGen t.Leads b owner) : u.EndingBranches := by
  -- What the branch leads to is what it led to before.
  have hsame : ∀ y, ReflTransGen u.Leads b y → ReflTransGen t.Leads b y := by
    intro y hy
    induction hy with
    | refl => exact .refl
    | @tail y z _ hyz ih =>
      rw [Leads, hbranch] at hyz
      by_cases hy : owner = y
      · exact absurd (hy ▸ ih) hnot
      · rw [if_neg hy] at hyz
        exact ih.tail hyz
  intro x hx
  obtain hold | ⟨hxo, hbx⟩ := transGen_branched hbranch hx
  · exact h x hold
  · exact hnot (hsame owner (hbx.trans hxo))

/-- New elements that are linked with each other only lead from larger to smaller numbers. -/
theorem EndingBranches.sprouted (h : t.EndingBranches) (hknown : t.KnownBranches)
    (hext : Extends t u) (hnew : Sprouting t.size u) : u.EndingBranches := by
  have hold : ∀ {x y}, TransGen u.Leads x y → x < t.size → TransGen t.Leads x y ∧ y < t.size := by
    intro x y hxy hx
    induction hxy with
    | single hxy =>
      rw [Leads, hext.branch hx] at hxy
      exact ⟨.single hxy, hknown hxy⟩
    | tail _ hyz ih =>
      rw [Leads, hext.branch ih.2] at hyz
      exact ⟨ih.1.tail hyz, hknown hyz⟩
  have hfalls : ∀ {x y}, TransGen u.Leads x y → t.size ≤ x → t.size ≤ y ∧ y < x := by
    intro x y hxy hx
    induction hxy with
    | single hxy => exact ⟨(hnew.branch hx hxy).1, (hnew.branch hx hxy).2.1⟩
    | tail _ hyz ih =>
      obtain ⟨hle, hlt, -⟩ := hnew.branch ih.1 hyz
      exact ⟨hle, Nat.lt_trans hlt ih.2⟩
  intro x hx
  by_cases hlt : x < t.size
  · exact h x (hold hx hlt).1
  · exact Nat.lt_irrefl x (hfalls hx (Nat.not_lt.mp hlt)).2

end Tree

/-- **One edit** keeps conditionals from running in circles. -/
theorem Edit.Effect.endingBranches {t u : Tree} {e : Edit} (h : Effect t u e)
    (hu : e.apply t = .ok u) (hend : t.EndingBranches) (hknown : t.KnownBranches) :
    u.EndingBranches := by
  cases h with
  | loosened size branch => exact hend.of_leads branch
  | put id size branch => exact hend.of_leads fun p b hb ↦ (branch p).symm.trans hb
  | branched owner b size known branch parent roots sets =>
    subst sets
    have hc : t.kind? owner = some .conditionDirective := by
      obtain ⟨⟨⟩, hc, -⟩ := Tree.bind_eq_ok.mp hu
      exact Tree.expectKind_eq_ok hc
    have hb : t.kind? b = some .conditionDirective := by
      obtain ⟨⟨⟩, -, hu⟩ := Tree.bind_eq_ok.mp hu
      obtain ⟨⟨⟩, hb, -⟩ := Tree.bind_eq_ok.mp hu
      exact Tree.expectKind_eq_ok hb
    obtain ⟨-, hrefused⟩ | ⟨hnot, -⟩ := hend.setOtherwise hknown hc hb
    · cases hrefused.symm.trans hu
    · exact hend.branched branch hnot
  | sprouted hext hnew => exact hend.sprouted hknown hext hnew

namespace Tree

/-! ## Histories -/

theorem endingBranches_built {edits : List Edit} (hfresh : Fresh edits) :
    (built edits).EndingBranches := by
  induction edits using List.reverseRecOn with
  | nil => exact EndingBranches.empty
  | append_singleton past e ih =>
    have hpast : Fresh past := fun name element hmem ↦
      hfresh name element (List.mem_append_left _ hmem)
    rw [built_concat, edited]
    cases hu : e.apply (built past) with
    | error r => exact ih hpast
    | ok u =>
      refine (Edit.effect_apply (Linked.empty.foldl_edited past) ?_ hu).endingBranches hu
        (ih hpast) (knownBranches_built hpast)
      rintro name element rfl
      exact hfresh name element (List.mem_append_right _ List.mem_cons_self)

/-- **Conditionals come to an end.** After every history in which no element is created with a next
branch, no branch leads back to itself. The chain of a known element starts with it, goes from each
branch to the next one, has no branch twice, holds exactly what the element leads to, and ends at a
branch that nothing follows, so that the walk was never stopped by a branch that it had met. And a
branch of a conditional is refused as the next one of another exactly if it is that one or leads to
it. -/
theorem branches_end_built (edits : List Edit) (hfresh : Fresh edits) :
    (∀ x, ¬TransGen (built edits).Leads x x) ∧
    (∀ id < (built edits).size, ∃ l, (built edits).chain id = .ok l ∧ l.head? = some id ∧
      l.IsChain (built edits).Leads ∧ l.Nodup ∧
      (∀ x, x ∈ l ↔ ReflTransGen (built edits).Leads id x) ∧
      ∃ last, l.getLast? = some last ∧ (built edits).otherwise? last = none) ∧
    ∀ c b, (built edits).kind? c = some .conditionDirective →
      (built edits).kind? b = some .conditionDirective →
      ((built edits).setOtherwise c (some b) = .error .cycle ↔
        c = b ∨ TransGen (built edits).Leads b c) ∧
      (¬(c = b ∨ TransGen (built edits).Leads b c) →
        ∃ u, (built edits).setOtherwise c (some b) = .ok u) := by
  have hend := endingBranches_built hfresh
  have hknown := knownBranches_built hfresh
  refine ⟨hend, fun id hid ↦ ?_, fun c b hc hb ↦ ?_⟩
  · obtain ⟨l, hl, hfrom⟩ := hend.chain hknown hid
    exact ⟨l, hl, hfrom.head?_eq, hfrom.isChain, hfrom.nodup hend, fun _ ↦ hfrom.mem_iff,
      hfrom.exists_last⟩
  · rw [← reflTransGen_iff_eq_or_transGen]
    obtain ⟨hleads, hrefused⟩ | ⟨hnot, u, hu⟩ := hend.setOtherwise hknown hc hb
    · exact ⟨iff_of_true hrefused hleads, fun hnot ↦ absurd hleads hnot⟩
    · exact ⟨iff_of_false (by rw [hu]; nofun) hnot, fun _ ↦ ⟨u, hu⟩⟩

/-- Three branches of a conditional, a copy of them, and the first one to follow the last. -/
def looped : List Edit :=
  [.create [] (.conditionDirective (some []) none), .create [] (.conditionDirective (some []) none),
    .create [] (.conditionDirective none none), .setOtherwise 1 (some 2),
    .setOtherwise 0 (some 1), .copy 0, .setOtherwise 2 (some 0)]

/-- The first branch is refused after the last one, and the chain of the copy has three branches. -/
theorem branches_end_built_looped : Fresh looped ∧
    (∀ x, ¬TransGen (built looped).Leads x x) ∧
    (built looped).setOtherwise 2 (some 0) = .error .cycle ∧
    ∃ l, (built looped).chain 5 = .ok l ∧ l.Nodup ∧ l = [5, 4, 3] := by
  have hfresh : Fresh looped := by
    intro name element hmem
    simp only [looped, List.mem_cons, List.not_mem_nil, Edit.create.injEq, or_false,
      reduceCtorEq] at hmem
    obtain ⟨-, rfl⟩ | ⟨-, rfl⟩ | ⟨-, rfl⟩ := hmem <;> rfl
  obtain ⟨hend, hchain, hset⟩ := branches_end_built looped hfresh
  have hfirst : (built looped).Leads 0 1 := show (built looped).otherwise? 0 = some 1 by
    decide +kernel
  have hsecond : (built looped).Leads 1 2 := show (built looped).otherwise? 1 = some 2 by
    decide +kernel
  obtain ⟨l, hl, -, -, hnodup, -⟩ := hchain 5 (by decide +kernel)
  refine ⟨hfresh, hend, ?_, l, hl, hnodup, ?_⟩
  · exact (hset 2 0 (by decide +kernel) (by decide +kernel)).1.mpr
      (.inr (.tail (.single hfirst) hsecond))
  · have hcopy : (built looped).chain 5 = .ok [5, 4, 3] := by decide +kernel
    exact Except.ok.inj (hl.symm.trans hcopy)

end Tree

end SharpOutline
