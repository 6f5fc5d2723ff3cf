import SharpOutline.Proofs.Tree.DeepCopies

/-!
# Comments above declarations

An edit gives comments to the declaration that it names and to new elements, and to no others
(`Tree.Spares`). So a declaration of which only the block is being read has no comments yet.

If one more comment waits for a declaration, before all others, then it becomes the first one above
that declaration, and nothing else is different: `Tree.headed` goes along with what is done to the
declaration after that.
-/

namespace SharpOutline

/-- Elements of this kind declare something, so that comments above them belong to them. -/
def Kind.isDeclaration (k : Kind) : Bool := k.isCommentable && k != .attributeUse

theorem Kind.isCommentable_of_isDeclaration {k : Kind} (h : k.isDeclaration = true) :
    k.isCommentable = true := by
  rw [isDeclaration, Bool.and_eq_true] at h
  exact h.1

namespace Tree

variable {t u v : Tree} {n : Nat} {owner c p x k : ElementId} {slot : Slot}

/-! ## Declarations without comments -/

/-- A declaration above which no comment stands. -/
def Bare (t : Tree) (x : ElementId) : Prop :=
  ∃ m, t.get? x = some m ∧ m.kind.isDeclaration = true ∧ m.headerComments = []

/-- The elements have kept their kinds, and those before `n` that had no comments above them have
none. -/
structure Spares (n : Nat) (t u : Tree) : Prop where
  size : t.size ≤ u.size
  kind : ∀ {x}, x < t.size → u.kind? x = t.kind? x
  bare : ∀ {x}, x < n → t.listOf x .headerComments = [] → u.listOf x .headerComments = []

namespace Spares

theorem refl (n : Nat) (t : Tree) : Spares n t t := ⟨Nat.le_refl _, fun _ ↦ rfl, fun _ h ↦ h⟩

theorem trans (h : Spares n t u) (h' : Spares n u v) : Spares n t v where
  size := Nat.le_trans h.size h'.size
  kind hx := (h'.kind (Nat.lt_of_lt_of_le hx h.size)).trans (h.kind hx)
  bare hx hbare := h'.bare hx (h.bare hx hbare)

theorem mono {n' : Nat} (h : Spares n t u) (hn : n' ≤ n) : Spares n' t u where
  size := h.size
  kind := h.kind
  bare hx := h.bare (Nat.lt_of_lt_of_le hx hn)

end Spares

theorem Bare.lt (h : t.Bare x) : x < t.size := by
  obtain ⟨m, hm, -⟩ := h
  exact lt_of_get? hm

theorem bare_create {e : Element} (t : Tree) (name : Text) (he : e.kind.isDeclaration = true) :
    (t.create name e).Bare t.size :=
  ⟨{ name := name, element := e }, by rw [get?_create, if_pos rfl], he, rfl⟩

/-- A declaration that is spared stays without comments. -/
theorem Bare.spares (h : t.Bare x) (hs : Spares n t u) (hx : x < n) : u.Bare x := by
  have hlt := h.lt
  obtain ⟨m, hm, hkind, hbare⟩ := h
  obtain ⟨m', hm'⟩ := exists_get?_of_lt (Nat.lt_of_lt_of_le hlt hs.size)
  refine ⟨m', hm', ?_, ?_⟩
  · have hsame := hs.kind hlt
    rw [kind?_of_get? hm, kind?_of_get? hm', Option.some.injEq] at hsame
    rwa [hsame]
  · have hlist := hs.bare hx (by rw [listOf_of_get? hm]; exact hbare)
    rwa [listOf_of_get? hm'] at hlist

theorem spares_create (n : Nat) (t : Tree) (name : Text) (e : Element) :
    Spares n t (t.create name e) where
  size := by
    rw [size_create]
    exact Nat.le_succ _
  kind hx := by rw [kind?_create, if_neg (Nat.ne_of_lt hx)]
  bare _ hbare := by rwa [listOf_create]

theorem spares_modify {f : Node → Node} (hkind : ∀ m, (f m).kind = m.kind)
    (hbare : x < n → ∀ m : Node, m.headerComments = [] → (f m).headerComments = []) :
    Spares n t (t.modify x f) where
  size := Nat.le_of_eq (size_modify _ _ _).symm
  kind _ := kind?_modify _ _ _ hkind
  bare {y} hy h := by
    rw [listOf, get?_modify] at *
    split
    · rename_i hxy
      subst hxy
      cases hnode : t.get? x with
      | none => rfl
      | some m =>
        rw [hnode] at h
        exact hbare hy m h
    · exact h

theorem spares_linked {put : List ElementId → List ElementId}
    (h : slot = .headerComments → n ≤ owner) : Spares n t (t.linked owner slot put c) := by
  refine (spares_modify (fun m ↦ m.kind_modifyList _ _) fun hlt m hm ↦ ?_).trans
    (spares_modify (fun _ ↦ rfl) fun _ _ hm ↦ hm)
  cases slot with
  | headerComments => exact absurd hlt (Nat.not_lt.mpr (h rfl))
  | _ => exact hm

theorem spares_detached (n : Nat) (t : Tree) (c : ElementId) : Spares n t (t.detached c) := by
  rw [detached]
  split
  · have hparent : Spares n t (t.modify c fun m ↦ { m with parent := none }) :=
      spares_modify (fun _ ↦ rfl) fun _ _ hm ↦ hm
    refine hparent.trans (spares_modify (fun m ↦ m.kind_drop c) fun _ m hm ↦ ?_)
    rw [Node.drop, hm]
    rfl
  · exact ⟨Nat.le_refl _, fun _ ↦ rfl, fun _ h ↦ h⟩

theorem spares_apply {e : Edit} (he : e.into = some (owner, slot, c))
    (hslot : slot = .headerComments → n ≤ owner) (hu : e.apply t = .ok u) : Spares n t u := by
  obtain ⟨-, rfl⟩ | ⟨-, -, rfl⟩ := Edit.cases_of_into he hu
  · exact .refl n u
  · exact (spares_detached n t c).trans (spares_linked hslot)

theorem spares_addChild (h : t.addChild p c = .ok u) : Spares n t u :=
  spares_apply (e := .addChild p c) rfl nofun h

theorem spares_addHeaderComment (hn : n ≤ p) (h : t.addHeaderComment p c = .ok u) :
    Spares n t u :=
  spares_apply (e := .addHeaderComment p c) rfl (fun _ ↦ hn) h

theorem spares_addAttribute (h : t.addAttribute p c = .ok u) : Spares n t u :=
  spares_apply (e := .addAttribute p c) rfl nofun h

theorem spares_setOtherwise (h : t.setOtherwise p (some c) = .ok u) : Spares n t u := by
  obtain ⟨-, -, -, rfl⟩ := eq_of_setOtherwise h
  exact (spares_detached n t c).trans
    (spares_modify (fun m ↦ Element.kind_withOtherwise _ m.element) fun _ _ hm ↦ hm)

theorem spares_copy (hn : n ≤ t.size) (h : t.copy x = .ok (u, c)) : Spares n t u ∧ t.size ≤ c := by
  obtain ⟨hintact, hc, hgrafted⟩ := grafted_unfold t.size h
  refine ⟨⟨?_, fun hx ↦ ?_, fun hx hbare ↦ ?_⟩, hc⟩
  · rw [hgrafted.size]
    exact Nat.le_add_right _ _
  · rw [kind?, hintact.get?_eq _ hx, kind?]
  · rwa [listOf, hintact.get?_eq _ (Nat.lt_of_lt_of_le hx hn), ← listOf]

/-! ## One more comment -/

/-- The tree with a comment, which stands nowhere, put above a declaration before all others. -/
def headed (t : Tree) (owner comment : ElementId) : Tree :=
  t.linked owner .headerComments (comment :: ·) comment

/-- Changes of different elements may change places, and so may those of one element if they have
to do with different parts of it. -/
theorem modify_comm {i j : ElementId} {f g : Node → Node} (h : i = j → ∀ m, g (f m) = f (g m)) :
    (t.modify i f).modify j g = (t.modify j g).modify i f := by
  refine ext_get? rfl fun y ↦ ?_
  simp only [get?_modify]
  by_cases hi : i = y
  · by_cases hj : j = y
    · simp only [if_pos hi, if_pos hj, Option.map_map]
      exact congrArg (fun f ↦ Option.map f _) (funext (h (hi.trans hj.symm)))
    · simp only [if_neg hj]
  · simp only [if_neg hi]

theorem headed_modify {f : Node → Node}
    (hlist : ∀ m, f (m.modifyList (k :: ·) .headerComments) =
      (f m).modifyList (k :: ·) .headerComments)
    (hparent : p = k → ∀ m, f { m with parent := some x } = { f m with parent := some x }) :
    (t.modify p f).headed x k = (t.headed x k).modify p f := by
  have hheader : (t.modify p f).modify x (·.modifyList (k :: ·) .headerComments) =
      (t.modify x (·.modifyList (k :: ·) .headerComments)).modify p f :=
    modify_comm fun _ m ↦ (hlist m).symm
  rw [headed, linked, hheader]
  exact modify_comm fun hp m ↦ (hparent hp m).symm

theorem headed_appended (hc : c ≠ k) :
    (t.appended owner slot c).headed x k = (t.headed x k).appended owner slot c := by
  rw [appended, linked, headed_modify (fun m ↦ rfl) fun h ↦ absurd h hc, headed_modify]
  · rfl
  · intro m
    cases slot <;> rfl
  · intro _ m
    cases slot <;> rfl

theorem get?_headed (hne : x ≠ k) {m : Node} (h : t.get? p = some m) :
    ∃ m', (t.headed x k).get? p = some m' ∧ m'.kind = m.kind ∧ m'.attributes = m.attributes ∧
      (p ≠ k → m'.parent = m.parent) ∧
        m'.headerComments = if p = x then k :: m.headerComments else m.headerComments := by
  rw [headed, linked, get?_modify, get?_modify, h]
  by_cases hpx : x = p
  · subst hpx
    rw [if_neg hne.symm, if_pos rfl, if_pos rfl]
    exact ⟨_, rfl, rfl, rfl, fun _ ↦ rfl, rfl⟩
  · rw [if_neg hpx, if_neg (Ne.symm hpx)]
    by_cases hpk : k = p
    · rw [if_pos hpk]
      exact ⟨_, rfl, rfl, rfl, fun h ↦ absurd hpk.symm h, rfl⟩
    · rw [if_neg hpk]
      exact ⟨_, rfl, rfl, rfl, fun _ ↦ rfl, rfl⟩

theorem parent?_headed (hc : c ≠ k) :
    (t.headed x k).parent? c = t.parent? c := by
  rw [headed, linked, parent?, get?_modify, if_neg hc.symm, ← parent?]
  exact parent?_modify _ _ _ fun m ↦ rfl

theorem headed_detached (hc : c ≠ k) :
    (t.detached c).headed x k = (t.headed x k).detached c := by
  rw [detached, detached, parent?_headed hc]
  cases t.parent? c with
  | none => rfl
  | some q =>
    dsimp only
    rw [headed_modify, headed_modify (fun m ↦ rfl) fun h ↦ absurd h hc]
    · intro m
      simp only [Node.drop, Node.modifyList, List.filter_cons]
      rw [if_pos (by simpa using hc.symm)]
    · intro _ m
      rfl

theorem Given.headed (hc : c ≠ k) (h : t.Given x slot c u) :
    (t.headed x k).Given x slot c (u.headed x k) := by
  obtain ⟨⟨kind, l, hkind, hl, hkl⟩, rfl⟩ := h
  have hsame : ∀ y, (t.headed x k).kind? y = t.kind? y := fun y ↦
    (kind?_setParent ..).trans (kind?_modify _ _ _ fun m ↦ m.kind_modifyList _ _)
  have hmem : c ∈ (t.headed x k).listOf x slot ↔ c ∈ t.listOf x slot := by
    rw [headed, linked, listOf_setParent, listOf_modifyList _ (lt_of_kind? hkind)]
    split
    · exact List.mem_cons.trans (or_iff_right hc)
    · rfl
  refine ⟨⟨kind, l, (hsame x).trans hkind, (hsame c).trans hl, hkl⟩, ?_⟩
  simp only [hmem]
  split
  · rfl
  · rw [headed_appended hc, headed_detached hc]

theorem headed_addHeaderComment (hc : c ≠ k) (h : t.addHeaderComment x c = .ok u) :
    (t.headed x k).addHeaderComment x c = .ok (u.headed x k) :=
  addHeaderComment_eq_ok.mpr ((addHeaderComment_eq_ok.mp h).headed hc)

theorem headed_addAttribute (hc : c ≠ k) (h : t.addAttribute x c = .ok u) :
    (t.headed x k).addAttribute x c = .ok (u.headed x k) :=
  addAttribute_eq_ok.mpr ((addAttribute_eq_ok.mp h).headed hc)

theorem addHeaderComment_of_bare (hx : t.Bare x) (hk : t.kind? k = some .comment)
    (hparent : t.parent? k = none) (hroots : t.roots = []) :
    t.addHeaderComment x k = .ok (t.headed x k) := by
  obtain ⟨m, hx, hkind, hbare⟩ := hx
  have hdetached : t.detached k = t := by
    rw [detached_of_root hparent, hroots]
    cases t
    exact congrArg _ hroots.symm
  have happended : t.appended x .headerComments k = t.headed x k := by
    refine ext_get? rfl fun y ↦ ?_
    rw [appended, headed, linked, linked, get?_modify, get?_modify, get?_modify, get?_modify]
    by_cases hy : x = y
    · subst hy
      rw [if_pos rfl, if_pos rfl, hx]
      simp [Node.modifyList, hbare]
    · rw [if_neg hy, if_neg hy]
  refine addHeaderComment_eq_ok.mpr ⟨⟨m.kind, _, kind?_of_get? hx, hk, ?_⟩, ?_⟩
  · simp [Slot.admits, Kind.isCommentable_of_isDeclaration hkind]
  · rw [listOf_of_get? hx, if_neg (by simp [Node.list, hbare]), hdetached, happended]

end Tree

end SharpOutline
