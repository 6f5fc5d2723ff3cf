import Mathlib.Data.List.Perm.Basic
import SharpOutline.Signature

/-!
# Keywords of a declaration

The keywords in front of a declaration are stripped one by one, and the signature is put together on
the way. What comes out can be said without going through them (`Signature.IsStatedBy`): which
keywords there are decides about modifiers, flags and access, no keyword of access may be repeated,
and at most one word may say what is declared. The main statement is `Signature.strip_eq_ok_iff`.
From it follows that the order of the keywords does not matter.
-/

namespace SharpOutline

open SignatureKind

/-! ## Sets of modifiers -/

variable {m : Modifier} {k : SignatureKind} {w : Text} {p : Text → Prop}

theorem Modifier.mem_all (m : Modifier) : m ∈ all := by cases m <;> decide

theorem Modifier.bit_injective {k : Modifier} (h : m.bit = k.bit) : m = k := by
  have hall : ∀ m ∈ all, ∀ k ∈ all, m.bit = k.bit → m = k := by decide
  exact hall m m.mem_all k k.mem_all h

theorem Modifier.keyword_of_ofKeyword? (h : ofKeyword? w = some m) :
    m.keyword = w := by
  simpa using List.find?_some h

theorem Modifier.keyword_injective {k : Modifier} (h : m.keyword = k.keyword) : m = k := by
  have hk := ofKeyword?_keyword k
  rw [← h, ofKeyword?_keyword] at hk
  exact Option.some.inj hk

namespace Modifiers

def full : Modifiers := Modifier.all.foldl insert empty

variable {a : Modifiers}

theorem getLsbD_insert (a : Modifiers) (m : Modifier) (i : Nat) :
    (a.insert m).bits.getLsbD i = (a.bits.getLsbD i || decide (m.bit.val = i)) := by
  have hm : m.bit.val < 16 := m.bit.isLt
  simp only [insert, union, single, BitVec.getLsbD_or, BitVec.getLsbD_twoPow]
  by_cases h : m.bit.val = i
  · simp [h ▸ hm, h]
  · simp [h]

theorem contains_single (a : Modifiers) (m : Modifier) :
    a.contains (single m) = a.bits.getLsbD m.bit := by
  have hm : m.bit.val < 16 := m.bit.isLt
  rw [Bool.eq_iff_iff]
  simp only [contains, single, beq_iff_eq]
  refine ⟨fun h ↦ ?_, fun h ↦ BitVec.eq_of_getLsbD_eq fun i hi ↦ ?_⟩
  · have := congrArg (fun b ↦ b.getLsbD m.bit.val) h
    simpa [BitVec.getLsbD_twoPow, hm] using this
  · by_cases hmi : m.bit.val = i
    · simp [← hmi, h, hm]
    · simp [BitVec.getLsbD_twoPow, hmi]

theorem ext_contains {b : Modifiers} (ha : full.contains a = true) (hb : full.contains b = true)
    (h : ∀ m, a.contains (single m) = true ↔ b.contains (single m) = true) : a = b := by
  -- A bit belongs to a modifier, or no set has it.
  have hbit : ∀ i < 16, full.bits.getLsbD i = false ∨ ∃ m ∈ Modifier.all, m.bit.val = i := by
    decide
  have hunset {c : Modifiers} {i : Nat} (hc : full.contains c = true)
      (hi : full.bits.getLsbD i = false) : c.bits.getLsbD i = false := by
    have hboth := congrArg (fun v ↦ v.getLsbD i) (eq_of_beq hc)
    simpa [hi] using hboth.symm
  have hbits : a.bits = b.bits := by
    refine BitVec.eq_of_getLsbD_eq fun i hi ↦ ?_
    rcases hbit i hi with hi | ⟨m, -, rfl⟩
    · rw [hunset ha hi, hunset hb hi]
    · rw [← contains_single, ← contains_single]
      exact Bool.eq_iff_iff.mpr (h m)
  cases a
  cases b
  exact congrArg _ hbits

theorem contains_insert (a : Modifiers) (m k : Modifier) :
    (a.insert m).contains (single k) = true ↔ a.contains (single k) = true ∨ m = k := by
  have hbit : m.bit.val = k.bit.val ↔ m = k :=
    ⟨fun h ↦ Modifier.bit_injective (Fin.ext h), fun h ↦ by rw [h]⟩
  rw [contains_single, contains_single, getLsbD_insert, Bool.or_eq_true, decide_eq_true_iff, hbit]

theorem full_contains_insert (h : full.contains a = true) (m : Modifier) :
    full.contains (a.insert m) = true := by
  have hm : full.contains (single m) = true := by cases m <;> decide
  simp only [contains, beq_iff_eq] at h hm ⊢
  rw [insert, union, BitVec.and_or_distrib_left, h, hm]

theorem keyword_mem_words {m : Modifier} :
    m.keyword ∈ a.words ↔ a.contains (single m) = true := by
  simp only [words, List.mem_map, List.mem_filter]
  constructor
  · rintro ⟨k, ⟨-, hk⟩, hkm⟩
    rwa [← Modifier.keyword_injective hkm]
  · exact fun h ↦ ⟨m, ⟨m.mem_all, h⟩, rfl⟩

end Modifiers

/-! ## What keywords say -/

/-- What a keyword declares, if it says so. -/
def SignatureKind.ofKeyword? (w : Text) : Option SignatureKind :=
  if w = "event".toList then some .event
  else if w = "delegate".toList then some .delegate
  else (TypeKind.ofKeyword? w).map .type

def SignatureKind.keyword : SignatureKind → Text
  | .member => []
  | .type k => k.keyword
  | .event => "event".toList
  | .delegate => "delegate".toList

/-- What has to be declared by a keyword. -/
def SignatureKind.declared : SignatureKind → List SignatureKind
  | .member => []
  | k => [k]

theorem SignatureKind.keyword_eq_nil_iff : k.keyword = [] ↔ k = .member := by
  cases k with
  | member => exact iff_of_true rfl rfl
  | type t => exact iff_of_false (by cases t <;> decide) (by simp)
  | event => exact iff_of_false (by decide) (by simp)
  | delegate => exact iff_of_false (by decide) (by simp)

theorem SignatureKind.ofKeyword?_eq_some_iff :
    ofKeyword? w = some k ↔ k ≠ .member ∧ k.keyword = w := by
  constructor
  · intro h
    rw [ofKeyword?] at h
    split at h
    · cases h
      exact ⟨by simp, Eq.symm ‹_›⟩
    · split at h
      · cases h
        exact ⟨by simp, Eq.symm ‹_›⟩
      · obtain ⟨t, ht, rfl⟩ := Option.map_eq_some_iff.mp h
        have hw : t.keyword = w := by simpa using List.find?_some ht
        exact ⟨by simp, hw⟩
  · rintro ⟨hk, rfl⟩
    cases k with
    | member => exact absurd rfl hk
    | type t => cases t <;> decide
    | event => rfl
    | delegate => rfl

theorem SignatureKind.ofKeyword?_eq_none_iff : ofKeyword? w = none ↔
    isTypeWord w = false ∧ w ≠ "event".toList ∧ w ≠ "delegate".toList := by
  rw [ofKeyword?]
  split
  · exact iff_of_false (by simp) fun h ↦ h.2.1 ‹_›
  · split
    · exact iff_of_false (by simp) fun h ↦ h.2.2 ‹_›
    · rw [Option.map_eq_none_iff, isTypeWord, Option.isSome_eq_false_iff, Option.isNone_iff_eq_none]
      exact ⟨fun h ↦ ⟨h, ‹_›, ‹_›⟩, fun h ↦ h.1⟩

theorem SignatureKind.declared_of_ne (h : k ≠ .member) : k.declared = [k] := by
  cases k with
  | member => exact absurd rfl h
  | type t => rfl
  | event => rfl
  | delegate => rfl

theorem SignatureKind.declared_injective {l : SignatureKind} (h : k.declared = l.declared) :
    k = l := by
  cases k <;> cases l <;> simp_all [declared]

theorem forall_isLeadingWord (h : isLeadingWord w = true) (haccess : ∀ v ∈ Access.vocabulary, p v)
    (hmodifier : ∀ k : Modifier, p k.keyword)
    (hflag : ∀ v ∈ ["async".toList, "volatile".toList, "fixed".toList], p v) : p w := by
  simp only [isLeadingWord, Bool.or_eq_true] at h
  rcases h with (h | h) | h
  · exact haccess w (List.contains_iff_mem.mp h)
  · obtain ⟨k, hk⟩ := Option.isSome_iff_exists.mp h
    exact Modifier.keyword_of_ofKeyword? hk ▸ hmodifier k
  · simp only [isFlagWord, Bool.or_eq_true, beq_iff_eq] at h
    exact hflag w (by simpa [or_assoc] using h)

/-- A property of all keywords, checked on each of them. -/
theorem forall_isDeclarationWord (h : isDeclarationWord w = true)
    (haccess : ∀ v ∈ Access.vocabulary, p v) (hmodifier : ∀ m : Modifier, p m.keyword)
    (hflag : ∀ v ∈ ["async".toList, "volatile".toList, "fixed".toList], p v)
    (htype : ∀ k : TypeKind, p k.keyword) (hkind : ∀ v ∈ ["event".toList, "delegate".toList], p v) :
    p w := by
  simp only [isDeclarationWord, Bool.or_eq_true, beq_iff_eq] at h
  rcases h with ((h | h) | h) | h
  · exact forall_isLeadingWord h haccess hmodifier hflag
  · obtain ⟨k, hk⟩ := Option.isSome_iff_exists.mp h
    have hw : k.keyword = w := by simpa using List.find?_some hk
    exact hw ▸ htype k
  · exact hkind w (by simp [h])
  · exact hkind w (by simp [h])

namespace Access

/-- Which keywords are among the written ones decides about access, whatever else is written. -/
theorem resolve?_congr {ws vs : List Text} (h : ∀ w ∈ vocabulary, w ∈ ws ↔ w ∈ vs) :
    resolve? ws = resolve? vs := by
  have hcontains (w : Text) (hw : w ∈ vocabulary) : ws.contains w = vs.contains w := by
    rw [List.contains_eq_mem, List.contains_eq_mem, decide_eq_decide]
    exact h w hw
  rw [resolve?, hcontains _ (by decide), hcontains _ (by decide), hcontains _ (by decide),
    hcontains _ (by decide), resolve?]

theorem resolve?_filter (ws : List Text) : resolve? (ws.filter isAccessWord) = resolve? ws := by
  refine resolve?_congr fun w hw ↦ ?_
  rw [List.mem_filter, and_iff_left]
  exact List.contains_iff_mem.mpr hw

end Access

namespace Signature

/-- The signature says what keywords state about kind, modifiers and flags. -/
structure Gathers (s : Signature) (ws : List Text) : Prop where
  kind : ws.filterMap ofKeyword? = s.kind.declared
  full : Modifiers.full.contains s.modifiers = true
  modifiers : ∀ m : Modifier, s.modifiers.contains (.single m) = true ↔ m.keyword ∈ ws
  isAsync : s.isAsync = true ↔ "async".toList ∈ ws
  isVolatile : s.isVolatile = true ↔ "volatile".toList ∈ ws
  isFixed : s.isFixed = true ↔ "fixed".toList ∈ ws
  name : s.name = []
  returnType : s.returnType = none
  operator : s.operator = none

/-- The signature says what keywords state, in whatever order they stand. -/
structure IsStatedBy (s : Signature) (ws : List Text) : Prop extends Gathers s ws where
  distinct : (ws.filter isAccessWord).Nodup
  access : Access.resolve? ws = some s.access

variable {s s' : Signature} {w : Text} {words ws vs rest rest' : List Text}

theorem gathers_nil : Gathers {} [] where
  kind := rfl
  full := by decide
  modifiers m := by
    rw [Modifiers.contains_single]
    simp [Modifiers.empty]
  isAsync := by simp
  isVolatile := by simp
  isFixed := by simp
  name := rfl
  returnType := rfl
  operator := rfl

theorem Gathers.withAccess (h : s.Gathers ws) (a : Access) : Gathers { s with access := a } ws :=
  ⟨h.kind, h.full, h.modifiers, h.isAsync, h.isVolatile, h.isFixed, h.name, h.returnType,
    h.operator⟩

/-- Keywords leave only access open. -/
theorem Gathers.unique (h : s.Gathers ws) (h' : s'.Gathers ws) :
    s' = { s with access := s'.access } := by
  have hkind : s'.kind = s.kind :=
    declared_injective (h'.kind.symm.trans h.kind)
  have hmodifiers : s'.modifiers = s.modifiers :=
    Modifiers.ext_contains h'.full h.full fun m ↦ (h'.modifiers m).trans (h.modifiers m).symm
  have hasync : s'.isAsync = s.isAsync := Bool.eq_iff_iff.mpr (h'.isAsync.trans h.isAsync.symm)
  have hvolatile : s'.isVolatile = s.isVolatile :=
    Bool.eq_iff_iff.mpr (h'.isVolatile.trans h.isVolatile.symm)
  have hfixed : s'.isFixed = s.isFixed := Bool.eq_iff_iff.mpr (h'.isFixed.trans h.isFixed.symm)
  have hname : s'.name = s.name := h'.name.trans h.name.symm
  have htype : s'.returnType = s.returnType := h'.returnType.trans h.returnType.symm
  have hoperator : s'.operator = s.operator := h'.operator.trans h.operator.symm
  cases s
  cases s'
  simp_all

theorem IsStatedBy.unique (h : s.IsStatedBy ws) (h' : s'.IsStatedBy ws) : s' = s := by
  have haccess : s'.access = s.access := Option.some.inj (h'.access.symm.trans h.access)
  rw [h.toGathers.unique h'.toGathers, haccess]

theorem IsStatedBy.perm (h : s.IsStatedBy ws) (hp : ws.Perm vs) : s.IsStatedBy vs where
  kind := by
    have hkinds : (vs.filterMap ofKeyword?).Perm s.kind.declared :=
      h.kind ▸ (hp.filterMap _).symm
    generalize s.kind = k at hkinds ⊢
    cases k with
    | member => exact hkinds.eq_nil
    | type k => exact List.perm_singleton.mp hkinds
    | event => exact List.perm_singleton.mp hkinds
    | delegate => exact List.perm_singleton.mp hkinds
  full := h.full
  modifiers m := (h.modifiers m).trans hp.mem_iff
  isAsync := h.isAsync.trans hp.mem_iff
  isVolatile := h.isVolatile.trans hp.mem_iff
  isFixed := h.isFixed.trans hp.mem_iff
  name := h.name
  returnType := h.returnType
  operator := h.operator
  distinct := (hp.filter _).nodup_iff.mp h.distinct
  access := (Access.resolve?_congr fun _ _ ↦ hp.mem_iff.symm).trans h.access

/-! ## One keyword -/

/-- The signature after a keyword. One that states access changes nothing here. -/
def withKeyword (s : Signature) (w : Text) : Signature :=
  match Modifier.ofKeyword? w with
  | some m => { s with modifiers := s.modifiers.insert m }
  | none =>
    { s with
      kind := (ofKeyword? w).getD s.kind
      isAsync := s.isAsync || w == "async".toList
      isVolatile := s.isVolatile || w == "volatile".toList
      isFixed := s.isFixed || w == "fixed".toList }

/-- A keyword may follow unless a second one would say what is declared. -/
def Admits (s : Signature) (w : Text) : Prop :=
  s.kind = .member ∨ ofKeyword? w = none

theorem gathers_withKeyword (h : s.Gathers ws) (hw : s.Admits w) :
    (s.withKeyword w).Gathers (ws ++ [w]) := by
  rw [withKeyword]
  cases hm : Modifier.ofKeyword? w with
  | some m =>
    obtain rfl := Modifier.keyword_of_ofKeyword? hm
    have hnone : ofKeyword? m.keyword = none ∧ "async".toList ≠ m.keyword ∧
        "volatile".toList ≠ m.keyword ∧ "fixed".toList ≠ m.keyword := by cases m <;> decide
    obtain ⟨hkind, hasync, hvolatile, hfixed⟩ := hnone
    refine ⟨?_, Modifiers.full_contains_insert h.full m, fun k ↦ ?_, ?_, ?_, ?_, h.name,
      h.returnType, h.operator⟩
    · rw [List.filterMap_append, h.kind, List.filterMap_cons_none hkind]
      exact List.append_nil _
    · have hkey : m = k ↔ k.keyword = m.keyword :=
        ⟨fun heq ↦ by rw [heq], fun heq ↦ (Modifier.keyword_injective heq).symm⟩
      rw [Modifiers.contains_insert, h.modifiers k, List.mem_append, List.mem_singleton, hkey]
    · rw [List.mem_append, List.mem_singleton, or_iff_left hasync]
      exact h.isAsync
    · rw [List.mem_append, List.mem_singleton, or_iff_left hvolatile]
      exact h.isVolatile
    · rw [List.mem_append, List.mem_singleton, or_iff_left hfixed]
      exact h.isFixed
  | none =>
    have hflag {isSet : Bool} {v : Text} (hset : isSet = true ↔ v ∈ ws) :
        (isSet || w == v) = true ↔ v ∈ ws ++ [w] := by
      rw [Bool.or_eq_true, beq_iff_eq, hset, List.mem_append, List.mem_singleton, @eq_comm _ v]
    have hne (k : Modifier) : k.keyword ≠ w := by
      rintro rfl
      rw [Modifier.ofKeyword?_keyword] at hm
      cases hm
    refine ⟨?_, h.full, fun k ↦ ?_, hflag h.isAsync, hflag h.isVolatile, hflag h.isFixed, h.name,
      h.returnType, h.operator⟩
    · rw [List.filterMap_append, h.kind]
      cases hk : ofKeyword? w with
      | none =>
        rw [List.filterMap_cons_none hk]
        exact List.append_nil _
      | some k =>
        have hmember : s.kind = .member := hw.resolve_right (by simp [hk])
        rw [List.filterMap_cons_some hk, hmember]
        exact (declared_of_ne (ofKeyword?_eq_some_iff.mp hk).1).symm
    · rw [List.mem_append, List.mem_singleton, or_iff_left (hne k)]
      exact h.modifiers k

/-- A keyword that states access says nothing else. -/
theorem withKeyword_of_isAccessWord (s : Signature) (h : isAccessWord w = true) :
    s.withKeyword w = s ∧ s.Admits w := by
  have hnone : ∀ v ∈ Access.vocabulary, Modifier.ofKeyword? v = none ∧
      ofKeyword? v = none ∧ (v == "async".toList) = false ∧
      (v == "volatile".toList) = false ∧ (v == "fixed".toList) = false := by decide
  obtain ⟨hmodifier, hkind, hasync, hvolatile, hfixed⟩ := hnone w (List.contains_iff_mem.mp h)
  refine ⟨?_, .inr hkind⟩
  simp only [withKeyword, hmodifier, hkind, hasync, hvolatile, hfixed, Bool.or_false,
    Option.getD_none]

/-- A keyword that says what is declared may stand only where none has said so before. -/
theorem addKeyword_kind {k : SignatureKind} (words : List Text) (s : Signature)
    (hk : ofKeyword? w = some k) :
    s.kind = .member ∧ addKeyword words s w = .ok (s.withKeyword w) ∨
      s.kind ≠ .member ∧ ∃ f, addKeyword words s w = .error f := by
  obtain ⟨hmember, hw⟩ := ofKeyword?_eq_some_iff.mp hk
  have hnone : Modifier.ofKeyword? w = none ∧ w ≠ "async".toList ∧ w ≠ "volatile".toList ∧
      w ≠ "fixed".toList := by
    rw [← hw]
    cases k with
    | member => exact absurd rfl hmember
    | type t => cases t <;> decide
    | event => decide
    | delegate => decide
  obtain ⟨hmodifier, hasync, hvolatile, hfixed⟩ := hnone
  have hwith : s.withKeyword w = { s with kind := k } := by
    rw [withKeyword, hmodifier, hk, beq_eq_false_iff_ne.mpr hasync,
      beq_eq_false_iff_ne.mpr hvolatile, beq_eq_false_iff_ne.mpr hfixed]
    simp only [Option.getD_some, Bool.or_false]
  rw [hwith, addKeyword, hmodifier]
  dsimp only
  rw [if_neg hasync, if_neg hvolatile, if_neg hfixed]
  cases k with
  | member => exact absurd rfl hmember
  | event =>
    have hevent : w = "event".toList := hw.symm
    rw [if_pos hevent]
    split
    · exact .inl ⟨‹_›, rfl⟩
    · exact .inr ⟨‹_›, _, rfl⟩
  | delegate =>
    have hdelegate : w = "delegate".toList := hw.symm
    rw [if_neg (by rw [hdelegate]; decide), if_pos hdelegate]
    split
    · exact .inl ⟨‹_›, rfl⟩
    · exact .inr ⟨‹_›, _, rfl⟩
  | type t =>
    obtain rfl : t.keyword = w := hw
    have hevent : t.keyword ≠ "event".toList := by cases t <;> decide
    have hdelegate : t.keyword ≠ "delegate".toList := by cases t <;> decide
    rw [if_neg hevent, if_neg hdelegate, TypeKind.ofKeyword?_keyword]
    cases hs : s.kind with
    | member => exact .inl ⟨rfl, rfl⟩
    | type u => exact .inr ⟨by simp, _, rfl⟩
    | event => exact .inr ⟨by simp, _, rfl⟩
    | delegate => exact .inr ⟨by simp, _, rfl⟩

/-- **One keyword**: it is added, unless another one has said what is declared. -/
theorem addKeyword_cases (words : List Text) (s : Signature) (hw : isDeclarationWord w = true)
    (haccess : isAccessWord w = false) :
    s.Admits w ∧ addKeyword words s w = .ok (s.withKeyword w) ∨
      ¬s.Admits w ∧ ∃ f, addKeyword words s w = .error f := by
  cases hkind : ofKeyword? w with
  | some k =>
    have hadmits : s.Admits w ↔ s.kind = .member := or_iff_left (by simp [hkind])
    rw [hadmits]
    exact addKeyword_kind words s hkind
  | none =>
    obtain ⟨htype, hevent, hdelegate⟩ := ofKeyword?_eq_none_iff.mp hkind
    refine .inl ⟨.inr hkind, ?_⟩
    rw [addKeyword, withKeyword, hkind]
    cases hmodifier : Modifier.ofKeyword? w with
    | some m => rfl
    | none =>
      have hflag : w = "async".toList ∨ w = "volatile".toList ∨ w = "fixed".toList := by
        simpa only [isDeclarationWord, isLeadingWord, haccess, isModifierWord, hmodifier, htype,
          isFlagWord, Option.isSome_none, Bool.false_or, Bool.or_false, Bool.or_eq_true, beq_iff_eq,
          hevent, hdelegate, or_false, or_assoc] using hw
      rcases hflag with rfl | rfl | rfl <;> simp

/-- Where all keywords state something, each of them may follow those before it. -/
theorem IsStatedBy.admits (h : s'.IsStatedBy (vs ++ [w] ++ ws)) (hs : s.Gathers vs) :
    s.Admits w := by
  rw [Admits, or_iff_not_imp_right]
  intro hw
  obtain ⟨k, hk⟩ := Option.ne_none_iff_exists'.mp hw
  have hkinds := h.kind
  rw [List.filterMap_append, List.filterMap_append, hs.kind, List.filterMap_cons_some hk] at hkinds
  by_contra hmember
  rw [declared_of_ne hmember] at hkinds
  have hlength := congrArg List.length hkinds
  cases hk' : s'.kind <;> simp [hk', declared] at hlength

/-! ## All keywords -/

theorem stripFrom_of_head? {stated : List Text}
    (hrest : ∀ w ∈ rest.head?, isDeclarationWord w = false) :
    stripFrom words s stated rest = stripFrom.finish words s stated rest := by
  cases rest with
  | nil => rfl
  | cons w rest => rw [stripFrom, if_pos (by simp [hrest w rfl])]

theorem finish_eq_ok_iff (hs : s.Gathers ws) (hdistinct : (ws.filter isAccessWord).Nodup) :
    stripFrom.finish words s (ws.filter isAccessWord) rest = .ok (s', rest') ↔
      s'.IsStatedBy ws ∧ rest' = rest := by
  rw [stripFrom.finish, Access.resolve?_filter]
  constructor
  · intro h
    cases ha : Access.resolve? ws with
    | none => simp [ha] at h
    | some a =>
      obtain ⟨rfl, rfl⟩ : { s with access := a } = s' ∧ rest = rest' := by simpa [ha] using h
      exact ⟨⟨hs.withAccess a, hdistinct, ha⟩, rfl⟩
  · rintro ⟨h, rfl⟩
    rw [h.access, hs.unique h.toGathers]

/-- **All keywords**: they are stripped if and only if they state a signature. The induction goes
along the keywords that are left, and the signature gathers what those before them have stated. -/
theorem stripFrom_eq_ok_iff (hs : s.Gathers vs) (hdistinct : (vs.filter isAccessWord).Nodup)
    (hws : ∀ w ∈ ws, isDeclarationWord w = true)
    (hrest : ∀ w ∈ rest.head?, isDeclarationWord w = false) :
    stripFrom words s (vs.filter isAccessWord) (ws ++ rest) = .ok (s', rest') ↔
      s'.IsStatedBy (vs ++ ws) ∧ rest' = rest := by
  induction ws generalizing s vs with
  | nil =>
    rw [List.nil_append, List.append_nil, stripFrom_of_head? hrest]
    exact finish_eq_ok_iff hs hdistinct
  | cons w ws ih =>
    have hw := hws w List.mem_cons_self
    have hlater : ∀ v ∈ ws, isDeclarationWord v = true := fun v hv ↦
      hws v (List.mem_cons_of_mem w hv)
    rw [List.append_cons vs w ws, List.cons_append, stripFrom, if_neg (by simp [hw])]
    cases haccess : isAccessWord w with
    | true =>
      obtain ⟨hsame, hadmits⟩ := withKeyword_of_isAccessWord s haccess
      have hgathers := gathers_withKeyword hs hadmits
      have hstated : (vs ++ [w]).filter isAccessWord = vs.filter isAccessWord ++ [w] := by
        rw [List.filter_append, List.filter_cons_of_pos haccess, List.filter_nil]
      rw [hsame] at hgathers
      rw [if_pos rfl]
      by_cases hmem : w ∈ vs.filter isAccessWord
      · rw [if_pos (by simpa using hmem)]
        refine iff_of_false (by simp) fun ⟨h, _⟩ ↦ ?_
        have hnodup := h.distinct
        rw [List.filter_append, hstated] at hnodup
        exact (List.nodup_append.mp (List.nodup_append.mp hnodup).1).2.2 w hmem w
          List.mem_cons_self rfl
      · have hnodup : (vs.filter isAccessWord ++ [w]).Nodup :=
          List.nodup_append.mpr ⟨hdistinct, by simp, fun a ha b hb ↦ by
            rintro rfl
            exact hmem (List.mem_singleton.mp hb ▸ ha)⟩
        rw [if_neg (by simpa using hmem), ← hstated]
        exact ih hgathers (hstated ▸ hnodup) hlater
    | false =>
      have hstated : (vs ++ [w]).filter isAccessWord = vs.filter isAccessWord := by
        rw [List.filter_append, List.filter_cons_of_neg (by simp [haccess]), List.filter_nil,
          List.append_nil]
      rw [if_neg Bool.false_ne_true]
      rcases addKeyword_cases words s hw haccess with ⟨hadmits, hadd⟩ | ⟨hadmits, f, hadd⟩
      · rw [hadd, ← hstated]
        exact ih (gathers_withKeyword hs hadmits) (hstated ▸ hdistinct) hlater
      · rw [hadd]
        refine iff_of_false (by simp) fun h ↦ hadmits (h.1.admits hs)

section Strip

variable (hws : ∀ w ∈ ws, isDeclarationWord w = true)

include hws

theorem strip_eq_ok_iff (hrest : ∀ w ∈ rest.head?, isDeclarationWord w = false) :
    strip (ws ++ rest) = .ok (s, rest') ↔ s.IsStatedBy ws ∧ rest' = rest :=
  stripFrom_eq_ok_iff gathers_nil List.nodup_nil hws hrest

/-- Keywords alone make up a signature exactly if they state it. -/
theorem ofKeywords_eq_ok_iff_isStatedBy : ofKeywords ws = .ok s ↔ s.IsStatedBy ws := by
  have hstrip (s' : Signature) (rest' : List Text) :
      strip ws = .ok (s', rest') ↔ s'.IsStatedBy ws ∧ rest' = [] := by
    have hnil : ∀ w ∈ ([] : List Text).head?, isDeclarationWord w = false := by simp
    simpa using strip_eq_ok_iff hws hnil
  rw [ofKeywords]
  cases hs : strip ws with
  | error f =>
    refine iff_of_false (by simp [bind, Except.bind]) fun h ↦ ?_
    rw [(hstrip s []).mpr ⟨h, rfl⟩] at hs
    cases hs
  | ok r =>
    obtain ⟨hstated, hrest⟩ := (hstrip r.1 r.2).mp hs
    have hempty : r.2.isEmpty = true := by rw [hrest]; rfl
    simp only [bind, Except.bind, hempty, if_true, Except.ok.injEq]
    exact ⟨fun heq ↦ heq ▸ hstated, fun h ↦ h.unique hstated⟩

end Strip

/-! ## Name and type -/

/-- What is left to be sorted where the keywords have been stripped. -/
def completed (words : List Text) (s : Signature) (rest : List Text) : Except Fault Signature := do
  let d ← declarator (separateOperators rest).reverse
  let type ← qualifiedType words d
  if type.any isTypeMisnamed then .error (unhandled words)
  else .ok { s with name := d.name, returnType := type, operator := d.operator }

theorem ofWords_eq_bind (words : List Text) :
    ofWords words = strip words >>= fun r ↦ completed words r.1 r.2 := rfl

theorem ofWords_eq_ok_iff :
    ofWords words = .ok s ↔ ∃ r, strip words = .ok r ∧ completed words r.1 r.2 = .ok s := by
  rw [ofWords_eq_bind]
  cases strip words <;> simp [bind, Except.bind]

/-- All words of a signature are mentioned only where a fault is reported. -/
theorem qualifiedType_eq_ok_of_eq_ok {d : Declarator} {type : Option Text}
    (h : qualifiedType words d = .ok type) (words' : List Text) :
    qualifiedType words' d = .ok type := by
  rw [qualifiedType] at h ⊢
  split at h
  · exact h
  · split at h
    · rename_i hall
      rw [if_pos hall]
      exact h
    · cases h
  · cases h

theorem completed_eq_ok_of_eq_ok (h : completed words s rest = .ok s') (words' : List Text) :
    completed words' s rest = .ok s' := by
  rw [completed] at h ⊢
  cases hd : declarator (separateOperators rest).reverse with
  | error f => simp [hd, bind, Except.bind] at h
  | ok d =>
    cases ht : qualifiedType words d with
    | error f => simp [hd, ht, bind, Except.bind] at h
    | ok type =>
      simp only [hd, ht, qualifiedType_eq_ok_of_eq_ok ht words', bind, Except.bind] at h ⊢
      split at h
      · cases h
      · rename_i hmisnamed
        rw [if_neg hmisnamed]
        exact h

theorem ofWords_eq_ok_of_perm (hws : ∀ w ∈ ws, isDeclarationWord w = true) (hp : ws.Perm vs)
    (hrest : ∀ w ∈ rest.head?, isDeclarationWord w = false) (h : ofWords (ws ++ rest) = .ok s) :
    ofWords (vs ++ rest) = .ok s := by
  obtain ⟨r, hr, hcompleted⟩ := ofWords_eq_ok_iff.mp h
  obtain ⟨hstated, hleft⟩ := (strip_eq_ok_iff hws hrest).mp hr
  have hvs : ∀ w ∈ vs, isDeclarationWord w = true := fun w hw ↦ hws w (hp.mem_iff.mpr hw)
  exact ofWords_eq_ok_iff.mpr ⟨r, (strip_eq_ok_iff hvs hrest).mpr ⟨hstated.perm hp, hleft⟩,
    completed_eq_ok_of_eq_ok hcompleted _⟩

/-- **The order of keywords does not matter.** Whatever keywords stand in front of a declaration,
and whatever follows them, another order gives a signature if and only if this one does, and it is
the same signature. So it is for keywords alone, which make up exactly the signature that they
state. -/
theorem ofWords_perm_iff {ws vs rest : List Text} (hws : ∀ w ∈ ws, isDeclarationWord w = true)
    (hp : ws.Perm vs) (hrest : ∀ w ∈ rest.head?, isDeclarationWord w = false) (s : Signature) :
    (ofWords (ws ++ rest) = .ok s ↔ ofWords (vs ++ rest) = .ok s) ∧
      (ofKeywords ws = .ok s ↔ ofKeywords vs = .ok s) ∧
      (ofKeywords ws = .ok s ↔ s.IsStatedBy ws) := by
  have hvs : ∀ w ∈ vs, isDeclarationWord w = true := fun w hw ↦ hws w (hp.mem_iff.mpr hw)
  have hwords := ofKeywords_eq_ok_iff_isStatedBy (s := s) hws
  refine ⟨⟨ofWords_eq_ok_of_perm hws hp hrest, ofWords_eq_ok_of_perm hvs hp.symm hrest⟩, ?_, hwords⟩
  rw [hwords, ofKeywords_eq_ok_iff_isStatedBy hvs]
  exact ⟨fun h ↦ h.perm hp, fun h ↦ h.perm hp.symm⟩

theorem ofWords_perm_iff_event :
    (["static", "event", "internal", "static", "protected"].map String.toList).Perm
        (["protected", "internal", "static", "static", "event"].map String.toList) ∧
      ofWords (["static", "event", "internal", "static", "protected", "E<A, B>", "Changed"].map
          String.toList) =
        .ok { kind := .event, access := .toHeirsOrAssembly, modifiers := .single .shared,
              name := "Changed".toList, returnType := some "E<A, B>".toList } ∧
      ofKeywords (["static", "event", "internal", "static", "protected"].map String.toList) =
        .ok { kind := .event, access := .toHeirsOrAssembly, modifiers := .single .shared } := by
  have hperm : (["static", "event", "internal", "static", "protected"].map String.toList).Perm
      (["protected", "internal", "static", "static", "event"].map String.toList) := by decide
  have hrest : ∀ w ∈ ["E<A, B>".toList, "Changed".toList].head?, isDeclarationWord w = false := by
    decide
  exact ⟨hperm, (ofWords_perm_iff (by decide) hperm hrest _).1.mpr (by decide),
    (ofWords_perm_iff (by decide) hperm hrest _).2.1.mpr (by decide)⟩

end Signature

end SharpOutline
