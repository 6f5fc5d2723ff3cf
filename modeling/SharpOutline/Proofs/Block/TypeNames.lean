import SharpOutline.Proofs.Block.DeclaredNames

/-!
# Names of types

The name of a type is a row of identifiers with dots between them, which type arguments may follow:
names of types again, in angle brackets, to any depth (`IsTypeName`).

There are blanks and commas in such a name, but only inside brackets. So it is kept together where a
signature is cut into words (`IsTypeName.isKept`) and where a list is cut at its commas
(`IsTypeName.isClean`). Both are proved for a name inside any number of brackets, because that is
where its arguments stand.
-/

namespace SharpOutline

open Scanner

/-! ## The grammar -/

/-- An identifier, other than the word with which constraints start. -/
def isTypeIdentifier (w : Text) : Bool := isIdentifier w && w != "where".toList

/-- Identifiers with dots between them. -/
inductive IsTypePath : Text → Prop
  | identifier {w : Text} (h : isTypeIdentifier w = true) : IsTypePath w
  | dotted {w v : Text} (h : isTypeIdentifier w = true) (hv : IsTypePath v) :
      IsTypePath (w ++ '.' :: v)

/-- The name of a type, with type arguments or without. -/
inductive IsTypeName : Text → Prop
  | path {w : Text} (h : IsTypePath w) : IsTypeName w
  | generic {w : Text} {arguments : List Text} (h : IsTypePath w) (hne : arguments ≠ [])
      (harguments : ∀ a ∈ arguments, IsTypeName a) :
      IsTypeName (w ++ '<' :: (Text.join partSeparator arguments ++ ['>']))

/-! ## Characters -/

theorem mem_join {separator : Text} {parts : List Text} {c : Char}
    (h : c ∈ Text.join separator parts) : c ∈ separator ∨ ∃ w ∈ parts, c ∈ w := by
  induction parts with
  | nil => simp [Text.join] at h
  | cons w parts ih =>
    cases parts with
    | nil =>
      rw [Text.join_singleton] at h
      exact .inr ⟨w, by simp, h⟩
    | cons v parts =>
      rw [Text.join_cons_cons, List.mem_append, List.mem_append] at h
      rcases h with h | h | h
      · exact .inr ⟨w, by simp, h⟩
      · exact .inl h
      · rcases ih h with h | ⟨x, hx, h⟩
        · exact .inl h
        · exact .inr ⟨x, List.mem_cons_of_mem w hx, h⟩

theorem isIdentifier_of_isTypeIdentifier {w : Text} (h : isTypeIdentifier w = true) :
    isIdentifier w = true ∧ w ≠ "where".toList := by
  simpa [isTypeIdentifier] using h

namespace IsTypePath

variable {w : Text} {c : Char}

theorem isIdentifierCharacter_of_mem (h : IsTypePath w) (hc : c ∈ w) :
    isIdentifierCharacter c = true ∨ c = '.' := by
  induction h with
  | identifier h =>
    exact .inl (SharpOutline.isIdentifierCharacter_of_mem (isIdentifier_of_isTypeIdentifier h).1 hc)
  | dotted h hv ih =>
    rcases List.mem_append.mp hc with hc | hc
    · exact .inl
        (SharpOutline.isIdentifierCharacter_of_mem (isIdentifier_of_isTypeIdentifier h).1 hc)
    · rcases List.mem_cons.mp hc with rfl | hc
      · exact .inr rfl
      · exact ih hc

theorem isMild_of_mem (h : IsTypePath w) (hc : c ∈ w) : isMild c = true ∧ endsWord c = false := by
  rcases h.isIdentifierCharacter_of_mem hc with hc | rfl
  · exact isMild_of_isIdentifierCharacter hc
  · exact ⟨by decide, by decide⟩

theorem ne_nil (h : IsTypePath w) : w ≠ [] := by
  cases h with
  | identifier h => exact (isWord_of_isIdentifier (isIdentifier_of_isTypeIdentifier h).1).1
  | dotted h hv => simp

theorem isWord (h : IsTypePath w) : IsWord w := ⟨h.ne_nil, fun _ hc ↦ (h.isMild_of_mem hc).2⟩

theorem exists_eq_append_singleton (h : IsTypePath w) :
    ∃ u c, w = u ++ [c] ∧ isIdentifierCharacter c = true := by
  induction h with
  | @identifier w h =>
    have h := (isIdentifier_of_isTypeIdentifier h).1
    have hne := (isWord_of_isIdentifier h).1
    exact ⟨_, _, (List.dropLast_append_getLast hne).symm,
      SharpOutline.isIdentifierCharacter_of_mem h (List.getLast_mem hne)⟩
  | @dotted w v h hv ih =>
    obtain ⟨u, c, rfl, hc⟩ := ih
    exact ⟨w ++ '.' :: u, c, by simp, hc⟩

theorem ne_where (h : IsTypePath w) : w ≠ "where".toList := by
  cases h with
  | identifier h => exact (isIdentifier_of_isTypeIdentifier h).2
  | @dotted w v h hv =>
    intro heq
    have hdot : '.' ∈ w ++ '.' :: v := by simp
    rw [heq] at hdot
    exact absurd hdot (by decide)

end IsTypePath

namespace IsTypeName

variable {w : Text} {c : Char}

theorem forall_mem {p : Char → Prop} (h : IsTypeName w)
    (hidentifier : ∀ c, isIdentifierCharacter c = true → p c)
    (hmark : ∀ c ∈ ['.', '<', '>', ',', ' '], p c) : ∀ c ∈ w, p c := by
  have hpath {w : Text} (h : IsTypePath w) : ∀ c ∈ w, p c := fun c hc ↦ by
    rcases h.isIdentifierCharacter_of_mem hc with hc | rfl
    · exact hidentifier c hc
    · exact hmark _ (by simp)
  induction h with
  | path h => exact hpath h
  | generic h hne harguments ih =>
    intro c hc
    simp only [List.mem_append, List.mem_cons, List.not_mem_nil, or_false] at hc
    rcases hc with hc | rfl | hc | rfl
    · exact hpath h c hc
    · exact hmark _ (by simp)
    · rcases mem_join hc with hc | ⟨a, ha, hc⟩
      · exact hmark c (by simp only [partSeparator, List.mem_cons] at hc ⊢; tauto)
      · exact ih a ha c hc
    · exact hmark _ (by simp)

theorem endsWord_head? (h : IsTypeName w) : ∀ c ∈ w.head?, endsWord c = false := by
  have hpath {w v : Text} (h : IsTypePath w) : ∀ c ∈ (w ++ v).head?, endsWord c = false := by
    intro c hc
    rw [List.head?_append_of_ne_nil _ h.ne_nil] at hc
    exact (h.isMild_of_mem (List.mem_of_head? hc)).2
  cases h with
  | path h => simpa using hpath (v := []) h
  | generic h hne harguments => exact hpath h

theorem ne_nil (h : IsTypeName w) : w ≠ [] := by
  cases h with
  | path h => exact h.ne_nil
  | generic h hne harguments => simp

theorem trim_eq (h : IsTypeName w) : Text.trim w = w := by
  refine Text.trim_eq_self (fun c hc ↦ isBlank_of_endsWord (h.endsWord_head? c hc)) fun c hc ↦ ?_
  cases h with
  | path h => exact h.isWord.isBlank_eq_false (List.mem_of_getLast? hc)
  | @generic w arguments h hne harguments =>
    rw [← List.cons_append, ← List.append_assoc, List.getLast?_concat] at hc
    cases hc
    decide

theorem ne_where (h : IsTypeName w) : w ≠ "where".toList := by
  cases h with
  | path h => exact h.ne_where
  | @generic w arguments h hne harguments =>
    intro heq
    have hangle : '<' ∈ w ++ '<' :: (Text.join partSeparator arguments ++ ['>']) := by simp
    rw [heq] at hangle
    exact absurd hangle (by decide)

end IsTypeName

/-! ## Words of a signature -/

/-- The text is passed as a part of one word, at any level of brackets from `n` on. -/
def Solid (n : Nat) (w : Text) : Prop :=
  ∀ found v level t, n ≤ level →
    phraseWordsFrom found v level (w ++ t) = phraseWordsFrom found (v ++ w) level t

section Solid

variable {n : Nat} {u w : Text}

theorem Solid.mono {k : Nat} (h : Solid n w) (hk : n ≤ k) : Solid k w :=
  fun found v level t hlevel ↦ h found v level t (hk.trans hlevel)

theorem Solid.append (hu : Solid n u) (hw : Solid n w) : Solid n (u ++ w) := by
  intro found v level t hlevel
  rw [List.append_assoc, hu found v level _ hlevel, hw found _ level t hlevel, List.append_assoc]

theorem solid_of_nestingAfter
    (hw : ∀ c ∈ w, isBlank c = false ∧ ∀ level, nestingAfter c level = level) : Solid 0 w := by
  intro found v level t _
  obtain ⟨hunbroken, hlevel⟩ :=
    isUnbroken_of_nestingAfter fun c hc ↦ ⟨(hw c hc).1, (hw c hc).2 level⟩
  rw [phraseWordsFrom_of_isUnbroken hunbroken, hlevel]

theorem solid_of_endsWord (hw : ∀ c ∈ w, endsWord c = false) : Solid 0 w :=
  solid_of_nestingAfter fun c hc ↦
    ⟨isBlank_of_endsWord (hw c hc), nestingAfter_of_endsWord (hw c hc)⟩

/-- Inside brackets a blank ends no word. -/
theorem solid_partSeparator : Solid 1 partSeparator := by
  intro found v level t hlevel
  have hlevel : (level == 0) = false := beq_eq_false_iff_ne.mpr (by omega)
  have hcomma : nestingAfter ',' level = level := rfl
  have hspace : nestingAfter ' ' level = level := rfl
  rw [partSeparator, List.cons_append, phraseWordsFrom, if_neg (by rw [hlevel]; simp), hcomma,
    List.singleton_append, phraseWordsFrom, if_neg (by rw [hlevel]; simp), hspace]
  simp

theorem solid_nil : Solid n [] := fun found v level t _ ↦ by simp

theorem solid_bracketed {opener closer : Char} (ho : isBlank opener = false)
    (hc : isBlank closer = false) (hopen : ∀ level, nestingAfter opener level = level + 1)
    (hclose : ∀ level, nestingAfter closer (level + 1) = level) (h : Solid (n + 1) w) :
    Solid n (opener :: (w ++ [closer])) := by
  intro found v level t hlevel
  rw [List.cons_append, phraseWordsFrom, ho, Bool.false_and, if_neg Bool.false_ne_true,
    List.append_assoc, hopen, h _ _ _ _ (Nat.add_le_add_right hlevel 1), List.singleton_append,
    phraseWordsFrom, hc, Bool.false_and, if_neg Bool.false_ne_true, hclose]
  simp

theorem solid_join {parts : List Text} (h : ∀ w ∈ parts, Solid 1 w) :
    Solid 1 (Text.join partSeparator parts) := by
  induction parts with
  | nil => exact solid_nil
  | cons w parts ih =>
    have hw := h w (by simp)
    cases parts with
    | nil =>
      rw [join_partSeparator_singleton]
      exact hw
    | cons v parts =>
      rw [join_partSeparator_cons]
      exact hw.append (solid_partSeparator.append (ih fun x hx ↦ h x (List.mem_cons_of_mem w hx)))

end Solid

namespace IsTypeName

variable {w : Text}

theorem solid (h : IsTypeName w) : Solid 0 w := by
  induction h with
  | path h => exact solid_of_endsWord h.isWord.2
  | generic h hne harguments ih =>
    have hjoin := solid_join fun a ha ↦ (ih a ha).mono (Nat.zero_le 1)
    exact (solid_of_endsWord h.isWord.2).append
      (solid_bracketed (by decide) (by decide) (fun _ ↦ rfl) (fun _ ↦ rfl) hjoin)

/-- The name of a type is one word. -/
theorem isKept (h : IsTypeName w) : IsKept w where
  ne_nil := h.ne_nil
  head?_ne hhead := absurd (h.endsWord_head? '[' hhead) (by decide)
  pass found v t := h.solid found v 0 t (Nat.le_refl 0)

end IsTypeName

/-! ## Parts of a list -/

namespace PartScan

variable {p : PartScan} {n k j : Nat} {c : Char} {u v : Text}

theorem Flows.append (hu : Flows n u k) (hv : Flows k v j)
    (hinert : ∀ c ∈ v, isInert c = true) : Flows n (u ++ v) j := by
  intro p hp
  have hapart : Apart u v := by
    cases v with
    | nil => exact apart_of_isInert isInert_endMark
    | cons c v => exact apart_of_isInert (hinert c List.mem_cons_self)
  obtain ⟨huncut, hafter, hlabels⟩ := hu p hp
  obtain ⟨hvuncut, hvafter, hvlabels⟩ := hv _ hafter
  rw [isUncut_append hapart, after_append hapart, labelled_append hapart, huncut, hvuncut]
  rw [scanner_after] at hvlabels
  exact ⟨rfl, hvafter, List.forall_mem_append.mpr ⟨hlabels, hvlabels⟩⟩

theorem flows_partSeparator : Flows (n + 1) partSeparator (n + 1) := by
  intro p hp
  obtain ⟨l, b, hscanner⟩ := hp.scanner
  have hcomma : (ready [] l b).step ',' ' ' = (ready [] ',' l, .code) :=
    step_of_isCalm (by decide)
  have hspace : (ready [] ',' l).step ' ' endMark = (ready [] ' ' ',', .code) :=
    step_of_isCalm (by decide)
  refine ⟨?_, ⟨⟨' ', ',', ?_⟩, ?_, ?_⟩, ?_⟩ <;>
    simp [partSeparator, isUncut, PartScan.after, separates, next, hscanner, hcomma, hspace,
      hp.level, hp.generic]

theorem previous_after_concat (p : PartScan) (u : Text) (c : Char) :
    (p.after (u ++ [c])).previous = some c := by
  induction u generalizing p with
  | nil => exact previous_next ..
  | cons d u ih => exact ih _

theorem flows_open (hu : IsTypePath u) : Flows n (u ++ ['<']) (n + 1) := by
  intro p hp
  have hapart : Apart u ['<'] := apart_of_isInert (by decide)
  obtain ⟨huncut, hafter, hlabels⟩ := flows_of_isBland
    (fun c hc ↦ isBland_of_isMild (hu.isMild_of_mem hc).1) p hp
  obtain ⟨v, c, rfl, hc⟩ := hu.exists_eq_append_singleton
  have hprevious := previous_after_concat p v c
  obtain ⟨l, b, hscanner⟩ := hafter.scanner
  rw [scanner_after] at hscanner
  have hangle : (ready [] l b).step '<' endMark = (ready [] '<' l, .code) :=
    step_of_isCalm (by decide)
  rw [isUncut_append hapart, after_append hapart, labelled_append hapart, huncut]
  refine ⟨?_, ⟨⟨'<', l, ?_⟩, ?_, ?_⟩, List.forall_mem_append.mpr ⟨hlabels, ?_⟩⟩ <;>
    simp [isUncut, PartScan.after, separates, next, hscanner, hangle, hprevious, hc, hafter.level,
      hafter.generic]

theorem flows_close : Flows (n + 1) ['>'] n := by
  intro p hp
  obtain ⟨l, b, hscanner⟩ := hp.scanner
  have hangle : (ready [] l b).step '>' endMark = (ready [] '>' l, .code) :=
    step_of_isCalm (by decide)
  refine ⟨?_, ⟨⟨'>', l, ?_⟩, ?_, ?_⟩, ?_⟩ <;>
    simp [isUncut, PartScan.after, separates, next, hscanner, hangle, hp.level, hp.generic]

theorem isInert_of_mem_join {parts : List Text} (h : ∀ w ∈ parts, ∀ c ∈ w, isInert c = true) :
    ∀ c ∈ Text.join partSeparator parts, isInert c = true := by
  intro c hc
  rcases mem_join hc with hc | ⟨w, hw, hc⟩
  · exact List.all_eq_true.mp (by decide : partSeparator.all isInert = true) c hc
  · exact h w hw c hc

theorem flows_join {parts : List Text} (hinert : ∀ w ∈ parts, ∀ c ∈ w, isInert c = true)
    (h : ∀ w ∈ parts, Flows (n + 1) w (n + 1)) :
    Flows (n + 1) (Text.join partSeparator parts) (n + 1) := by
  induction parts with
  | nil => exact flows_of_isBland (by simp [Text.join])
  | cons w parts ih =>
    have hw := h w (by simp)
    cases parts with
    | nil =>
      rw [join_partSeparator_singleton]
      exact hw
    | cons v parts =>
      have hinert' := isInert_of_mem_join fun x hx ↦ hinert x (List.mem_cons_of_mem w hx)
      have hlater := ih (fun x hx ↦ hinert x (List.mem_cons_of_mem w hx))
        fun x hx ↦ h x (List.mem_cons_of_mem w hx)
      have hboth : ∀ c ∈ partSeparator ++ Text.join partSeparator (v :: parts),
          isInert c = true := List.forall_mem_append.mpr
        ⟨List.all_eq_true.mp (by decide : partSeparator.all isInert = true), hinert'⟩
      rw [join_partSeparator_cons]
      exact hw.append (flows_partSeparator.append hlater hinert') hboth

end PartScan

namespace IsTypeName

open PartScan

variable {w : Text}

theorem isInert_of_mem (h : IsTypeName w) : ∀ c ∈ w, isInert c = true := by
  refine h.forall_mem (fun c hc ↦ ?_) (List.all_eq_true.mp (by decide))
  have hmild := (isMild_of_isIdentifierCharacter hc).1
  have hquote : c ≠ '"' := by
    rintro rfl
    exact absurd hmild (by decide)
  simp [isInert, hquote, ne_of_isMild hmild (d := '/') rfl, ne_of_isMild hmild (d := '*') rfl,
    ne_of_isMild hmild (d := '\x7b') rfl, ne_of_isMild hmild (d := '\x7d') rfl]

/-- A name is passed inside any number of lists of type arguments. -/
theorem flows (h : IsTypeName w) : ∀ n, Flows n w n := by
  induction h with
  | path h => exact fun n ↦ flows_of_isBland fun c hc ↦ isBland_of_isMild (h.isMild_of_mem hc).1
  | @generic w arguments h hne harguments ih =>
    intro n
    have hinert : ∀ a ∈ arguments, ∀ c ∈ a, isInert c = true := fun a ha ↦
      (harguments a ha).isInert_of_mem
    have hjoin := flows_join hinert fun a ha ↦ ih a ha (n + 1)
    have hclosed := hjoin.append flows_close (List.forall_mem_singleton.mpr (by decide))
    have hall := (flows_open h).append hclosed
      (List.forall_mem_append.mpr ⟨isInert_of_mem_join hinert,
        List.forall_mem_singleton.mpr (by decide)⟩)
    rwa [List.append_assoc, List.singleton_append] at hall

/-- The name of a type is one part of a list. -/
theorem isClean (h : IsTypeName w) : Text.IsClean w := Text.isClean_of_flows (h.flows 0)

end IsTypeName

end SharpOutline
