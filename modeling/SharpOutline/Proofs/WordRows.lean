import SharpOutline.Proofs.Words

/-!
# Words that are cut again

A text is cut into words where a blank stands outside brackets. Brackets need not match: one that
closes nothing is passed over, and one that is never closed keeps the rest of the text together. So
all words but the last leave no bracket open, and none of them has a blank outside brackets. A word
that starts with a square bracket has been joined to the word before it, so only the first one can
start with one (`IsWordRow`).

This is all that is needed to find the words again when they are joined by spaces
(`IsWordRow.phraseWords_join`), and both parts of a row are rows. Words may therefore be split up
into two groups, joined and cut once more, as it is done with the header of a type.
-/

namespace SharpOutline

variable {ws vs found : List Text} {w : Text}

/-- The list of words may have been cut from a text. -/
structure IsWordRow (ws : List Text) : Prop where
  ne_nil : ∀ w ∈ ws, w ≠ []
  unbroken : ∀ w ∈ ws, isUnbroken 0 w = true
  closed : ∀ w ∈ ws.dropLast, nestingAlong 0 w = 0
  head?_ne : ∀ w ∈ ws.tail, w.head? ≠ some '['

theorem isWordRow_nil : IsWordRow [] := ⟨by simp, by simp, by simp, by simp⟩

theorem IsWordRow.of_append (h : IsWordRow (ws ++ vs)) : IsWordRow ws ∧ IsWordRow vs := by
  have hdrop : ws.dropLast ⊆ (ws ++ vs).dropLast ∧ vs.dropLast ⊆ (ws ++ vs).dropLast := by
    rw [List.dropLast_append]
    split
    · simp_all
    · exact ⟨fun w hw ↦ by simp [List.mem_of_mem_dropLast hw], by simp⟩
  have htail : ws.tail ⊆ (ws ++ vs).tail ∧ vs.tail ⊆ (ws ++ vs).tail := by
    cases ws with
    | nil => simp
    | cons w ws => exact ⟨by simp, fun v hv ↦ by simp [List.mem_of_mem_tail hv]⟩
  constructor
  · exact ⟨fun w hw ↦ h.ne_nil w (by simp [hw]), fun w hw ↦ h.unbroken w (by simp [hw]),
      fun w hw ↦ h.closed w (hdrop.1 hw), fun w hw ↦ h.head?_ne w (htail.1 hw)⟩
  · exact ⟨fun w hw ↦ h.ne_nil w (by simp [hw]), fun w hw ↦ h.unbroken w (by simp [hw]),
      fun w hw ↦ h.closed w (hdrop.2 hw), fun w hw ↦ h.head?_ne w (htail.2 hw)⟩

/-- A row goes on behind words that leave no bracket open. -/
theorem isWordRow_concat_iff : IsWordRow (ws ++ [w]) ↔
    (IsWordRow ws ∧ ∀ v ∈ ws, nestingAlong 0 v = 0) ∧ w ≠ [] ∧ isUnbroken 0 w = true ∧
      (ws ≠ [] → w.head? ≠ some '[') := by
  constructor
  · intro h
    have hclosed := h.closed
    rw [List.dropLast_concat] at hclosed
    refine ⟨⟨h.of_append.1, hclosed⟩, h.ne_nil w (by simp), h.unbroken w (by simp), fun hws ↦ ?_⟩
    exact h.head?_ne w (by rw [List.tail_append_of_ne_nil hws]; simp)
  · rintro ⟨⟨h, hclosed⟩, hne, hunbroken, hhead⟩
    refine ⟨List.forall_mem_append.mpr ⟨h.ne_nil, by simpa using hne⟩,
      List.forall_mem_append.mpr ⟨h.unbroken, by simpa using hunbroken⟩, ?_, ?_⟩
    · rwa [List.dropLast_concat]
    · cases ws with
      | nil => simp
      | cons v ws =>
        exact List.forall_mem_append.mpr ⟨h.head?_ne, by simpa using hhead (by simp)⟩

/-! ## Cutting gives a row -/

/-- What a finished word does to the words before it. -/
theorem addWord_cases (found : List Text) (w : Text) : w = [] ∧ addWord found w = found ∨
    (w ≠ [] ∧ (found ≠ [] → w.head? ≠ some '[')) ∧ addWord found w = found ++ [w] ∨
      ∃ vs v, found = vs ++ [v] ∧ addWord found w = vs ++ [v ++ w] := by
  by_cases hw : w = []
  · exact .inl ⟨hw, by simp [addWord, hw]⟩
  by_cases hhead : found ≠ [] → w.head? ≠ some '['
  · exact .inr (.inl ⟨⟨hw, hhead⟩, addWord_eq hw hhead⟩)
  · obtain ⟨hfound, hbracket⟩ : found ≠ [] ∧ w.head? = some '[' := by simpa using hhead
    obtain ⟨vs, v, rfl⟩ : ∃ vs v, found = vs ++ [v] :=
      ⟨_, _, (List.dropLast_append_getLast hfound).symm⟩
    exact .inr (.inr ⟨vs, v, rfl, by simp [addWord, hw, hbracket]⟩)

/-- A finished word is added to a row of closed words, or to the last one of them. -/
theorem isWordRow_addWord (h : IsWordRow found) (hclosed : ∀ v ∈ found, nestingAlong 0 v = 0)
    (hw : isUnbroken 0 w = true) : IsWordRow (addWord found w) ∧
      (nestingAlong 0 w = 0 → ∀ v ∈ addWord found w, nestingAlong 0 v = 0) := by
  rcases addWord_cases found w with ⟨-, heq⟩ | ⟨⟨hne, hhead⟩, heq⟩ | ⟨vs, v, rfl, heq⟩
  · rw [heq]
    exact ⟨h, fun _ ↦ hclosed⟩
  · rw [heq]
    refine ⟨isWordRow_concat_iff.mpr ⟨⟨h, hclosed⟩, hne, hw, hhead⟩, fun hlevel ↦ ?_⟩
    exact List.forall_mem_append.mpr ⟨hclosed, by simpa using hlevel⟩
  · rw [heq]
    obtain ⟨hvs, hne, hunbroken, hhead⟩ := isWordRow_concat_iff.mp h
    have hv : nestingAlong 0 v = 0 := hclosed v (by simp)
    refine ⟨isWordRow_concat_iff.mpr ⟨hvs, by simp [hne], ?_, ?_⟩, fun hlevel ↦ ?_⟩
    · rw [isUnbroken_append, hunbroken, hv, hw]
      rfl
    · rwa [List.head?_append_of_ne_nil _ hne]
    · refine List.forall_mem_append.mpr ⟨hvs.2, List.forall_mem_singleton.mpr ?_⟩
      rw [nestingAlong_append, hv, hlevel]

/-- The words found at some point of a text are a row of closed words, and the level of brackets
there is that of the unfinished word. -/
theorem isWordRow_phraseWordsFrom (t : Text) (h : IsWordRow found)
    (hclosed : ∀ v ∈ found, nestingAlong 0 v = 0) (hw : isUnbroken 0 w = true) :
    IsWordRow (phraseWordsFrom found w (nestingAlong 0 w) t) := by
  induction t generalizing found w with
  | nil => exact (isWordRow_addWord h hclosed hw).1
  | cons c t ih =>
    rw [phraseWordsFrom]
    split
    · rename_i hbreak
      have hlevel : nestingAlong 0 w = 0 := by simp_all
      obtain ⟨hrow, hrowClosed⟩ := isWordRow_addWord h hclosed hw
      rw [hlevel]
      exact ih hrow (hrowClosed hlevel) rfl
    · rename_i hgo
      have hlonger : isUnbroken 0 (w ++ [c]) = true := by
        rw [isUnbroken_append, hw, isUnbroken, Bool.eq_false_iff.mpr hgo]
        rfl
      have hnext := ih h hclosed hlonger
      rwa [nestingAlong_append] at hnext

theorem isWordRow_phraseWords (t : Text) : IsWordRow (phraseWords t) :=
  isWordRow_phraseWordsFrom (w := []) t isWordRow_nil (by simp) rfl

/-! ## A row is cut into itself -/

namespace IsWordRow

theorem phraseWordsFrom_join (h : IsWordRow (w :: ws))
    (hhead : found ≠ [] → w.head? ≠ some '[') :
    phraseWordsFrom found [] 0 (Text.join [' '] (w :: ws)) = found ++ w :: ws := by
  induction ws generalizing found w with
  | nil =>
    have hpass := phraseWordsFrom_of_isUnbroken (h.unbroken w List.mem_cons_self) found [] []
    rw [List.append_nil, List.nil_append] at hpass
    rw [Text.join_singleton, hpass, phraseWordsFrom, addWord_eq (h.ne_nil w (by simp)) hhead]
  | cons v ws ih =>
    have hlater := (show IsWordRow ([w] ++ v :: ws) from h).of_append.2
    have hclosed : nestingAlong 0 w = 0 := h.closed w (by simp)
    rw [Text.join_cons_cons, phraseWordsFrom_of_isUnbroken (h.unbroken w (by simp)),
      List.nil_append, hclosed, List.singleton_append, phraseWordsFrom, if_pos (by decide),
      addWord_eq (h.ne_nil w (by simp)) hhead, ih hlater fun _ ↦ h.head?_ne v (by simp),
      List.append_assoc, List.singleton_append]

theorem phraseWords_join (h : IsWordRow ws) : phraseWords (Text.join [' '] ws) = ws := by
  cases ws with
  | nil => rfl
  | cons w ws => exact h.phraseWordsFrom_join fun (hnil : [] ≠ []) ↦ absurd rfl hnil

end IsWordRow

/-- **Words are found again.** The first words of any text, joined by spaces, are cut into the same
words, and so are its other words. No word is empty, and only the first one may start with a square
bracket. -/
theorem phraseWords_recut (t : Text) :
    (∀ k, phraseWords (Text.join [' '] ((phraseWords t).drop k)) = (phraseWords t).drop k ∧
        phraseWords (Text.join [' '] ((phraseWords t).take k)) = (phraseWords t).take k) ∧
      (∀ w ∈ phraseWords t, w ≠ []) ∧ ∀ w ∈ (phraseWords t).tail, w.head? ≠ some '[' := by
  have hrow := isWordRow_phraseWords t
  refine ⟨fun k ↦ ?_, hrow.ne_nil, hrow.head?_ne⟩
  rw [← List.take_append_drop k (phraseWords t)] at hrow
  obtain ⟨hfirst, hlast⟩ := hrow.of_append
  exact ⟨hlast.phraseWords_join, hfirst.phraseWords_join⟩

end SharpOutline
