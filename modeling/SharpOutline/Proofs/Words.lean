import Mathlib.Data.List.Infix
import Mathlib.Data.List.TakeWhile
import SharpOutline.Proofs.Lexeme.Tokens
import SharpOutline.Signature

/-!
# Words of a declaration

A declaration without brackets is a row of words with single spaces between them. Here is what the
operations on texts do to such a row: trimming leaves it alone, cutting it into words gives the
words back, and as a list it has one part.

A row is mostly met while it is being read, when every word but the last is followed by its space;
so it is written as `spaced ws ++ w`.
-/

namespace SharpOutline

open Text

/-- A text that is one word: it is not empty, and nothing in it ends a word. -/
def IsWord (w : Text) : Prop := w ≠ [] ∧ ∀ c ∈ w, endsWord c = false

instance (w : Text) : Decidable (IsWord w) :=
  decidable_of_iff ((!w.isEmpty && w.all fun c ↦ !endsWord c) = true) (by simp [IsWord])

/-- Each word with a space after it. -/
def spaced (ws : List Text) : Text := ws.flatMap (· ++ [' '])

variable {c d : Char} {w t u : Text} {ws vs : List Text}

variable {wss : List (List Text)} {n l b : Char}

@[simp] theorem spaced_nil : spaced [] = [] := rfl

@[simp] theorem spaced_cons (w : Text) (ws : List Text) :
    spaced (w :: ws) = w ++ ' ' :: spaced ws := by
  simp [spaced]

@[simp] theorem spaced_append (ws vs : List Text) : spaced (ws ++ vs) = spaced ws ++ spaced vs := by
  simp [spaced]

theorem forall_mem_spaced {p : Char → Prop} (hspace : p ' ')
    (h : ∀ w ∈ ws, ∀ c ∈ w, p c) : ∀ c ∈ spaced ws, p c := by
  intro c hc
  obtain ⟨w, hw, hc⟩ := List.mem_flatMap.mp hc
  rcases List.mem_append.mp hc with hc | hc
  · exact h w hw c hc
  · exact List.mem_singleton.mp hc ▸ hspace

theorem isBlank_of_endsWord (h : endsWord c = false) : isBlank c = false := by
  simp_all [endsWord]

theorem isSymbol_of_endsWord (h : endsWord c = false) : isSymbol c = false := by
  simp_all [endsWord]

theorem ne_of_endsWord (h : endsWord c = false) (hd : isSymbol d = true) : c ≠ d :=
  fun heq ↦ by simp [← heq, isSymbol_of_endsWord h] at hd

theorem nestingAfter_of_endsWord (h : endsWord c = false) (level : Nat) :
    nestingAfter c level = level := by
  have hne {d : Char} : isSymbol d = true → c ≠ d := ne_of_endsWord h
  simp [nestingAfter, hne (d := '<') rfl, hne (d := '(') rfl, hne (d := '[') rfl,
    hne (d := '>') rfl, hne (d := ')') rfl, hne (d := ']') rfl]

/-- A text that is kept together when a row is cut: it is not empty, and nothing in it is a blank or
opens a bracket. A word is one, and so is a word with a comma behind it. -/
def IsToken (w : Text) : Prop := w ≠ [] ∧ ∀ c ∈ w, isBlank c = false ∧ nestingAfter c 0 = 0

namespace IsWord

theorem isBlank_eq_false (h : IsWord w) (hc : c ∈ w) : isBlank c = false :=
  isBlank_of_endsWord (h.2 c hc)

theorem isToken (h : IsWord w) : IsToken w :=
  ⟨h.1, fun c hc ↦ ⟨h.isBlank_eq_false hc, nestingAfter_of_endsWord (h.2 c hc) 0⟩⟩

end IsWord

/-! ## Trimming -/

namespace Text

theorem trimStart_eq_self (h : ∀ c ∈ t.head?, isBlank c = false) : trimStart t = t := by
  cases t with
  | nil => rfl
  | cons c cs => exact List.dropWhile_cons_of_neg (by simp [h c rfl])

theorem trimEnd_eq_self (h : ∀ c ∈ t.getLast?, isBlank c = false) : trimEnd t = t := by
  have hstart : trimStart t.reverse = t.reverse :=
    trimStart_eq_self fun c hc ↦ h c (by simpa using hc)
  rw [trimEnd, ← trimStart, hstart, List.reverse_reverse]

theorem trim_eq_self (hs : ∀ c ∈ t.head?, isBlank c = false)
    (he : ∀ c ∈ t.getLast?, isBlank c = false) : trim t = t := by
  rw [trim, trimEnd_eq_self he, trimStart_eq_self hs]

theorem trimEnd_of_trim_eq_self (h : trim t = t) : trimEnd t = t := by
  have hprefix : trimEnd t <+: t := by
    rw [← List.reverse_suffix, trimEnd, List.reverse_reverse]
    exact List.dropWhile_suffix isBlank
  refine hprefix.eq_of_length_le ?_
  calc t.length = (trim t).length := by rw [h]
    _ ≤ (trimEnd t).length := (List.dropWhile_suffix isBlank).length_le

theorem isBlank_getLast?_of_trimEnd_eq_self (h : trimEnd t = t) :
    ∀ c ∈ t.getLast?, isBlank c = false := by
  intro c hc
  have hreverse : t.reverse.dropWhile isBlank = t.reverse := by
    rw [← List.reverse_inj, List.reverse_reverse]
    exact h
  cases hr : t.reverse with
  | nil => simp_all
  | cons d ds =>
    obtain rfl : d = c := by
      rw [← List.head?_reverse, hr] at hc
      simpa using hc
    rw [hr, List.dropWhile_cons] at hreverse
    split at hreverse
    · have hle := (List.dropWhile_suffix (l := ds) isBlank).length_le
      rw [hreverse, List.length_cons] at hle
      omega
    · simp_all

theorem isBlank_getLast?_of_trim_eq_self (h : trim t = t) :
    ∀ c ∈ t.getLast?, isBlank c = false :=
  isBlank_getLast?_of_trimEnd_eq_self (trimEnd_of_trim_eq_self h)

theorem trimEnd_append_singleton (hc : isBlank c = true) (t : Text) :
    trimEnd (t ++ [c]) = trimEnd t := by
  rw [trimEnd, List.reverse_append, List.reverse_singleton, List.singleton_append,
    List.dropWhile_cons_of_pos hc, trimEnd]

theorem trim_append_singleton (hc : isBlank c = true) (t : Text) :
    trim (t ++ [c]) = trim t := by
  rw [trim, trimEnd_append_singleton hc, trim]

theorem trimEnd_append_of_blank (h : ∀ c ∈ u, isBlank c = true) :
    trimEnd (t ++ u) = trimEnd t := by
  induction u generalizing t with
  | nil => rw [List.append_nil]
  | cons c u ih =>
    rw [← List.singleton_append, ← List.append_assoc, ih fun d hd ↦ h d (by simp [hd]),
      trimEnd_append_singleton (h c (by simp))]

theorem exists_eq_trimEnd_append (t : Text) :
    ∃ u, t = trimEnd t ++ u ∧ ∀ c ∈ u, isBlank c = true := by
  refine ⟨(t.reverse.takeWhile isBlank).reverse, ?_, fun c hc ↦ ?_⟩
  · rw [trimEnd, ← List.reverse_append, List.takeWhile_append_dropWhile, List.reverse_reverse]
  · exact List.all_eq_true.mp List.all_takeWhile c (List.mem_reverse.mp hc)

theorem trimEnd_of_blank (h : ∀ c ∈ t, isBlank c = true) : trimEnd t = [] := by
  have hdrop : t.reverse.dropWhile isBlank = [] :=
    List.dropWhile_eq_nil_iff.mpr fun c hc ↦ h c (List.mem_reverse.mp hc)
  rw [trimEnd, hdrop, List.reverse_nil]

theorem trim_eq_nil_iff : trim t = [] ↔ ∀ c ∈ t, isBlank c = true := by
  constructor
  · intro h c hc
    obtain ⟨u, hu, hblank⟩ := exists_eq_trimEnd_append t
    rw [hu] at hc
    rcases List.mem_append.mp hc with hc | hc
    · exact List.dropWhile_eq_nil_iff.mp h c hc
    · exact hblank c hc
  · intro h
    rw [trim, trimEnd_of_blank h]
    rfl

theorem trim_cons (hc : isBlank c = true) (t : Text) : trim (c :: t) = trim t := by
  rw [trim, trimEnd, List.reverse_cons, List.dropWhile_append]
  split
  · rename_i hempty
    rw [List.isEmpty_iff] at hempty
    rw [trim, trimEnd, hempty, List.dropWhile_cons_of_pos hc]
    rfl
  · rw [List.reverse_append, List.reverse_singleton, List.singleton_append, trimStart,
      List.dropWhile_cons_of_pos hc]
    rfl

theorem trim_append_of_blank (hu : ∀ c ∈ u, isBlank c = true) (t : Text) :
    trim (u ++ t) = trim t := by
  induction u with
  | nil => rfl
  | cons c u ih =>
    rw [List.cons_append, trim_cons (hu c List.mem_cons_self),
      ih fun d hd ↦ hu d (List.mem_cons_of_mem c hd)]

theorem isBlank_head?_of_trim_eq_self (h : trim u = u) :
    ∀ c ∈ u.head?, isBlank c = false := by
  intro c hc
  rw [← h, trim, trimStart, Option.mem_def] at hc
  have hfirst := List.head?_dropWhile_not isBlank (trimEnd u)
  rw [hc] at hfirst
  exact hfirst

end Text

theorem trim_of_isWord (h : IsWord w) : trim w = w :=
  trim_eq_self (fun _ hc ↦ h.isBlank_eq_false (List.mem_of_head? hc)) fun _ hc ↦
    h.isBlank_eq_false (List.mem_of_getLast? hc)

theorem IsWord.trimmed (h : IsWord w) : w ≠ [] ∧ trim w = w :=
  ⟨h.1, trim_of_isWord h⟩

section Tokens

variable {level : Nat}

theorem head?_spaced_append (hws : ∀ v ∈ ws, IsToken v) (hw : IsToken w) :
    ∀ c ∈ (spaced ws ++ w).head?, isBlank c = false := by
  have first {v u : Text} (hv : IsToken v) : ∀ c ∈ (v ++ u).head?, isBlank c = false := by
    intro c hc
    rw [List.head?_append_of_ne_nil _ hv.1] at hc
    exact (hv.2 c (List.mem_of_head? hc)).1
  cases ws with
  | nil => simpa using first (u := []) hw
  | cons v ws =>
    rw [spaced_cons, List.append_assoc]
    exact first (hws v (by simp))

theorem getLast?_spaced_append (hw : IsToken w) :
    ∀ c ∈ (spaced ws ++ w).getLast?, isBlank c = false := by
  intro c hc
  rw [List.getLast?_append_of_ne_nil _ hw.1] at hc
  exact (hw.2 c (List.mem_of_getLast? hc)).1

/-- A row has no blanks at its ends. -/
theorem trim_spaced_append_token (hws : ∀ v ∈ ws, IsToken v) (hw : IsToken w) :
    trim (spaced ws ++ w) = spaced ws ++ w :=
  trim_eq_self (head?_spaced_append hws hw) (getLast?_spaced_append hw)

theorem trim_spaced_append (hws : ∀ v ∈ ws, IsWord v) (hw : IsWord w) :
    trim (spaced ws ++ w) = spaced ws ++ w :=
  trim_spaced_append_token (fun v hv ↦ (hws v hv).isToken) hw.isToken

/-! ## Cutting -/

def nestingAlong (level : Nat) (t : Text) : Nat := t.foldl (fun n c ↦ nestingAfter c n) level

theorem nestingAlong_append (level : Nat) (u v : Text) :
    nestingAlong level (u ++ v) = nestingAlong (nestingAlong level u) v :=
  List.foldl_append

/-- No blank of the text stands outside brackets. -/
def isUnbroken (level : Nat) : Text → Bool
  | [] => true
  | c :: cs => !(isBlank c && level == 0) && isUnbroken (nestingAfter c level) cs

theorem isUnbroken_append (level : Nat) (u v : Text) : isUnbroken level (u ++ v) =
    (isUnbroken level u && isUnbroken (nestingAlong level u) v) := by
  induction u generalizing level with
  | nil => rfl
  | cons c u ih =>
    rw [List.cons_append, isUnbroken, ih, isUnbroken, Bool.and_assoc]
    rfl

theorem isUnbroken_of_nestingAfter
    (hw : ∀ c ∈ w, isBlank c = false ∧ nestingAfter c level = level) :
    isUnbroken level w = true ∧ nestingAlong level w = level := by
  induction w with
  | nil => exact ⟨rfl, rfl⟩
  | cons c w ih =>
    obtain ⟨hblank, hlevel⟩ := hw c List.mem_cons_self
    rw [isUnbroken, hblank, nestingAlong, List.foldl_cons, hlevel]
    exact ih fun x hx ↦ hw x (List.mem_cons_of_mem c hx)

/-- A text without blanks outside brackets is passed as a part of one word. -/
theorem phraseWordsFrom_of_isUnbroken (hw : isUnbroken level w = true) (found : List Text)
    (v t : Text) : phraseWordsFrom found v level (w ++ t) =
      phraseWordsFrom found (v ++ w) (nestingAlong level w) t := by
  induction w generalizing v level with
  | nil =>
    rw [List.append_nil]
    rfl
  | cons c w ih =>
    rw [isUnbroken, Bool.and_eq_true, Bool.not_eq_true'] at hw
    rw [List.cons_append, phraseWordsFrom, if_neg (by simp [hw.1]), ih hw.2, List.append_assoc,
      List.singleton_append]
    rfl

theorem phraseWordsFrom_append (hw : ∀ c ∈ w, isBlank c = false ∧ nestingAfter c 0 = 0)
    (found : List Text) (v t : Text) :
    phraseWordsFrom found v 0 (w ++ t) = phraseWordsFrom found (v ++ w) 0 t := by
  obtain ⟨hunbroken, hlevel⟩ := isUnbroken_of_nestingAfter hw
  rw [phraseWordsFrom_of_isUnbroken hunbroken, hlevel]

/-- A text that is kept together when a row is cut, whatever stands around it. A token is one, and
so is a text with blanks inside brackets. -/
structure IsKept (w : Text) : Prop where
  ne_nil : w ≠ []
  head?_ne : w.head? ≠ some '['
  pass : ∀ found v t, phraseWordsFrom found v 0 (w ++ t) = phraseWordsFrom found (v ++ w) 0 t

theorem IsToken.isKept (hw : IsToken w) : IsKept w := by
  refine ⟨hw.1, fun hhead ↦ ?_, phraseWordsFrom_append hw.2⟩
  exact absurd (hw.2 '[' (List.mem_of_head? hhead)).2 (by decide)

/-- A word is joined to the one before it only if it starts with a square bracket. -/
theorem addWord_eq {found : List Text} (hw : w ≠ [])
    (hhead : found ≠ [] → w.head? ≠ some '[') : addWord found w = found ++ [w] := by
  rw [addWord, if_neg (by simpa using hw)]
  split
  · rename_i hbracket
    obtain rfl : found = [] := by
      by_contra hfound
      exact hhead hfound hbracket
    rfl
  · rfl

theorem addWord_of_isKept (hw : IsKept w) (found : List Text) : addWord found w = found ++ [w] :=
  addWord_eq hw.ne_nil fun _ ↦ hw.head?_ne

theorem phraseWordsFrom_spaced (hws : ∀ v ∈ ws, IsKept v) (hw : IsKept w) (found : List Text) :
    phraseWordsFrom found [] 0 (spaced ws ++ w) = found ++ ws ++ [w] := by
  induction ws generalizing found with
  | nil =>
    have h := hw.pass found [] []
    rw [List.append_nil, List.nil_append] at h
    rw [spaced_nil, List.nil_append, h, phraseWordsFrom, addWord_of_isKept hw, List.append_nil]
  | cons v ws ih =>
    have hv := hws v (by simp)
    rw [spaced_cons, List.append_assoc, List.cons_append, hv.pass,
      List.nil_append, phraseWordsFrom, if_pos (by decide), addWord_of_isKept hv,
      ih fun x hx ↦ hws x (by simp [hx])]
    simp

/-- Cutting a row gives what it was made of. -/
theorem phraseWords_spaced_append_kept (hws : ∀ v ∈ ws, IsKept v) (hw : IsKept w) :
    phraseWords (spaced ws ++ w) = ws ++ [w] :=
  phraseWordsFrom_spaced hws hw []

theorem phraseWords_spaced_append_token (hws : ∀ v ∈ ws, IsToken v) (hw : IsToken w) :
    phraseWords (spaced ws ++ w) = ws ++ [w] :=
  phraseWords_spaced_append_kept (fun v hv ↦ (hws v hv).isKept) hw.isKept

theorem phraseWords_spaced_append (hws : ∀ v ∈ ws, IsWord v) (hw : IsWord w) :
    phraseWords (spaced ws ++ w) = ws ++ [w] :=
  phraseWords_spaced_append_token (fun v hv ↦ (hws v hv).isToken) hw.isToken

theorem wordsFrom_append (hw : ∀ c ∈ w, isBlank c = false) (run t : Text) :
    wordsFrom run (w ++ t) = wordsFrom (run ++ w) t := by
  induction w generalizing run with
  | nil => simp
  | cons c w ih =>
    rw [List.cons_append, wordsFrom, hw c List.mem_cons_self, if_neg Bool.false_ne_true,
      ih fun x hx ↦ hw x (List.mem_cons_of_mem c hx), List.append_assoc, List.singleton_append]

theorem wordsFrom_spaced_append (hws : ∀ v ∈ ws, IsToken v) (t : Text) :
    wordsFrom [] (spaced ws ++ t) = ws ++ wordsFrom [] t := by
  induction ws with
  | nil => rfl
  | cons v ws ih =>
    have hv := hws v List.mem_cons_self
    rw [spaced_cons, List.append_assoc, wordsFrom_append fun c hc ↦ (hv.2 c hc).1, List.nil_append,
      List.cons_append, wordsFrom, if_pos (by decide), if_neg (by simp [hv.1]),
      ih fun x hx ↦ hws x (List.mem_cons_of_mem v hx), List.cons_append]

/-- The words of a row are separated by its spaces. -/
theorem words_spaced (hws : ∀ v ∈ ws, IsToken v) : words (spaced ws) = ws := by
  have h := wordsFrom_spaced_append hws []
  rw [List.append_nil] at h
  rw [words, h]
  exact List.append_nil ws

theorem words_spaced_append (hws : ∀ v ∈ ws, IsToken v) (hw : IsToken w) :
    words (spaced ws ++ w) = ws ++ [w] := by
  have hlast := wordsFrom_append (fun c hc ↦ (hw.2 c hc).1) [] []
  rw [List.append_nil, List.nil_append, wordsFrom, if_neg (by simpa using hw.1)] at hlast
  rw [words, wordsFrom_spaced_append hws, hlast]

end Tokens

/-! ## Joining -/

theorem Text.join_cons_cons (separator w v : Text) (ws : List Text) :
    join separator (w :: v :: ws) = w ++ (separator ++ join separator (v :: ws)) := by
  simp [join, List.intercalate]

theorem Text.join_singleton (separator w : Text) : join separator [w] = w := by
  simp [join, List.intercalate]

theorem join_append_singleton (ws : List Text) (w : Text) :
    join [' '] (ws ++ [w]) = spaced ws ++ w := by
  induction ws with
  | nil => simp [join, List.intercalate]
  | cons v ws ih =>
    obtain ⟨x, xs, hx⟩ : ∃ x xs, ws ++ [w] = x :: xs :=
      List.exists_cons_of_ne_nil (by simp)
    rw [List.cons_append, hx, join_cons_cons, ← hx, ih, spaced_cons, List.append_assoc,
      List.singleton_append, List.cons_append]

/-- The joined words of a list of lists of words. -/
theorem spaced_eq_join (h : ws ≠ []) : spaced ws = join [' '] ws ++ [' '] := by
  obtain ⟨vs, v, rfl⟩ : ∃ vs v, ws = vs ++ [v] := ⟨_, _, (List.dropLast_append_getLast h).symm⟩
  rw [join_append_singleton, spaced_append]
  simp

theorem join_inj_of_spaced (h : spaced ws = spaced vs) (hws : ws ≠ [])
    (hvs : vs ≠ []) : join [' '] ws = join [' '] vs := by
  rw [spaced_eq_join hws, spaced_eq_join hvs] at h
  exact List.append_cancel_right h

variable {separator : Text} {parts : List Text}

theorem head?_join (h : ∀ q ∈ parts, q ≠ [] ∧ trim q = q) :
    ∀ c ∈ (join separator parts).head?, isBlank c = false := by
  cases parts with
  | nil => simp [join]
  | cons q parts =>
    obtain ⟨hne, htrim⟩ := h q List.mem_cons_self
    obtain ⟨t, ht⟩ : ∃ t, join separator (q :: parts) = q ++ t := by
      cases parts with
      | nil => exact ⟨[], by rw [join_singleton, List.append_nil]⟩
      | cons r parts => exact ⟨_, join_cons_cons separator q r parts⟩
    intro c hc
    rw [ht, List.head?_append_of_ne_nil _ hne] at hc
    exact isBlank_head?_of_trim_eq_self htrim c hc

theorem getLast?_join (h : ∀ q ∈ parts, q ≠ [] ∧ trim q = q) :
    ∀ c ∈ (join separator parts).getLast?, isBlank c = false := by
  induction parts with
  | nil => simp [join]
  | cons q parts ih =>
    obtain ⟨hne, htrim⟩ := h q List.mem_cons_self
    cases parts with
    | nil =>
      rw [join_singleton]
      exact isBlank_getLast?_of_trim_eq_self htrim
    | cons r parts =>
      have hlater : join separator (r :: parts) ≠ [] := by
        have hr := (h r (by simp)).1
        cases parts with
        | nil => rwa [join_singleton]
        | cons s parts => simp [join_cons_cons, hr]
      rw [join_cons_cons, ← List.append_assoc, List.getLast?_append_of_ne_nil _ hlater]
      exact ih fun x hx ↦ h x (List.mem_cons_of_mem q hx)

/-- A list of trimmed parts has no blanks at its ends. -/
theorem trim_join_of_trim (h : ∀ q ∈ parts, q ≠ [] ∧ trim q = q) :
    trim (join separator parts) = join separator parts :=
  trim_eq_self (head?_join h) (getLast?_join h)

theorem join_eq_nil_iff (h : ∀ w ∈ ws, w ≠ [] ∧ trim w = w) :
    join [' '] ws = [] ↔ ws = [] := by
  refine ⟨fun hjoin ↦ ?_, fun hws ↦ by rw [hws]; rfl⟩
  by_contra hws
  obtain ⟨vs, v, rfl⟩ : ∃ vs v, ws = vs ++ [v] := ⟨_, _, (List.dropLast_append_getLast hws).symm⟩
  rw [join_append_singleton] at hjoin
  exact (h v (by simp)).1 (List.append_eq_nil_iff.mp hjoin).2

/-- The lists that are not empty, each joined, make up the same row as all words. -/
theorem spaced_filter_join (h : ∀ ws ∈ wss, ∀ w ∈ ws, w ≠ [] ∧ trim w = w) :
    spaced ((wss.map (join [' '])).filter fun w ↦ !w.isEmpty) = spaced wss.flatten := by
  induction wss with
  | nil => rfl
  | cons ws wss ih =>
    have ih := ih fun v hv ↦ h v (by simp [hv])
    have hws := h ws (by simp)
    rw [List.map_cons, List.flatten_cons, spaced_append, ← ih]
    by_cases hnil : ws = []
    · subst hnil
      simp [join]
    · have hne : join [' '] ws ≠ [] := fun heq ↦ hnil ((join_eq_nil_iff hws).mp heq)
      rw [List.filter_cons_of_pos (by simpa using hne), spaced_cons, spaced_eq_join hnil,
        List.append_assoc, List.singleton_append]

/-- Joining lists of words, each joined before, joins all words. -/
theorem joinWords_map_join (h : ∀ ws ∈ wss, ∀ w ∈ ws, w ≠ [] ∧ trim w = w) :
    joinWords (wss.map (join [' '])) = join [' '] wss.flatten := by
  have htrim : (wss.map (join [' '])).map trim = wss.map (join [' ']) := by
    rw [List.map_map]
    exact List.map_congr_left fun ws hws ↦ trim_join_of_trim (h ws hws)
  rw [joinWords, htrim]
  have hspaced := spaced_filter_join h
  by_cases hflat : wss.flatten = []
  · rw [hflat] at hspaced ⊢
    cases hfilter : (wss.map (join [' '])).filter fun w ↦ !w.isEmpty with
    | nil => rfl
    | cons w ws => simp [hfilter] at hspaced
  · refine join_inj_of_spaced hspaced (fun hnil ↦ ?_) hflat
    rw [hnil, spaced_nil, spaced_eq_join hflat] at hspaced
    simp at hspaced

/-! ## Parts -/

/-- The character means nothing to the readers of lists: it is no symbol and opens no literal. -/
def isMild (c : Char) : Bool := !isSymbol c && c != '"' && c != '\''

theorem ne_of_isMild (h : isMild c = true) (hd : isSymbol d = true) : c ≠ d := by
  rintro rfl
  simp [isMild, hd] at h

theorem isMild_of_isBlank (h : isBlank c = true) : isMild c = true := by
  have hne {d : Char} (hd : isBlank d = false) : c ≠ d := fun heq ↦ by simp [← heq, h] at hd
  have hsymbol : isSymbol c = false := by
    rw [isSymbol, List.contains_eq_mem, decide_eq_false_iff_not]
    intro hc
    have hsymbols : symbols.all (fun d ↦ !isBlank d) = true := by decide
    exact hne (by simpa using List.all_eq_true.mp hsymbols c hc) rfl
  simp [isMild, hsymbol, hne (d := '"') rfl, hne (d := '\'') rfl]

/-- The character opens no literal, no comment and no brace, and closes none. -/
def isCalm (c : Char) : Bool := !(['"', '\'', '/', '\x7b', '\x7d'].contains c)

theorem isCalm_of_isMild (h : isMild c = true) : isCalm c = true := by
  have hne {d : Char} : isSymbol d = true → c ≠ d := ne_of_isMild h
  simp only [isMild, Bool.and_eq_true, bne_iff_ne] at h
  simp [isCalm, h.1.2, h.2, hne (d := '/') rfl, hne (d := '\x7b') rfl, hne (d := '\x7d') rfl]

open Scanner in
theorem step_of_isCalm (h : isCalm c = true) :
    (ready [] l b).step c n = (ready [] c l, .code) := by
  simp only [isCalm, List.contains_cons, List.contains_nil, Bool.or_false, Bool.not_eq_true',
    Bool.or_eq_false_iff, beq_eq_false_iff_ne] at h
  obtain ⟨hquote, hcharacter, hslash, hopen, hclose⟩ := h
  exact step_plain hquote hcharacter (fun h ↦ absurd h hslash) hopen hclose

open Scanner in
theorem step_of_isMild (h : isMild c = true) :
    (ready [] l b).step c n = (ready [] c l, .code) :=
  step_of_isCalm (isCalm_of_isMild h)

open Scanner in
theorem listPartsFrom_of_isMild (ht : ∀ c ∈ t, isMild c = true) {p : PartScan}
    (hp : p.scanner = ready [] l b) (part : Text) :
    listPartsFrom p part t = [trim (part ++ t)] := by
  induction t generalizing p l b part with
  | nil => rw [listPartsFrom, List.append_nil]
  | cons c t ih =>
    have hc := ht c (by simp)
    have hne {d : Char} : isSymbol d = true → c ≠ d := ne_of_isMild hc
    have hstep : p.scanner.step c (ahead t) = (ready [] c l, .code) := by
      rw [hp, step_of_isMild hc]
    rw [listPartsFrom, hstep]
    simp only [PartScan.separates, beq_self_eq_true, Bool.true_and, beq_eq_false_iff_ne.mpr
      (hne (d := ',') rfl), Bool.false_and, Bool.false_eq_true, if_false]
    rw [ih (fun x hx ↦ ht x (by simp [hx])) (l := c) (b := l), List.append_assoc,
      List.singleton_append]
    simp [PartScan.next, hne (d := '(') rfl, hne (d := '[') rfl, hne (d := '\x7b') rfl,
      hne (d := ')') rfl, hne (d := ']') rfl, hne (d := '\x7d') rfl, hne (d := '<') rfl,
      hne (d := '>') rfl]

theorem listParts_of_isMild (ht : ∀ c ∈ t, isMild c = true) :
    listParts t = [trim t] :=
  listPartsFrom_of_isMild ht (l := endMark) (b := endMark) rfl []

end SharpOutline
