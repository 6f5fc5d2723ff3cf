import Mathlib.Data.List.DropRight
import Mathlib.Order.Bounds.Defs
import SharpOutline.Proofs.Block.Runs
import SharpOutline.Proofs.Lexeme.Spans

/-!
# Where a text in brackets ends

Reading a text in brackets keeps a scanner and the number of open levels. Where it stops can be said
without either: at the first closing bracket of code before which as many closing brackets of code
stand as opening ones. Such a place is described by `ClosesAt`, on the text with the class of each
of its characters (`Scanner.labelled`), for any scanner and any number of levels that are open at
the start; this is what the induction along the text needs.

The main statement is `bracketedFrom_eq_some_iff_isLeast`. It holds only where the two brackets
differ, since a character that opens a level is never looked at as one that closes it.
-/

namespace SharpOutline

namespace Scanner

/-- The characters of a text with their classes, each shown with its successor. -/
def labelled (s : Scanner) (t : Text) : List (Char × CharClass) := t.zip (s.classes t)

@[simp] theorem labelled_nil (s : Scanner) : s.labelled [] = [] := rfl

@[simp] theorem labelled_cons (s : Scanner) (c : Char) (t : Text) :
    s.labelled (c :: t) = (c, (s.step c (ahead t)).2) :: (s.step c (ahead t)).1.labelled t := rfl

@[simp] theorem length_labelled (s : Scanner) (t : Text) : (s.labelled t).length = t.length := by
  simp [labelled]

/-- How often a character occurs as code among the first `n` characters of a text. -/
def codeCount (s : Scanner) (c : Char) (t : Text) (n : Nat) : Nat :=
  ((s.labelled t).take n).count (c, .code)

@[simp] theorem codeCount_zero (s : Scanner) (c : Char) (t : Text) : s.codeCount c t 0 = 0 := by
  simp [codeCount]

theorem codeCount_succ (s : Scanner) (c d : Char) (t : Text) (n : Nat) :
    s.codeCount c (d :: t) (n + 1) = (s.step d (ahead t)).1.codeCount c t n +
      if (s.step d (ahead t)).2 = .code ∧ d = c then 1 else 0 := by
  have hlabel : ((d, (s.step d (ahead t)).2) == (c, CharClass.code)) =
      decide ((s.step d (ahead t)).2 = .code ∧ d = c) := by
    rw [Bool.eq_iff_iff, beq_iff_eq, decide_eq_true_iff, Prod.mk.injEq, and_comm]
  rw [codeCount, labelled_cons, List.take_succ_cons, List.count_cons, hlabel]
  simp only [decide_eq_true_eq]
  rfl

end Scanner

/-! ## Places where a text closes -/

/-- The text closes at the place `n`, where `depth` further levels are open at its start: a closing
bracket of code stands there, and all levels that are opened before it are closed before it. -/
structure ClosesAt (opener closer : Char) (s : Scanner) (depth : Nat) (t : Text) (n : Nat) :
    Prop where
  label : (s.labelled t)[n]? = some (closer, .code)
  level : depth + s.codeCount opener t n = s.codeCount closer t n

variable {opener closer c : Char} {s : Scanner} {depth n : Nat} {t inside : Text}

theorem closesAt_iff : ClosesAt opener closer s depth t n ↔
    (s.labelled t)[n]? = some (closer, .code) ∧
      depth + s.codeCount opener t n = s.codeCount closer t n :=
  ⟨fun h ↦ ⟨h.label, h.level⟩, fun h ↦ ⟨h.1, h.2⟩⟩

instance : Decidable (ClosesAt opener closer s depth t n) := decidable_of_iff _ closesAt_iff.symm

theorem ClosesAt.lt_length (h : ClosesAt opener closer s depth t n) : n < t.length := by
  have hlt := (List.getElem?_eq_some_iff.mp h.label).1
  rwa [Scanner.length_labelled] at hlt

theorem closesAt_zero_iff : ClosesAt opener closer s depth (c :: t) 0 ↔
    ((s.step c (ahead t)).2 = .code ∧ c = closer) ∧ depth = 0 := by
  simp [closesAt_iff, and_comm]

/-- A text closes behind its first character where the rest of it closes, with as many levels open
as there are then. -/
theorem closesAt_succ_iff {depth' : Nat}
    (hlevel : depth + (if (s.step c (ahead t)).2 = .code ∧ c = opener then 1 else 0) =
      depth' + if (s.step c (ahead t)).2 = .code ∧ c = closer then 1 else 0) :
    ClosesAt opener closer s depth (c :: t) (n + 1) ↔
      ClosesAt opener closer (s.step c (ahead t)).1 depth' t n := by
  rw [closesAt_iff, closesAt_iff, Scanner.labelled_cons, List.getElem?_cons_succ,
    Scanner.codeCount_succ, Scanner.codeCount_succ]
  exact and_congr_right fun _ ↦ by omega

theorem exists_isLeast_succ {p q : Nat → Prop} (hzero : ¬p 0) (hsucc : ∀ n, p (n + 1) ↔ q n)
    {r : Nat → Prop} :
    (∃ n, IsLeast {n | p n} n ∧ r n) ↔ ∃ n, IsLeast {n | q n} n ∧ r (n + 1) := by
  constructor
  · rintro ⟨n, ⟨hn, hleast⟩, hr⟩
    cases n with
    | zero => exact absurd hn hzero
    | succ n =>
      refine ⟨n, ⟨(hsucc n).mp hn, fun m hm ↦ ?_⟩, hr⟩
      exact Nat.le_of_succ_le_succ (hleast ((hsucc m).mpr hm))
  · rintro ⟨n, ⟨hn, hleast⟩, hr⟩
    refine ⟨n + 1, ⟨(hsucc n).mpr hn, fun m hm ↦ ?_⟩, hr⟩
    cases m with
    | zero => exact absurd hm hzero
    | succ m => exact Nat.succ_le_succ (hleast ((hsucc m).mp hm))

/-- **Where a text in brackets ends**: at the first place where it closes. -/
theorem bracketedFrom_eq_some_iff_isLeast (hne : opener ≠ closer) :
    bracketedFrom opener closer s depth t = some inside ↔
      ∃ n, IsLeast {n | ClosesAt opener closer s depth t n} n ∧ t.take n = inside := by
  induction t generalizing s depth inside with
  | nil =>
    refine iff_of_false (by simp [bracketedFrom]) ?_
    rintro ⟨n, ⟨hn, -⟩, -⟩
    exact absurd hn.lt_length (Nat.not_lt_zero n)
  | cons c t ih =>
    -- Unless the first character closes the text, the place is found in the rest of it.
    have later : ∀ {depth'}, ¬ClosesAt opener closer s depth (c :: t) 0 →
        (∀ n, ClosesAt opener closer s depth (c :: t) (n + 1) ↔
          ClosesAt opener closer (s.step c (ahead t)).1 depth' t n) →
        ((bracketedFrom opener closer (s.step c (ahead t)).1 depth' t).map (c :: ·) = some inside ↔
          ∃ n, IsLeast {n | ClosesAt opener closer s depth (c :: t) n} n ∧
            (c :: t).take n = inside) := by
      intro depth' hzero hsucc
      rw [exists_isLeast_succ hzero hsucc, Option.map_eq_some_iff]
      simp only [ih, List.take_succ_cons]
      constructor
      · rintro ⟨u, ⟨n, hn, rfl⟩, rfl⟩
        exact ⟨n, hn, rfl⟩
      · rintro ⟨n, hn, rfl⟩
        exact ⟨_, ⟨n, hn, rfl⟩, rfl⟩
    rw [bracketedFrom]
    split
    · rename_i hopen
      have hcloser : c ≠ closer := fun h ↦ hne (hopen.2.symm.trans h)
      refine later (fun h ↦ hcloser (closesAt_zero_iff.mp h).1.2) fun n ↦ closesAt_succ_iff ?_
      rw [if_pos hopen, if_neg fun h ↦ hcloser h.2]
    · rename_i hopen
      split
      · rename_i hclose
        split
        · rename_i hdepth
          have hzero : ClosesAt opener closer s depth (c :: t) 0 :=
            closesAt_zero_iff.mpr ⟨hclose, hdepth⟩
          constructor
          · intro h
            exact ⟨0, ⟨hzero, fun m _ ↦ Nat.zero_le m⟩, Option.some.inj h⟩
          · rintro ⟨n, ⟨-, hleast⟩, rfl⟩
            rw [Nat.le_zero.mp (hleast hzero), List.take_zero]
        · rename_i hdepth
          refine later (fun h ↦ hdepth (closesAt_zero_iff.mp h).2) fun n ↦ closesAt_succ_iff ?_
          rw [if_neg hopen, if_pos hclose]
          omega
      · rename_i hclose
        refine later (fun h ↦ hclose (closesAt_zero_iff.mp h).1) fun n ↦ closesAt_succ_iff ?_
        rw [if_neg hopen, if_neg hclose]

theorem bracketed_of_isLeast (hne : opener ≠ closer)
    (h : IsLeast {n | ClosesAt opener closer {} 0 t n} n) :
    bracketed opener closer t = some (t.take n) :=
  (bracketedFrom_eq_some_iff_isLeast hne).mpr ⟨n, h, rfl⟩

theorem bracketed_eq_none (hne : opener ≠ closer) (h : ∀ n, ¬ClosesAt opener closer {} 0 t n) :
    bracketed opener closer t = none := by
  cases hb : bracketed opener closer t with
  | none => rfl
  | some inside =>
    obtain ⟨n, ⟨hn, -⟩, -⟩ := (bracketedFrom_eq_some_iff_isLeast hne).mp hb
    exact absurd hn (h n)

/-! ## Cursors -/

namespace Cursor

variable {cur : Cursor}

theorem toEnd_skip {k : Nat} (h : k ≤ cur.rest.length) : (cur.skip k).toEnd = cur.toEnd := by
  rw [toEnd, rest_skip, List.length_drop, skip_skip, Nat.add_sub_cancel' h, toEnd]

theorem rest_skipBlanks (cur : Cursor) : cur.skipBlanks.rest = cur.rest.dropWhile isBlank := by
  rw [skipBlanks, skipWhile, rest_skip]
  exact (congrArg (List.drop _) List.takeWhile_append_dropWhile.symm).trans List.drop_left

theorem skipBlanks_skipBlanks (cur : Cursor) : cur.skipBlanks.skipBlanks = cur.skipBlanks := by
  have hblanks : (cur.rest.dropWhile isBlank).takeWhile isBlank = [] :=
    List.takeWhile_eq_nil_iff.mpr (List.dropWhile_get_zero_not isBlank _)
  rw [skipBlanks.eq_def cur.skipBlanks, skipWhile, rest_skipBlanks, hblanks]
  rfl

end Cursor

/-! ## Readings -/

namespace Reading

open Cursor

variable {cur cur' : Cursor} {p r u rest : Text} {isTrimmed : Bool}

theorem bracketed_eq_ok (h : SharpOutline.bracketed opener closer cur.rest = some inside) :
    bracketed opener closer cur = .ok inside (cur.skip (inside.length + 1)) := by
  rw [bracketed, span, bracketedSpan, h, Option.map_some]

theorem bracketed_eq_error (h : SharpOutline.bracketed opener closer cur.rest = none) :
    bracketed opener closer cur = .error (.unexpectedEnd [closer]) cur.toEnd := by
  rw [bracketed, span, bracketedSpan, h, Option.map_none]

theorem delimited_eq_ok_iff : delimited opener closer false false cur = .ok p cur' ↔
    SharpOutline.bracketed opener closer cur.rest = some p ∧ cur' = cur.skip (p.length + 1) := by
  cases h : SharpOutline.bracketed opener closer cur.rest with
  | none => simp [delimited, bind, EStateM.bind, bracketed_eq_error h]
  | some q =>
    simp only [delimited, cond_false, bind, EStateM.bind, bracketed_eq_ok h, pure, EStateM.pure,
      EStateM.Result.ok.injEq, Option.some.injEq]
    exact and_congr_right fun hq ↦ by rw [hq, eq_comm]

theorem yields_bracketed
    (h : SharpOutline.bracketed opener closer (u ++ closer :: rest) = some u) :
    (bracketed opener closer).Yields (u ++ closer :: rest) u rest := by
  intro cur hrest
  refine ⟨_, bracketed_eq_ok (hrest ▸ h), ?_⟩
  rw [Cursor.rest_skip, hrest, ← List.singleton_append, ← List.append_assoc]
  exact List.drop_left' (by simp)

theorem yields_delimited_iff : (delimited opener closer false false).Yields (u ++ closer :: rest) u
    rest ↔ SharpOutline.bracketed opener closer (u ++ closer :: rest) = some u := by
  constructor
  · intro h
    obtain ⟨cur', hcur, -⟩ := h (Cursor.start _) rfl
    exact (delimited_eq_ok_iff.mp hcur).1
  · intro h
    exact (yields_bracketed h).bind .pure

theorem expect_eq (expected : Char) (cur : Cursor) :
    expect expected cur =
      if ahead (cur.rest.dropWhile isBlank) = expected then .ok () (cur.skipBlanks.skip 1)
      else if ahead (cur.rest.dropWhile isBlank) = endMark then
        .error (.unexpectedEnd [expected]) cur.skipBlanks
      else .error (.expectedCharacter expected (ahead (cur.rest.dropWhile isBlank)))
        cur.skipBlanks := by
  have hpeek : cur.skipBlanks.peek = ahead (cur.rest.dropWhile isBlank) := by
    rw [Cursor.peek, rest_skipBlanks]
  rw [← hpeek]
  change (if cur.skipBlanks.peek = expected then skip 1
    else if cur.skipBlanks.peek = endMark then throw (.unexpectedEnd [expected])
    else throw (.expectedCharacter expected cur.skipBlanks.peek)) cur.skipBlanks = _
  split
  · rfl
  · split <;> rfl

theorem enclosed_apply (opener closer : Char) (cur : Cursor) :
    enclosed opener closer cur =
      (expect opener >>= fun _ ↦ bracketed opener closer >>= fun t ↦
        pure (cur.rest.takeWhile isBlank ++ t)) cur.skipBlanks := rfl

theorem dropWhile_rest_skipBlanks (cur : Cursor) :
    cur.skipBlanks.rest.dropWhile isBlank = cur.rest.dropWhile isBlank := by
  rw [rest_skipBlanks, List.dropWhile_idempotent isBlank]

/-- A text in brackets is read behind blanks and the opening bracket, and is returned with the
blanks. -/
theorem enclosed_of_opener (h : cur.rest.dropWhile isBlank = opener :: r) :
    enclosed opener closer cur =
      (bracketed opener closer >>= fun t ↦ pure (cur.rest.takeWhile isBlank ++ t))
        (cur.skip ((cur.rest.takeWhile isBlank).length + 1)) := by
  have hexpect : expect opener cur.skipBlanks =
      .ok () (cur.skip ((cur.rest.takeWhile isBlank).length + 1)) := by
    rw [expect_eq, dropWhile_rest_skipBlanks, h, ahead_cons, if_pos rfl, skipBlanks_skipBlanks,
      Cursor.skipBlanks, Cursor.skipWhile, Cursor.skip_skip]
  rw [enclosed_apply]
  simp only [bind, EStateM.bind, hexpect]

/-- Without the opening bracket nothing is read but blanks. -/
theorem enclosed_eq_error (h : ahead (cur.rest.dropWhile isBlank) ≠ opener) :
    enclosed opener closer cur =
      .error (if ahead (cur.rest.dropWhile isBlank) = endMark then .unexpectedEnd [opener]
        else .expectedCharacter opener (ahead (cur.rest.dropWhile isBlank))) cur.skipBlanks := by
  have hexpect : expect opener cur.skipBlanks =
      .error (if ahead (cur.rest.dropWhile isBlank) = endMark then .unexpectedEnd [opener]
        else .expectedCharacter opener (ahead (cur.rest.dropWhile isBlank))) cur.skipBlanks := by
    rw [expect_eq, dropWhile_rest_skipBlanks, if_neg h, skipBlanks_skipBlanks]
    split <;> rfl
  rw [enclosed_apply]
  simp only [bind, EStateM.bind, hexpect]

section Ends

variable (hne : opener ≠ closer)

include hne

theorem bracketed_of_isLeast (h : IsLeast {n | ClosesAt opener closer {} 0 cur.rest n} n) :
    bracketed opener closer cur = .ok (cur.rest.take n) (cur.skip (n + 1)) := by
  have hlength : (cur.rest.take n).length = n :=
    List.length_take_of_le (Nat.le_of_lt h.1.lt_length)
  rw [bracketed_eq_ok (SharpOutline.bracketed_of_isLeast hne h), hlength]

theorem bracketed_of_forall_not (h : ∀ n, ¬ClosesAt opener closer {} 0 cur.rest n) :
    bracketed opener closer cur = .error (.unexpectedEnd [closer]) cur.toEnd :=
  bracketed_eq_error (bracketed_eq_none hne h)

end Ends

/-- **A text in brackets ends at the right bracket.** It is read up to the least place where a
closing bracket is code and as many opening as closing brackets of code stand before it, and that
bracket is passed; if there is none, the reading fails at the end of the source. If the opening
bracket is still ahead, it is passed with the blanks before it, which belong to the text; if it is
not there, only the blanks are passed. The text is trimmed if that is wanted. -/
theorem delimited_eq_of_isLeast (opener closer : Char) (hne : opener ≠ closer) (isTrimmed : Bool)
    (cur : Cursor) :
    (∀ n, IsLeast {n | ClosesAt opener closer {} 0 cur.rest n} n →
        delimited opener closer false isTrimmed cur =
          .ok (cond isTrimmed (Text.trim (cur.rest.take n)) (cur.rest.take n))
            (cur.skip (n + 1))) ∧
      ((∀ n, ¬ClosesAt opener closer {} 0 cur.rest n) →
        delimited opener closer false isTrimmed cur =
          .error (.unexpectedEnd [closer]) cur.toEnd) ∧
      (∀ r, cur.rest.dropWhile isBlank = opener :: r →
        (∀ n, IsLeast {n | ClosesAt opener closer {} 0 r n} n →
          delimited opener closer true isTrimmed cur =
            .ok (cond isTrimmed (Text.trim (cur.rest.takeWhile isBlank ++ r.take n))
                (cur.rest.takeWhile isBlank ++ r.take n))
              (cur.skip ((cur.rest.takeWhile isBlank).length + 1 + (n + 1)))) ∧
        ((∀ n, ¬ClosesAt opener closer {} 0 r n) →
          delimited opener closer true isTrimmed cur =
            .error (.unexpectedEnd [closer]) cur.toEnd)) ∧
      (ahead (cur.rest.dropWhile isBlank) ≠ opener →
        delimited opener closer true isTrimmed cur =
          .error (if ahead (cur.rest.dropWhile isBlank) = endMark then .unexpectedEnd [opener]
            else .expectedCharacter opener (ahead (cur.rest.dropWhile isBlank)))
            cur.skipBlanks) := by
  refine ⟨fun n hn ↦ ?_, fun hnone ↦ ?_, fun r hr ↦ ?_, fun hopener ↦ ?_⟩
  · simp only [delimited, cond_false, bind, EStateM.bind, bracketed_of_isLeast hne hn]
    rfl
  · simp only [delimited, cond_false, bind, EStateM.bind, bracketed_of_forall_not hne hnone]
  · obtain ⟨inner, hinner⟩ :
        ∃ inner, inner = cur.skip ((cur.rest.takeWhile isBlank).length + 1) := ⟨_, rfl⟩
    have hrest : inner.rest = r := by
      rw [hinner, ← Cursor.skip_skip, Cursor.rest_skip, ← Cursor.skipWhile, ← Cursor.skipBlanks,
        rest_skipBlanks, hr, List.drop_one, List.tail_cons]
    refine ⟨fun n hn ↦ ?_, fun hnone ↦ ?_⟩
    · rw [← hrest] at hn
      simp only [delimited, cond_true, bind, EStateM.bind, enclosed_of_opener hr, ← hinner,
        bracketed_of_isLeast hne hn, pure, EStateM.pure]
      rw [hrest, hinner, Cursor.skip_skip]
    · rw [← hrest] at hnone
      have hend : inner.toEnd = cur.toEnd := by
        have hlength := length_blanks hr
        exact hinner ▸ toEnd_skip (by omega)
      simp only [delimited, cond_true, bind, EStateM.bind, enclosed_of_opener hr, ← hinner,
        bracketed_of_forall_not hne hnone, hend]
  · simp only [delimited, cond_true, bind, EStateM.bind, enclosed_eq_error hopener]

/-- A text in brackets with brackets that do not count, and with more text behind it. -/
def bracketSource : Text := "  (a(')') /* ) */ \"(\") b".toList

theorem delimited_eq_of_isLeast_bracketSource :
    '(' ≠ ')' ∧
      delimited '(' ')' true false (Cursor.start bracketSource) =
        .ok "  a(')') /* ) */ \"(\"".toList ((Cursor.start bracketSource).skip 22) ∧
      delimited '(' ')' false true (Cursor.start "a(b".toList) =
        .error (.unexpectedEnd [')']) ((Cursor.start "a(b".toList).skip 3) := by
  have hne : '(' ≠ ')' := by decide
  refine ⟨hne, ?_, ?_⟩
  · have hcloses : ClosesAt '(' ')' {} 0 (bracketSource.drop 3) 18 := by decide +kernel
    have hfirst : ∀ n < 18, ¬ClosesAt '(' ')' {} 0 (bracketSource.drop 3) n := by decide +kernel
    refine ((delimited_eq_of_isLeast '(' ')' hne false (Cursor.start bracketSource)).2.2.1
      (bracketSource.drop 3) (by decide)).1 18 ⟨hcloses, fun n hn ↦ ?_⟩
    exact Nat.not_lt.mp fun hlt ↦ hfirst n hlt hn
  · have hnone : ∀ n < 3, ¬ClosesAt '(' ')' {} 0 "a(b".toList n := by decide +kernel
    exact (delimited_eq_of_isLeast '(' ')' hne true (Cursor.start "a(b".toList)).2.1
      fun n hn ↦ hnone n hn.lt_length hn

end Reading

end SharpOutline
