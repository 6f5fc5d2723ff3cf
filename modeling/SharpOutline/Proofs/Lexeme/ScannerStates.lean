import Mathlib.Tactic.ByContra
import SharpOutline.Proofs.Lexeme.Walks

/-!
# States of the scanner

The scanner believes what it is told about the next character. If something else comes, it gets into
states that no text leads to: a brace, say, is passed as the second sign of a comment, and the hole
that it would have closed stays open. What is shown here holds after any calls (`Scanner.run`), and
so after any text (`Scanner.after_eq_run`).
-/

namespace SharpOutline

/-- In each hole at least its own brace is open, and at most `k` braces are. -/
def HolesWithin (k : Nat) (holes : List Hole) : Prop := ∀ h ∈ holes, 1 ≤ h.depth ∧ h.depth ≤ k

theorem HolesWithin.succ {k : Nat} {holes : List Hole} (h : HolesWithin k holes) :
    HolesWithin (k + 1) holes :=
  fun x hx ↦ ⟨(h x hx).1, Nat.le_succ_of_le (h x hx).2⟩

namespace Scanner

variable {s : Scanner} {k : Nat} {c n : Char}

/-- The state after calls that each show a character and name one that comes next. -/
def run (s : Scanner) : List (Char × Char) → Scanner
  | [] => s
  | (c, n) :: calls => (s.step c n).1.run calls

theorem after_eq_run (s : Scanner) (t : Text) :
    s.after t = s.run (t.zip (t.tail ++ [endMark])) := by
  induction t generalizing s with
  | nil => rfl
  | cons c t ih =>
    cases t with
    | nil => rfl
    | cons d t => exact ih _

/-! ## Escapes -/

/-- A character is escaped only in a literal, and not in a verbatim string. -/
def EscapesIn (s : Scanner) : Prop :=
  s.escaped = true → s.mode = .character ∨ ∃ interpolated, s.mode = .string false interpolated

theorem EscapesIn.step (h : EscapesIn s) (c n : Char) : EscapesIn (s.step c n).1 := by
  change EscapesIn (s.stepInner c n).1
  rw [stepInner]
  split
  · exact h
  split
  · grind [EscapesIn, stepCode, remember, openBrace, closeBrace]
  · grind [EscapesIn]
  · grind [EscapesIn]
  · grind [EscapesIn, stepString, stepEscaping]
  · grind [EscapesIn, stepEscaping]

theorem EscapesIn.run (h : EscapesIn s) (calls : List (Char × Char)) : EscapesIn (s.run calls) := by
  induction calls generalizing s with
  | nil => exact h
  | cons call calls ih => exact ih (h.step call.1 call.2)

theorem EscapesIn.after (h : EscapesIn s) (u : Text) : EscapesIn (s.after u) :=
  after_eq_run s u ▸ h.run _

/-! ## Holes -/

theorem holesWithin_openBrace (h : HolesWithin k s.holes) :
    HolesWithin (k + 1) s.openBrace.holes := by
  grind [HolesWithin, openBrace]

/-- Where no brace would be left the hole is gone. -/
theorem holesWithin_closeBrace (h : HolesWithin k s.holes) : HolesWithin k s.closeBrace.holes := by
  rw [closeBrace]
  split
  · exact h
  · rename_i hole outer heq
    rw [heq, HolesWithin, List.forall_mem_cons] at h
    split
    · exact h.2
    · -- More than one brace was open, so subtracting one is exact.
      exact List.forall_mem_cons.mpr ⟨by dsimp only; omega, h.2⟩

theorem holesWithin_step (h : HolesWithin k s.holes) (c n : Char) :
    HolesWithin (k + 1) (s.step c n).1.holes := by
  -- A call does at most one of three things to the holes.
  have hsame := h.succ
  have hcount := holesWithin_openBrace h
  have hclose := (holesWithin_closeBrace h).succ
  have hopen (verbatim : Bool) : HolesWithin (k + 1) (⟨verbatim, 1⟩ :: s.holes) :=
    List.forall_mem_cons.mpr ⟨⟨Nat.le_refl 1, Nat.le_add_left 1 k⟩, hsame⟩
  change HolesWithin (k + 1) (s.stepInner c n).1.holes
  rw [stepInner]
  split
  · exact hsame
  split
  · grind [stepCode, remember]
  · grind
  · grind
  · grind [stepString, stepEscaping]
  · grind [stepEscaping]

theorem holesWithin_run (h : HolesWithin k s.holes) (calls : List (Char × Char)) :
    HolesWithin (k + calls.length) (s.run calls).holes := by
  induction calls generalizing k s with
  | nil => exact h
  | cons call calls ih =>
    rw [List.length_cons, Nat.add_comm calls.length, ← Nat.add_assoc]
    exact ih (holesWithin_step h call.1 call.2)

theorem holes_eq_nil_of_class (h : (s.step c n).2 ≠ .literal) :
    s.holes = [] ∧ (s.step c n).1.holes = [] := by
  have hempty : (s.holes.isEmpty && (s.step c n).1.holes.isEmpty) = true := by
    by_contra hne
    exact h (if_neg hne)
  simpa only [Bool.and_eq_true, List.isEmpty_iff] using hempty

/-- **What holds after any calls.** Every open hole has a brace left to close and no more braces
than there were calls, a character is escaped only where a backslash escapes, and the next one is
code or comment only if no hole is open before it or after it. -/
theorem invariant_run (calls : List (Char × Char)) :
    (∀ h ∈ (run {} calls).holes, 1 ≤ h.depth ∧ h.depth ≤ calls.length) ∧
      EscapesIn (run {} calls) ∧
      ∀ c n, ((run {} calls).step c n).2 ∈ [CharClass.code, .comment] →
        (run {} calls).holes = [] ∧ ((run {} calls).step c n).1.holes = [] := by
  have hholes : HolesWithin 0 ({} : Scanner).holes := nofun
  have hescapes : EscapesIn {} := nofun
  refine ⟨?_, hescapes.run calls, fun c n hclass ↦ holes_eq_nil_of_class fun heq ↦ ?_⟩
  · exact Nat.zero_add calls.length ▸ holesWithin_run hholes calls
  · rw [heq] at hclass
    exact absurd hclass (by decide)

-- The second closing brace is passed as the rest of a comment.
example : (run {} [('$', '"'), ('"', '\x7b'), ('\x7b', 'x'), ('\x7b', 'x'), ('\x7d', '/'),
    ('/', '/'), ('\x7d', '"')]).holes = [⟨false, 1⟩] := by decide

end Scanner

end SharpOutline
