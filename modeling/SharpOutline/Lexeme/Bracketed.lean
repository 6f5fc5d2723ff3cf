import SharpOutline.Lexeme.Scanner

/-!
# Bracketed text

Reading up to the bracket that closes the one just passed. Brackets in literals and comments do not
count; the text is returned as it stands, comments included.
-/

namespace SharpOutline

/-- The text before the `closer` that ends the current level, where `depth` further levels are open
and the scanner has read everything so far. There is none if the text ends first. -/
def bracketedFrom (opener closer : Char) (s : Scanner) (depth : Nat) : Text → Option Text
  | [] => none
  | c :: cs =>
    let r := s.step c (ahead cs)
    if r.2 = .code ∧ c = opener then
      (bracketedFrom opener closer r.1 (depth + 1) cs).map (c :: ·)
    else if r.2 = .code ∧ c = closer then
      if depth = 0 then some []
      else (bracketedFrom opener closer r.1 (depth - 1) cs).map (c :: ·)
    else (bracketedFrom opener closer r.1 depth cs).map (c :: ·)

/-- The text up to the `closer` that ends the level just opened. -/
def bracketed (opener closer : Char) (t : Text) : Option Text :=
  bracketedFrom opener closer {} 0 t

/-- The text up to the `closer`, with the number of characters that it and the `closer` take. -/
def bracketedSpan (opener closer : Char) (t : Text) : Option (Text × Nat) :=
  (bracketed opener closer t).map fun inside ↦ (inside, inside.length + 1)

theorem bracketedFrom_eq_some {opener closer : Char} {s : Scanner} {depth : Nat} {t inside : Text}
    (h : bracketedFrom opener closer s depth t = some inside) :
    ∃ rest, t = inside ++ closer :: rest := by
  induction t generalizing s depth inside with
  | nil => simp [bracketedFrom] at h
  | cons c cs ih =>
    have pass : ∀ {s' d'}, (bracketedFrom opener closer s' d' cs).map (c :: ·) = some inside →
        ∃ rest, c :: cs = inside ++ closer :: rest := by
      intro s' d' h'
      obtain ⟨u, hu, rfl⟩ := Option.map_eq_some_iff.1 h'
      obtain ⟨rest, hrest⟩ := ih hu
      exact ⟨rest, by rw [hrest, List.cons_append]⟩
    rw [bracketedFrom] at h
    split at h
    · exact pass h
    · split at h
      · rename_i hc
        split at h
        · obtain rfl : [] = inside := by simpa using h
          exact ⟨cs, by simp [hc.2]⟩
        · exact pass h
      · exact pass h

/-- Bracketed text is followed by the bracket that ends it. -/
theorem bracketed_eq_some {opener closer : Char} {t inside : Text}
    (h : bracketed opener closer t = some inside) : ∃ rest, t = inside ++ closer :: rest :=
  bracketedFrom_eq_some h

end SharpOutline
