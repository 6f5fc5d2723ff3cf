import SharpOutline.Proofs.Document.Descent
import SharpOutline.Proofs.Document.Extent

/-!
# Places in a source text

A cursor counts as it goes: bytes, lines and columns are added up character by character. What they
come to is a function of the text that lies behind the cursor alone (`Position.behind`), however
the cursor got there; so are the two characters that the cursor remembers. Passing one character
keeps this (`Cursor.Behind.advance`), and every motion passes one character after the other.

Nothing that is done while a document is read moves its cursor in another way, and a fault is
reported at the cursor. So the place of a fault is that behind everything that has been read
(`Document.place_of_parse`).
-/

namespace SharpOutline

/-! ## Cursors -/

/-- The place behind a text: its bytes in UTF-8, its line ends, and its characters after the last
of them. -/
def Position.behind (passed : Text) : Position where
  byte := (String.ofList passed).utf8ByteSize
  line := passed.count '\n'
  column := (passed.reverse.takeWhile (· != '\n')).length

theorem Position.behind_append (passed : Text) (x : Char) :
    behind (passed ++ [x]) = (behind passed).next x := by
  have hbyte : (String.ofList (passed ++ [x])).utf8ByteSize =
      (String.ofList passed).utf8ByteSize + x.utf8Size := by simp
  by_cases hx : x = '\n'
  · subst hx
    simp only [behind, Position.next, hbyte]
    simp
  · simp only [behind, Position.next, if_neg hx, hbyte]
    simp [hx]

namespace Cursor

variable {source passed : Text} {c : Cursor}

/-- The cursor stands in the source text behind the given part of it. It stands between two
characters of the UTF-8 text, and it remembers the last two characters of that part; where there are
none it remembers end marks. -/
structure Behind (source passed : Text) (c : Cursor) : Prop where
  source_eq : source = passed ++ c.rest
  boundary : String.Pos.Raw.IsValid (String.ofList source) ⟨c.position.byte⟩
  position : c.position = .behind passed
  current : c.current = passed.getLast?.getD endMark
  previous : c.previous = passed.dropLast.getLast?.getD endMark

/-- The place behind a part of a text lies between two of its characters. -/
theorem isValid_behind (passed rest : Text) :
    String.Pos.Raw.IsValid (String.ofList (passed ++ rest)) ⟨(Position.behind passed).byte⟩ :=
  String.Pos.Raw.isValid_iff_exists_append.mpr
    ⟨String.ofList passed, String.ofList rest, String.ofList_append, rfl⟩

theorem behind_start (source : Text) : Behind source [] (start source) :=
  ⟨rfl, isValid_behind [] source, rfl, rfl, rfl⟩

theorem Behind.advance (h : Behind source passed c) :
    ∃ passed', Behind source passed' c.advance := by
  cases hrest : c.rest with
  | nil =>
    rw [Cursor.advance, hrest]
    exact ⟨passed, h⟩
  | cons x rest =>
    have hsource : source = passed ++ [x] ++ rest := by
      rw [h.source_eq, hrest, List.append_assoc, List.singleton_append]
    have hposition : c.position.next x = .behind (passed ++ [x]) := by
      rw [Position.behind_append, h.position]
    have hadvance : c.advance = ⟨rest, c.position.next x, x, c.current⟩ := by
      rw [Cursor.advance, hrest]
    rw [hadvance, hposition]
    refine ⟨passed ++ [x], hsource, ?_, rfl, ?_, ?_⟩
    · rw [hsource]
      exact isValid_behind _ rest
    · rw [List.getLast?_concat, Option.getD_some]
    · rw [List.dropLast_concat]
      exact h.current

theorem Behind.skip (h : Behind source passed c) (n : Nat) :
    ∃ passed', Behind source passed' (c.skip n) := by
  induction n generalizing passed c with
  | zero => exact ⟨passed, h⟩
  | succ n ih =>
    obtain ⟨passed', h'⟩ := h.advance
    exact ih h'

/-! ## Motions -/

/-- A way to move a cursor. -/
inductive Motion where
  /-- Over the next character, if there is one. -/
  | advance
  /-- Over all the next characters for which a test holds. -/
  | skipWhile (test : Char → Bool)
  | skipBlanks
  /-- Over the rest of the line and its end. -/
  | skipLine

def moved (c : Cursor) : Motion → Cursor
  | .advance => c.advance
  | .skipWhile test => c.skipWhile test
  | .skipBlanks => c.skipBlanks
  | .skipLine => c.skipLine

def movedAll (c : Cursor) (motions : List Motion) : Cursor := motions.foldl moved c

theorem Behind.moved (h : Behind source passed c) (motion : Motion) :
    ∃ passed', Behind source passed' (c.moved motion) := by
  cases motion with
  | advance => exact h.advance
  | skipWhile test => exact h.skip _
  | skipBlanks => exact h.skip _
  | skipLine => exact h.skip _

theorem Behind.movedAll (h : Behind source passed c) (motions : List Motion) :
    ∃ passed', Behind source passed' (c.movedAll motions) := by
  induction motions generalizing passed c with
  | nil => exact ⟨passed, h⟩
  | cons motion motions ih =>
    obtain ⟨passed', h'⟩ := h.moved motion
    exact ih h'

end Cursor

/-! ## Documents -/

theorem Drafting.forward_readBlock (m : RegionMarkers) : Forward (readBlock m) := by
  intro d
  obtain ⟨n, hn⟩ := Machine.forward_run (m := m) ⟨{ d with block := {} }, []⟩
  unfold readBlock
  cases hrun : Machine.run m ⟨{ d with block := {} }, []⟩ with
  | error e d' =>
    rw [hrun] at hn
    exact ⟨n, hn⟩
  | ok _ d' =>
    rw [hrun] at hn
    replace hn : d'.cursor = d.cursor.skip n := hn
    obtain ⟨k, hk⟩ := built_finishBlock.forward d'
    rw [hn, Cursor.skip_skip] at hk
    refine ⟨n + k, ?_⟩
    dsimp only
    cases hfinish : finishBlock d' with
    | error e d'' =>
      rw [hfinish] at hk
      exact hk
    | ok ids d'' =>
      rw [hfinish] at hk
      exact hk

namespace Document

open Drafting hiding read

variable {m : RegionMarkers} {source : Text} {e : ParseError}

theorem forward_read (m : RegionMarkers) : Forward (read m) :=
  (forward_readBlock m).bind fun _ ↦ ((Built.read Reading.tidy_peek).bind fun _ ↦
    (Built.throw _).ite (built_editAll .addRoot _)).forward

/-- A fault is placed behind everything that has been read. -/
theorem place_of_parse (h : parse m source = .error e) :
    ∃ passed, source = passed ++ unread m source ∧ e.position = .behind passed := by
  obtain ⟨n, hn⟩ := forward_read m (start source)
  obtain ⟨passed, hbehind⟩ := (Cursor.behind_start source).skip n
  rw [show (start source).cursor.skip n = (Cursor.start source).skip n from rfl] at hn
  rw [← hn] at hbehind
  rw [parse] at h
  rw [unread]
  cases hread : read m (start source) with
  | ok _ d =>
    rw [hread] at h
    cases h
  | error f d =>
    rw [hread] at h hbehind
    obtain rfl := Except.error.inj h
    exact ⟨passed, hbehind.source_eq, hbehind.position⟩

/-- Settings are refused only for a text that is no pattern. -/
theorem markers_eq_error {s : MarkerSettings} (h : markers s = .error e) :
    ∃ p, e = ⟨.invalidPattern p, {}⟩ := by
  have hpattern : ∀ {t : Text} {f : Fault}, RegionMarkers.pattern Pattern.engine t = .error f →
      f = .invalidPattern t := by
    intro t f ht
    rw [RegionMarkers.pattern] at ht
    split at ht
    · cases ht
    · exact (Except.error.inj ht).symm
  rw [markers, RegionMarkers.ofSettings] at h
  cases hopening : RegionMarkers.pattern Pattern.engine s.opening with
  | error f =>
    rw [hopening] at h
    exact ⟨s.opening, (Except.error.inj h).symm.trans (by rw [hpattern hopening])⟩
  | ok opening =>
    cases hclosing : RegionMarkers.pattern Pattern.engine s.closing with
    | error f =>
      rw [hopening, hclosing] at h
      exact ⟨s.closing, (Except.error.inj h).symm.trans (by rw [hpattern hclosing])⟩
    | ok closing =>
      rw [hopening, hclosing] at h
      cases h

/-- **Places are exact.** However a cursor has been moved through a source text, it stands behind a
part of the text, and its counts and the characters that it remembers are those of this part. A
fault that is met while the text is read is placed behind everything that has been read; only a
pattern in the settings is refused without a place in the text. -/
theorem places_exact (source : Text) :
    (∀ motions, ∃ passed, ((Cursor.start source).movedAll motions).Behind source passed) ∧
      (∀ m e, parse m source = .error e →
        ∃ passed, source = passed ++ unread m source ∧ e.position = .behind passed) ∧
      ∀ s e, parseWith s source = .error e → (∃ p, e = ⟨.invalidPattern p, {}⟩) ∨
        ∃ m passed, markers s = .ok m ∧ source = passed ++ unread m source ∧
          e.position = .behind passed := by
  refine ⟨(Cursor.behind_start source).movedAll, fun m e ↦ place_of_parse, fun s e h ↦ ?_⟩
  cases hs : markers s with
  | error f =>
    rw [parseWith, hs] at h
    obtain rfl : f = e := Except.error.inj h
    exact .inl (markers_eq_error hs)
  | ok m =>
    rw [parseWith, hs] at h
    obtain ⟨passed, hplace⟩ := place_of_parse (m := m) h
    exact .inr ⟨m, passed, rfl, hplace⟩

/-- A closing brace without an opening one, on the second line behind a comment with characters of
several bytes. -/
def strayBraceSource : Text := "/* né 😀 */\r\n\t\x7d int x;".toList

theorem places_exact_strayBraceSource : ∃ m e passed, markers {} = .ok m ∧
    parse m strayBraceSource = .error e ∧ e.position = ⟨17, 1, 1⟩ ∧
      strayBraceSource = passed ++ "\x7d int x;".toList ∧ e.position = .behind passed := by
  have hsource : ((markers {}).toOption.any fun m ↦
      parse m strayBraceSource = .error ⟨.unexpectedCharacter '\x7d', ⟨17, 1, 1⟩⟩ ∧
        unread m strayBraceSource = "\x7d int x;".toList) = true := by decide +kernel
  obtain ⟨m, hm, hsource⟩ := Tree.toOption_any.mp hsource
  obtain ⟨hparse, hunread⟩ := of_decide_eq_true hsource
  obtain ⟨passed, hpassed, hplace⟩ := (places_exact strayBraceSource).2.1 m _ hparse
  rw [hunread] at hpassed
  exact ⟨m, _, passed, hm, hparse, rfl, hpassed, hplace⟩

end Document

end SharpOutline
