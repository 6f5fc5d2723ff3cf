import SharpOutline.Proofs.Block.Directives

/-!
# Reading comments

What the machine makes of a line with a comment. The comment is read with its marks, and waits for
the next declaration, unless it is a line comment that marks a region.
-/

namespace SharpOutline

open Drafting SharpOutline.Tree Machine Reading

/-- The comment stands on one line and is read as it was written: its end is not part of it, and a
line comment neither looks like another kind of comment nor marks a region. -/
def RegionMarkers.isPlain (m : RegionMarkers) (c : Comment) : Bool :=
  !c.text.contains '\n' &&
    match c.kind with
    | .line =>
      c.text.getLast? != some '\r' && c.text.head? != some '/' && (m.opened? c.text).isNone &&
        (m.closed? c.text).isNone
    | .documentation => c.text.getLast? != some '\r'
    | .block => !Text.includes "*/".toList c.text

variable {m : RegionMarkers} {fs : List Frame} {t : Tree} {scopes : List Scope} {rest text : Text}
  {c : Comment}

/-! ## The text of a comment -/

theorem linesFrom_of_not_mem {line : Text} (h : '\n' ∉ text) (hline : line ++ text ≠ []) :
    Text.linesFrom line text = [line ++ text] := by
  induction text generalizing line with
  | nil => simpa [Text.linesFrom] using hline
  | cons d text ih =>
    obtain ⟨hd, htext⟩ := List.ne_and_not_mem_of_not_mem_cons h
    rw [Text.linesFrom, if_neg (Ne.symm hd), ih htext (by simp), List.append_assoc,
      List.singleton_append]

/-- A comment that stands on one line is laid out on one line. -/
theorem Comment.lines_of_not_mem (h : '\n' ∉ c.text) (depth : Nat) :
    c.lines depth = [⟨depth, c.written⟩] := by
  have hwritten : '\n' ∉ c.written ∧ c.written ≠ [] := by
    cases hkind : c.kind <;> simp [Comment.written, hkind, h]
  rw [Comment.lines, Text.lines, linesFrom_of_not_mem hwritten.1 (by simpa using hwritten.2)]
  rfl

theorem blockCommentSpan_append (rest : Text) (h : Text.includes "*/".toList text = false) :
    blockCommentSpan (text ++ ("*/".toList ++ rest)) = some (text, text.length + 2) := by
  induction text with
  | nil => rfl
  | cons d text ih =>
    rw [Text.includes, Bool.or_eq_false_iff] at h
    have hd : ¬(d = '*' ∧ ahead (text ++ ("*/".toList ++ rest)) = '/') := by
      rintro ⟨rfl, hahead⟩
      cases text with
      | nil => exact absurd hahead (by simp)
      | cons d text =>
        obtain rfl : d = '/' := hahead
        simp at h
    rw [List.cons_append, blockCommentSpan, if_neg hd, ih h.2]
    rfl

/-- A line comment is read after its first slash, with the rest of its line. -/
theorem yields_comment?_line {w : Text} (hahead : ahead w ≠ '/')
    (hline : line.Yields w text rest) :
    comment?.Yields ('/' :: w) (some ⟨.line, text⟩) rest := by
  have hskip : (skip 1).Yields ('/' :: w) () w := yields_skip 1
  have hkind : lineCommentKind.Yields w .line w := by
    refine yields_peek.bind ?_
    rw [if_neg hahead]
    exact .pure
  exact yields_peek.bind (hskip.bind (hkind.bind (hline.bind .pure)))

/-- A comment is read after its first slash; the end of its line may be left. -/
theorem yields_comment? (e : LineEnding) (rest : Text) (h : m.isPlain c = true) :
    ∃ w u, c.written ++ (e.text ++ rest) = '/' :: w ∧
      comment?.Yields w (some c) (u ++ rest) ∧ u.all isBlank = true := by
  rw [RegionMarkers.isPlain, Bool.and_eq_true, Bool.not_eq_true', List.contains_eq_mem,
    decide_eq_false_iff_not] at h
  obtain ⟨hnewline, h⟩ := h
  obtain ⟨kind, text⟩ := c
  have hskip {d : Char} (t : Text) : (skip 1).Yields (d :: t) () t := yields_skip 1
  cases kind with
  | line =>
    simp only [Bool.and_eq_true, bne_iff_ne] at h
    obtain ⟨⟨⟨hreturn, hslash⟩, -⟩, -⟩ := h
    have hahead : ahead (text ++ (e.text ++ rest)) ≠ '/' := by
      cases text with
      | nil => cases e <;> simp [LineEnding.text]
      | cons d text => simpa using hslash
    refine ⟨'/' :: (text ++ (e.text ++ rest)), [], rfl, ?_, rfl⟩
    exact yields_comment?_line hahead (yields_line_of_lineEnding e hnewline hreturn)
  | documentation =>
    have hreturn : text.getLast? ≠ some '\r' := bne_iff_ne.mp h
    refine ⟨'/' :: '/' :: (text ++ (e.text ++ rest)), [], rfl, ?_, rfl⟩
    refine yields_peek.bind ((hskip _).bind ?_)
    have hkind : lineCommentKind.Yields ('/' :: (text ++ (e.text ++ rest))) .documentation
        (text ++ (e.text ++ rest)) := yields_peek.bind ((hskip _).bind .pure)
    exact hkind.bind ((yields_line_of_lineEnding e hnewline hreturn).bind .pure)
  | block =>
    have hspan := yields_span "*/".toList
      (blockCommentSpan_append (e.text ++ rest) (by simpa using h))
    have hdrop : (text ++ ("*/".toList ++ (e.text ++ rest))).drop (text.length + 2) =
        e.text ++ rest := by simp
    rw [hdrop] at hspan
    refine ⟨'*' :: (text ++ ("*/".toList ++ (e.text ++ rest))), e.text,
      by simp [Comment.written], ?_, by cases e <;> decide⟩
    exact yields_peek.bind ((hskip _).bind (hspan.bind .pure))

/-- A comment is read behind a declaration; the end of its line may be left. -/
theorem yields_trailingComment?_some (e : LineEnding) (rest : Text) (h : m.isPlain c = true) :
    ∃ u, trailingComment?.Yields (' ' :: c.written ++ (e.text ++ rest)) (some c)
        (u ++ rest) ∧ u.all isBlank = true := by
  obtain ⟨w, u, hw, hread, hu⟩ := yields_comment? e rest h
  refine ⟨u, ?_, hu⟩
  have hspaces : skipSpaces.Yields (' ' :: '/' :: w) () ('/' :: w) :=
    yields_skipSpaces
  have hskip : (skip 1).Yields ('/' :: w) () w := yields_skip 1
  rw [List.cons_append, hw]
  exact hspaces.bind (yields_peek.bind (hskip.bind (hread.bind .pure)))

/-! ## Comments that wait -/

theorem placeComment_of_isPlain (h : m.isPlain c = true) : placeComment m c = keepComment c := by
  rw [placeComment]
  split
  · rename_i hkind
    simp only [RegionMarkers.isPlain, hkind, Bool.and_eq_true, Option.isNone_iff_eq_none] at h
    simp [h.2.1.2, h.2.2]
  · rfl

/-- A comment that marks no region waits. -/
theorem leads_of_yields_comment? {comments elements : List ElementId} {w : Text}
    (hread : comment?.Yields w (some c) rest)
    (hplace : placeComment m c = keepComment c) :
    Leads m ⟨'/' :: w, t, { comments, scopes, elements }⟩ fs
      ⟨rest, t.create [] (.comment c),
        { comments := comments ++ [t.size], scopes, elements }⟩ fs := by
  have hslash : Runs (slash m) ⟨w, t, { comments, scopes, elements }⟩ .more
      ⟨rest, t.create [] (.comment c),
        { comments := comments ++ [t.size], scopes, elements }⟩ := by
    refine (runs_read hread).bind ?_
    dsimp only
    rw [hplace]
    exact (runs_create [] (.comment c)).bind ((runs_modifyBlock _).bind .pure)
  have hreact : Runs (react m '/') ⟨w, t, { comments, scopes, elements }⟩ (.done .more)
      ⟨rest, t.create [] (.comment c),
        { comments := comments ++ [t.size], scopes, elements }⟩ :=
    runs_block.bind (runs_done hslash)
  exact leads_of_done (runs_advance rfl hreact) nofun

/-- The line of a comment, which then waits. -/
theorem leads_comment (fs : List Frame) (e : LineEnding) (rest : Text) (t : Tree)
    (scopes : List Scope) (comments elements : List ElementId) (h : m.isPlain c = true) :
    Leads m ⟨c.written ++ (e.text ++ rest), t, { comments, scopes, elements }⟩ fs
      ⟨rest, t.create [] (.comment c),
        { comments := comments ++ [t.size], scopes, elements }⟩ fs := by
  obtain ⟨w, u, hw, hread, hu⟩ := yields_comment? e rest h
  rw [hw]
  exact (leads_of_yields_comment? hread (placeComment_of_isPlain h)).trans
    (leads_blanks (List.all_eq_true.mp hu) rfl)

end SharpOutline
