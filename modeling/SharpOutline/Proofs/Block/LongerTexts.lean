import SharpOutline.Proofs.Block.Parallel
import SharpOutline.Proofs.Block.Runs

/-!
# Readings of longer texts

What readings do in front of a text that goes on behind the one they know. A reading that leaves
something of the shorter text has not seen that it ends there, so it does the same in the longer one
(`Local`); this is checked once for each reading.

Readings that end with a bracket or another sign do the same in front of a line break as well, and
leave something of every text that ends with a line (`Firm`). A comment ends with its line, and so
it may take the line break behind the shorter text with it (`Last`).
-/

namespace SharpOutline

open Pairing

namespace Reading

variable {α : Type} {u v : Text} {c : Char}

/-- Cursors in a text and in one that goes on with `u` behind it. -/
def longer (u : Text) : Pairing Cursor where
  rest := Cursor.rest
  after := u
  Pairs c e := e.rest = c.rest ++ u

variable {opener closer : Char}

theorem mirrors_of_yields {r : Reading α} {c c' : Cursor} {a : α}
    (h : r.Yields (c.rest ++ u) a (c'.rest ++ u)) : (longer u).Mirrors r c a c' := h

/-! ## Spans -/

section Spans

variable {find : Text → Option (α × Nat)} {expected : Text}

theorem span_eq_ok {c c' : Cursor} {a : α} (h : span find expected c = .ok a c') :
    ∃ n, find c.rest = some (a, n) ∧ c'.rest = c.rest.drop n := by
  rw [span] at h
  split at h
  · rename_i b n hfind
    cases h
    exact ⟨n, hfind, Cursor.rest_skip n c⟩
  · cases h

theorem local_span (h : IsLocal find) (expected : Text) :
    (longer u).Local id (span find expected) (span find expected) := by
  intro c a c' hc
  obtain ⟨n, hfind, hrest⟩ := span_eq_ok hc
  have hsuffix : c'.rest <:+ c.rest := hrest ▸ List.drop_suffix n c.rest
  refine ⟨hsuffix, fun hclear ↦ mirrors_of_yields ?_⟩
  rcases hclear with hu | hne
  · obtain rfl : u = [] := hu
    rw [List.append_nil, List.append_nil, hrest]
    exact yields_span expected hfind
  · have hlt : n < c.rest.length := by
      rw [← Nat.not_le, ← List.drop_eq_nil_iff, ← hrest]
      exact hne
    have hyields := yields_span expected (h hfind hlt u)
    rwa [List.drop_append_of_le_length hlt.le, ← hrest] at hyields

theorem firm_span (h : IsClosed find) (expected : Text) :
    (longer u).Firm (longer v) Sound Clear id (span find expected) (span find expected) := by
  intro c a c' hc
  obtain ⟨n, hfind, hrest⟩ := span_eq_ok hc
  refine ⟨fun hnil ↦ ?_, fun hsound ↦ .inl ?_⟩
  · rw [show c.rest = [] from hnil] at hfind
    exact absurd (h.lt hfind (by simp [Text.LineEnded])) (Nat.not_lt_zero n)
  have hmirrors : find (c.rest ++ u) = some (a, n) →
      (longer u).Mirrors (span find expected) c a c' := by
    intro hfind'
    have hyields := yields_span expected hfind'
    rw [List.drop_append_of_le_length (h.le_length hfind), ← hrest] at hyields
    exact mirrors_of_yields hyields
  by_cases hlt : n < c.rest.length
  · refine ⟨hmirrors (h.append hfind (.inl hlt)), ?_⟩
    have hsuffix : c'.rest <:+ c.rest := hrest ▸ List.drop_suffix n c.rest
    refine (hsound.of_suffix hsuffix).ready ?_
    rw [hrest, Ne, List.drop_eq_nil_iff]
    exact Nat.not_le.mpr hlt
  · have hedge := hsound.edge fun hline ↦ hlt (h.lt hfind hline)
    refine ⟨hmirrors ?_, .inl hedge⟩
    rcases hedge with hu | hu
    · rw [show u = [] from hu, List.append_nil, hfind]
    · exact h.append hfind (.inr (by rw [show u = '\n' :: v from hu]; rfl))

end Spans

/-! ## Characters -/

theorem local_peek : (longer u).Local id peek peek := by
  have hfind : IsLocal fun t ↦ some (ahead t, 0) := by
    rintro t a n ⟨⟩ hlt u
    exact congrArg (fun c ↦ some (c, 0)) (ahead_append u (List.ne_nil_of_length_pos hlt))
  exact local_span hfind []

theorem local_skip (n : Nat) : (longer u).Local id (skip n) (skip n) := by
  have hfind : IsLocal fun _ ↦ some ((), n) := by
    rintro t a m ⟨⟩ hlt u
    rfl
  exact local_span hfind []

theorem isLocal_takeWhile (test : Char → Bool) (f : Text → α) (k : Nat) :
    IsLocal fun t ↦ some (f (t.takeWhile test), (t.takeWhile test).length + k) := by
  rintro t a n ⟨⟩ hlt u
  have hne : (t.takeWhile test).length ≠ t.length := by omega
  have htake : (t ++ u).takeWhile test = t.takeWhile test := by
    rw [List.takeWhile_append, if_neg hne]
  exact congrArg (fun v ↦ some (f v, v.length + k)) htake

theorem local_skipBlanks : (longer u).Local id skipBlanks skipBlanks :=
  local_span (isLocal_takeWhile isBlank (fun _ ↦ ()) 0) []

theorem local_line : (longer u).Local id line line :=
  local_span (isLocal_takeWhile (· != '\n') Text.dropReturn 1) []

theorem looks_peek : (longer u).Looks peek := by
  refine ⟨fun e c e' he ↦ ?_, fun e ↦ mirrors_of_yields yields_peek⟩
  cases he
  exact ⟨rfl, rfl⟩

theorem firm_skip (hc : c ≠ '\n' ∧ c ≠ endMark) :
    (longer u).Firm (longer v) (At c) Any id (skip 1) (skip 1) := by
  intro e a e' he
  cases he
  refine ⟨trivial, fun hat ↦ .inl ?_⟩
  obtain ⟨hready, hahead⟩ : Ready u v e.rest ∧ ahead e.rest = c := hat
  obtain ⟨t, ht⟩ : ∃ t, e.rest = c :: t := by
    cases ht : e.rest with
    | nil => exact absurd (ht ▸ hahead).symm hc.2
    | cons x t => exact ⟨t, by rw [← hahead, ht]; rfl⟩
  have hrest : (e.skip 1).rest = t := by rw [Cursor.rest_skip, ht, List.drop_one, List.tail_cons]
  refine ⟨mirrors_of_yields ?_, ?_⟩
  · rw [hrest, ht]
    exact yields_skip 1
  · change Ready u v (e.skip 1).rest
    rw [hrest]
    exact (ht ▸ hready).tail hc.1

/-- A text that may be read on may be read on behind characters that do not end a line. -/
theorem ready_dropWhile (test : Char → Bool) (htest : test '\n' = false) {t : Text}
    (h : Ready u v t) : Ready u v (t.dropWhile test) := by
  induction t with
  | nil => exact h
  | cons c t ih =>
    by_cases hc : test c = true
    · rw [List.dropWhile_cons_of_pos hc]
      exact ih (h.tail fun heq ↦ by simp [heq ▸ hc] at htest)
    · rwa [List.dropWhile_cons_of_neg hc]

theorem firm_skipSpaces :
    (longer u).Firm (longer v) Ready Any id skipSpaces skipSpaces := by
  intro e a e' he
  obtain ⟨e₁, he₁, hrest⟩ := yields_skipSpaces e rfl
  cases he.symm.trans he₁
  refine ⟨trivial, fun hready ↦ .inl ?_⟩
  have hready' : Ready u v e'.rest := hrest ▸ ready_dropWhile _ (by decide) hready
  refine ⟨mirrors_of_yields ?_, hready'⟩
  have hyields := yields_skipSpaces (t := e.rest ++ u)
  rw [List.dropWhile_append, ← hrest] at hyields
  split at hyields
  · -- Only spaces were left, and none follow at an edge.
    rename_i hnil
    rw [List.isEmpty_iff.mp hnil] at hready' ⊢
    rcases hready'.edge with rfl | rfl
    · exact hyields
    · exact hyields
  · exact hyields

/-- A line that has an end is the same in the longer text, and one without an end takes the line
break with it. -/
theorem last_line : (longer u).Last (longer v) Ready Any id line line := by
  intro e a e' he
  refine ⟨trivial, fun hready ↦ .inr ⟨trivial, ?_⟩⟩
  by_cases hmem : '\n' ∈ e.rest
  · left
    obtain ⟨l, t, ht, hl⟩ := List.eq_append_cons_of_mem hmem
    obtain ⟨e₁, he₁, hrest⟩ := yields_line hl e ht
    cases he.symm.trans he₁
    have hyields := yields_line hl (t := t ++ u)
    rw [← List.cons_append, ← List.append_assoc, ← ht, ← hrest] at hyields
    exact mirrors_of_yields hyields
  · have htake : e.rest.takeWhile (· != '\n') = e.rest :=
      List.takeWhile_eq_self_iff.mpr fun c hc ↦ bne_iff_ne.mpr fun h ↦ hmem (h ▸ hc)
    have hdrop : e.rest.dropWhile (· != '\n') = [] :=
      List.dropWhile_eq_nil_iff.mpr fun c hc ↦ bne_iff_ne.mpr fun h ↦ hmem (h ▸ hc)
    have hedge : Edge u v := (hdrop ▸ ready_dropWhile (· != '\n') rfl hready).edge
    rcases hedge with rfl | rfl
    · exact .inl ((local_line he).2 (.inl rfl))
    · right
      cases he
      have hrest : e.skipLine.rest = [] := by
        rw [Cursor.skipLine, Cursor.rest_skip, htake]
        exact List.drop_eq_nil_of_le (Nat.le_succ _)
      refine ⟨hrest, fun e₁ he₁ ↦ ?_⟩
      obtain ⟨e₂, he₂, hrest₂⟩ := yields_line hmem e₁ he₁
      refine ⟨e₂, ?_, ?_⟩
      · rw [he₂, id_eq, Cursor.line, htake]
      · change e₂.rest = e.skipLine.rest ++ v
        rw [hrest, hrest₂]
        rfl

theorem local_expect (c : Char) : (longer u).Local id (expect c) (expect c) :=
  local_skipBlanks.bind fun _ ↦ local_peek.bind fun _ ↦
    (local_skip 1).ite ((still_throw _ _ _ _).local.ite (still_throw _ _ _ _).local)

theorem firm_expect (hc : c ≠ '\n' ∧ c ≠ endMark) :
    (longer u).Firm (longer v) Sound Clear id (expect c) (expect c) := by
  refine local_skipBlanks.bind_steady fun _ ↦ looks_peek.bind_sound (fun e _ _ ↦ ?_) fun x ↦ ?_
  · rw [if_neg hc.2.symm]
    exact throw_ne_ok _ _ _ _
  · refine .ite (fun hx ↦ firm_skip (hx ▸ hc)) fun _ ↦ ?_
    exact .ite (fun _ ↦ steady_of_fails (throw_ne_ok _)) fun _ ↦ steady_of_fails (throw_ne_ok _)

theorem firm_skipBlanks :
    (longer u).Firm (longer v) Inked Any id skipBlanks skipBlanks := by
  intro e a e' he
  obtain ⟨hsuffix, hm⟩ := local_skipBlanks (u := u) he
  refine ⟨trivial, fun hinked ↦ .inl ?_⟩
  obtain ⟨e₁, he₁, hrest⟩ := yields_skipBlanks e rfl
  cases he.symm.trans he₁
  have hne : e'.rest ≠ [] := hrest ▸ hinked.2
  exact ⟨hm (.inr hne), (hinked.1.of_suffix hsuffix).ready hne⟩

/-! ## Brackets and clauses -/

theorem local_bracketed (hc : closer ≠ '\n') :
    (longer u).Local id (bracketed opener closer) (bracketed opener closer) :=
  local_span (isClosed_bracketedSpan hc).isLocal _

theorem firm_bracketed (hc : closer ≠ '\n') :
    (longer u).Firm (longer v) Sound Clear id (bracketed opener closer)
      (bracketed opener closer) :=
  firm_span (isClosed_bracketedSpan hc) _

theorem firm_bracketedTrimmed (hc : closer ≠ '\n') :
    (longer u).Firm (longer v) Sound Clear id (bracketedTrimmed opener closer)
      (bracketedTrimmed opener closer) :=
  (firm_bracketed hc).bind fun _ ↦ (still_pure _ id _).steady

/-- Passes all blanks and returns them. -/
def passedBlanks : Reading Text := do
  let c ← get
  skipBlanks
  return c.rest.takeWhile isBlank

theorem enclosed_eq (opener closer : Char) : enclosed opener closer = (do
    let blanks ← passedBlanks
    expect opener
    let t ← bracketed opener closer
    return blanks ++ t) := rfl

/-- The blanks before an opening bracket are the same in the longer text, because the bracket
follows them. -/
theorem local_enclosed (hc : closer ≠ '\n') :
    (longer u).Local id (enclosed opener closer) (enclosed opener closer) := by
  have hblanks : (longer u).Local id passedBlanks passedBlanks :=
    local_span (isLocal_takeWhile isBlank (fun t ↦ t) 0) []
  rw [enclosed_eq]
  exact hblanks.bind fun blanks ↦ (local_expect opener).bind fun _ ↦
    (local_bracketed hc).bind fun t ↦ (still_pure _ id (blanks ++ t)).local

theorem firm_statement : (longer u).Firm (longer v) Sound Clear id statement statement :=
  firm_span isClosed_statementSpan _

theorem firm_tail : (longer u).Firm (longer v) Sound Clear id tail tail :=
  firm_span isClosed_tailSpan _

theorem firm_header : (longer u).Firm (longer v) Sound Clear id header header :=
  firm_span isClosed_headerSpan _

theorem firm_blockComment :
    (longer u).Firm (longer v) Sound Clear id blockComment blockComment :=
  firm_span isClosed_blockCommentSpan _

theorem firm_body (start : BodyStart) :
    (longer u).Firm (longer v) Ready Any id (body start) (body start) := by
  cases start with
  | block =>
    exact ((firm_bracketed (by decide)).bind fun t ↦
      (still_pure _ id (MemberBody.block t)).steady).ready
  | expression =>
    exact (firm_statement.bind fun t ↦ (still_pure _ id (MemberBody.expression t)).steady).ready
  | statement => exact (still_pure _ id MemberBody.absent).steady

/-! ## Words -/

theorem local_word (generics : Bool) : (longer u).Local id (word generics) (word generics) :=
  local_skipBlanks.bind fun _ ↦ local_span (isLocal_wordFrom generics []) _

theorem local_typeName : (longer u).Local id typeName typeName :=
  (local_word true).bind fun name ↦ (local_span isLocal_typeMarks _).bind fun marks ↦
    (still_pure _ id (name ++ marks)).local

/-! ## Comments -/

theorem firm_lineCommentKind :
    (longer u).Firm (longer v) Ready Any id lineCommentKind lineCommentKind := by
  have hline : (longer u).Firm (longer v) Ready Any id (pure CommentKind.line)
    (pure CommentKind.line) := (still_pure _ id _).steady
  refine looks_peek.bind_steady (fun c ↦ .ite (fun hc ↦ ?_) fun _ ↦ hline.at) hline
  exact (firm_skip (by rw [hc]; decide)).bind fun _ ↦
    (still_pure _ id CommentKind.documentation).steady

theorem last_comment? : (longer u).Last (longer v) Ready Any id comment? comment? := by
  have hnone : (longer u).Last (longer v) Ready Any id (pure (none : Option Comment)) (pure none) :=
    (still_pure _ id none).steady
  refine looks_peek.bind_steady
    (fun c ↦ .ite (fun hc ↦ ?_) fun _ ↦ .ite (fun hc ↦ ?_) fun _ ↦ hnone.at) hnone
  · exact (firm_skip (by rw [hc]; decide)).bind fun _ ↦ firm_lineCommentKind.bind fun kind ↦
      last_line.bind_still (fun text ↦ still_pure _ id (some (Comment.mk kind text)))
        fun text ↦ still_pure _ id (some (Comment.mk kind text))
  · exact (firm_skip (by rw [hc]; decide)).bind fun _ ↦ (firm_blockComment.bind fun text ↦
      (still_pure _ id (some (Comment.mk .block text))).steady).ready

theorem last_trailingComment? :
    (longer u).Last (longer v) Ready Any id trailingComment? trailingComment? := by
  have hnone : (longer u).Last (longer v) Ready Any id (pure (none : Option Comment)) (pure none) :=
    (still_pure _ id none).steady
  refine firm_skipSpaces.bind fun _ ↦
    looks_peek.bind_steady (fun c ↦ .ite (fun hc ↦ ?_) fun _ ↦ hnone.at) hnone
  refine (firm_skip (by rw [hc]; decide)).bind fun _ ↦ last_comment?.bind_still ?_ ?_
  all_goals
    intro found
    cases found with
    | none => exact still_throw _ id _ _
    | some comment => exact still_pure _ id (some comment)

/-! ## Attributes -/

theorem local_targetedName : (longer u).Local id targetedName targetedName :=
  (local_word true).bind fun first ↦ local_skipBlanks.bind fun _ ↦ local_peek.bind fun _ ↦
    .ite
      ((local_skip 1).bind fun _ ↦ (local_word true).bind fun name ↦
        local_skipBlanks.bind fun _ ↦ (still_pure _ id (some first, name)).local)
      (still_pure _ id (none, first)).local

theorem local_plainName : (longer u).Local id plainName plainName :=
  (local_word true).bind fun name ↦ local_skipBlanks.bind fun _ ↦
    (still_pure _ id (none, name)).local

theorem local_attributeUse (isFirst : Bool) :
    (longer u).Local id (attributeUse isFirst) (attributeUse isFirst) := by
  have hname : (longer u).Local id (cond isFirst targetedName plainName)
      (cond isFirst targetedName plainName) := by
    cases isFirst
    · exact local_plainName
    · exact local_targetedName
  refine hname.bind fun r ↦ .ite (still_throw _ _ _ _).local (local_peek.bind fun _ ↦ .ite ?_ ?_)
  · exact (local_enclosed (by decide)).bind fun arguments ↦
      (still_pure _ id (ListedAttribute.mk r.2 ⟨r.1, some (Text.trim arguments)⟩)).local
  · exact (still_pure _ id (ListedAttribute.mk r.2 ⟨r.1, none⟩)).local

theorem firm_attributeSeparator :
    (longer u).Firm (longer v) Sound Clear id attributeSeparator attributeSeparator := by
  refine local_skipBlanks.bind_steady fun _ ↦ looks_peek.bind_sound (fun e _ _ ↦ ?_) fun c ↦ ?_
  · exact throw_ne_ok _ _ _ _
  · refine .ite (fun hc ↦ ?_) fun _ ↦ .ite (fun hc ↦ ?_) fun _ ↦ ?_
    · exact (firm_skip (by rw [hc]; decide)).bind fun _ ↦ (still_pure _ id true).steady
    · exact (firm_skip (by rw [hc]; decide)).bind fun _ ↦ (still_pure _ id false).steady
    · exact .ite (fun _ ↦ steady_of_fails (throw_ne_ok _)) fun _ ↦ steady_of_fails (throw_ne_ok _)

/-! ## Declarations -/

theorem local_aliasTarget : (longer u).Local id Drafting.aliasTarget Drafting.aliasTarget :=
  local_skipBlanks.bind fun _ ↦ local_peek.bind fun _ ↦
    .ite
      ((local_skip 1).bind fun _ ↦ ((local_bracketed (by decide)).bind fun t ↦
        (still_pure _ id (Text.trim t)).local).bind fun inside ↦
          (still_pure _ id ('(' :: inside ++ [')'])).local)
      local_typeName

theorem local_aliasClause? (name : Text) :
    (longer u).Local id (Drafting.aliasClause? name) (Drafting.aliasClause? name) :=
  local_skipBlanks.bind fun _ ↦ local_peek.bind fun _ ↦
    .ite
      ((local_skip 1).bind fun _ ↦ local_aliasTarget.bind fun target ↦
        .ite (still_throw _ _ _ _).local (still_pure _ id (some target)).local)
      (still_pure _ id none).local

theorem local_usingName : (longer u).Local id Drafting.usingName Drafting.usingName :=
  (local_word true).bind fun first ↦
    .ite
      ((local_word true).bind fun name ↦ (still_pure _ id (true, name)).local)
      (still_pure _ id (false, first)).local

theorem firm_skipSemicolon : (longer u).Firm (longer v) Ready Any id Drafting.skipSemicolon
    Drafting.skipSemicolon := by
  have hnone : (longer u).Firm (longer v) Ready Any id (pure ()) (pure ()) :=
    (still_pure _ id ()).steady
  exact firm_skipSpaces.bind fun _ ↦ looks_peek.bind_steady
    (fun c ↦ .ite (fun hc ↦ firm_skip (by rw [hc]; decide)) fun _ ↦ hnone.at) hnone

theorem firm_readEnding (ending : Ending) : (longer u).Firm (longer v) Ready Any id
    (Drafting.readEnding ending) (Drafting.readEnding ending) := by
  cases ending with
  | namespaceBrace => exact (firm_expect (by decide)).ready
  | outerEnd => exact (still_pure _ id ()).steady
  | typeBrace => exact ((firm_expect (by decide)).bind fun _ ↦ firm_skipSemicolon).ready

end Reading

end SharpOutline
