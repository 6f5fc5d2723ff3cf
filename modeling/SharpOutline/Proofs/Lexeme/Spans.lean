import Mathlib.Data.List.Infix
import SharpOutline.Proofs.Lexeme.Walks
import SharpOutline.Source.Reading

/-!
# Spans in longer texts

Most readings find something in the text that is left, and the number of characters that it takes.
They look at no more than one character behind that, so the same is found in front of any longer
text, as long as a character of the shorter one is left (`IsLocal`).

Whatever ends with a bracket or another sign is found as well if it takes all of the text and a line
break follows, since nothing tells the end of a text from that of a line. And in a text whose last
line has an end some character is indeed left behind it (`IsClosed`).
-/

namespace SharpOutline

/-- The last line of the text, if there is one, has an end. -/
def Text.LineEnded (t : Text) : Prop := ∀ c ∈ t.getLast?, c = '\n'

namespace Text.LineEnded

variable {t u : Text} {c : Char}

theorem of_suffix (h : LineEnded t) (hu : u <:+ t) : LineEnded u := by
  obtain ⟨v, rfl⟩ := hu
  intro c hc
  refine h c ?_
  rw [List.getLast?_append, Option.mem_def.mp hc]
  rfl

theorem tail (h : LineEnded (c :: t)) : LineEnded t := h.of_suffix (List.suffix_cons c t)

theorem ne_nil (h : LineEnded (c :: t)) (hc : c ≠ '\n') : t ≠ [] := by
  rintro rfl
  exact hc (h c rfl)

end Text.LineEnded

variable {t u inside : Text} {opener closer c : Char} {l k : Nat}

theorem ahead_append (u : Text) (ht : t ≠ []) : ahead (t ++ u) = ahead t := by
  cases t with
  | nil => exact absurd rfl ht
  | cons c t => rfl

/-- What is found stays the same in front of more text, unless it takes all of the text. -/
def IsLocal {α : Type} (find : Text → Option (α × Nat)) : Prop :=
  ∀ ⦃t a n⦄, find t = some (a, n) → n < t.length → ∀ u, find (t ++ u) = some (a, n)

/-- What is found ends with a sign of its own. It stays the same in front of more text, and in front
of a line break even if it takes all of the text. It does not take the end of the last line. -/
structure IsClosed {α : Type} (find : Text → Option (α × Nat)) : Prop where
  append : ∀ ⦃t a n⦄, find t = some (a, n) → ∀ ⦃u⦄, n < t.length ∨ u.head? = some '\n' →
    find (t ++ u) = some (a, n)
  lt : ∀ ⦃t a n⦄, find t = some (a, n) → Text.LineEnded t → n < t.length

namespace IsClosed

variable {α : Type} {find : Text → Option (α × Nat)} {t : Text} {a : α} {n : Nat}

theorem isLocal (h : IsClosed find) : IsLocal find :=
  fun _ _ _ hfind hlt _ ↦ h.append hfind (.inl hlt)

theorem le_length (h : IsClosed find) (hfind : find t = some (a, n)) : n ≤ t.length := by
  have hline : Text.LineEnded (t ++ ['\n']) := by
    intro c hc
    rw [List.getLast?_append] at hc
    exact (Option.some.inj hc).symm
  have hlt := h.lt (h.append hfind (.inr rfl)) hline
  rw [List.length_append, List.length_singleton] at hlt
  exact Nat.le_of_lt_succ hlt

end IsClosed

/-- What does not tell the end of a text from that of a line does not see where a text ends in front
of a line break. -/
theorem apply_ahead_append {β : Type} {f : Char → β} (hf : f '\n' = f endMark)
    (h : t ≠ [] ∨ u.head? = some '\n') : f (ahead (t ++ u)) = f (ahead t) := by
  cases t with
  | nil =>
    obtain ⟨v, rfl⟩ := List.head?_eq_some_iff.mp (h.resolve_left (not_not.mpr rfl))
    exact hf
  | cons c t => rfl

theorem Scanner.step_ahead_append (s : Scanner) (c : Char) (h : t ≠ [] ∨ u.head? = some '\n') :
    s.step c (ahead (t ++ u)) = s.step c (ahead t) :=
  apply_ahead_append (f := s.step c) (Scanner.step_of_isInert (by decide) (by decide)) h

/-! ## Brackets -/

theorem bracketedFrom_append {s : Scanner} {depth : Nat}
    (h : bracketedFrom opener closer s depth t = some inside)
    (hu : inside.length + 1 < t.length ∨ u.head? = some '\n') :
    bracketedFrom opener closer s depth (t ++ u) = some inside := by
  induction t generalizing s depth inside with
  | nil => simp [bracketedFrom] at h
  | cons c t ih =>
    have ht : t ≠ [] ∨ u.head? = some '\n' := hu.imp_left fun hlt hnil ↦ by simp [hnil] at hlt
    have later : ∀ {s d}, (bracketedFrom opener closer s d t).map (c :: ·) = some inside →
        (bracketedFrom opener closer s d (t ++ u)).map (c :: ·) = some inside := by
      intro s d h'
      obtain ⟨v, hv, rfl⟩ := Option.map_eq_some_iff.mp h'
      rw [ih hv (by simpa using hu), Option.map_some]
    rw [bracketedFrom] at h
    rw [List.cons_append, bracketedFrom, s.step_ahead_append c ht]
    split at h
    · rename_i hopen
      rw [if_pos hopen]
      exact later h
    · rename_i hopen
      rw [if_neg hopen]
      split at h
      · rename_i hclose
        rw [if_pos hclose]
        split at h
        · rename_i hd
          rw [if_pos hd, h]
        · rename_i hd
          rw [if_neg hd]
          exact later h
      · rename_i hclose
        rw [if_neg hclose]
        exact later h

theorem isClosed_bracketedSpan (hc : closer ≠ '\n') :
    IsClosed (bracketedSpan opener closer) := by
  refine ⟨fun t a n h u hu ↦ ?_, fun t a n h hline ↦ ?_⟩
  · obtain ⟨inside, hinside, heq⟩ := Option.map_eq_some_iff.mp h
    cases heq
    rw [bracketedSpan, bracketed, bracketedFrom_append hinside hu]
    rfl
  · obtain ⟨inside, hinside, heq⟩ := Option.map_eq_some_iff.mp h
    obtain ⟨rfl, rfl⟩ := Prod.mk.inj heq
    obtain ⟨rest, rfl⟩ := bracketed_eq_some hinside
    have hrest : rest ≠ [] := (hline.of_suffix (List.suffix_append inside _)).ne_nil hc
    have := List.length_pos_iff.mpr hrest
    rw [List.length_append, List.length_cons]
    omega

/-! ## Clauses -/

section Clauses

variable {α : Type}

/-- The readers of clauses in one: characters of code change the level, and one of them ends the
clause, with what it stands for and the number of characters it takes. -/
def clauseFrom (level : Char → Nat → Nat) (stop? : Nat → Char → Char → Option (α × Nat))
    (s : Scanner) (l : Nat) : Text → Option (Text × α × Nat)
  | [] => none
  | c :: cs =>
    let r := s.step c (ahead cs)
    match r.2 with
    | .comment => (clauseFrom level stop? r.1 l cs).map passOver
    | .literal => (clauseFrom level stop? r.1 l cs).map (prependTo c)
    | .code =>
      match stop? l c (ahead cs) with
      | some (a, k) => some ([], a, k)
      | none => (clauseFrom level stop? r.1 (level c l) cs).map (prependTo c)

/-- A clause ends with one sign or with two, the second of which is ahead, and no line break is
looked for. -/
structure EndsWithSigns (stop? : Nat → Char → Char → Option (α × Nat)) : Prop where
  signs : ∀ ⦃l c n a k⦄, stop? l c n = some (a, k) →
    k = 1 ∧ c ≠ '\n' ∨ k = 2 ∧ n ≠ endMark ∧ n ≠ '\n'
  newline : ∀ l c, stop? l c '\n' = stop? l c endMark

/-- What has been found in a text: it stays the same in front of more text, and leaves the end of
the last line. -/
structure Settled (find : Text → Option (Text × α × Nat)) (t : Text) : Prop where
  append : ∀ ⦃r⦄, find t = some r → ∀ ⦃u⦄, r.2.2 < t.length ∨ u.head? = some '\n' →
    find (t ++ u) = some r
  lt : ∀ ⦃r⦄, find t = some r → Text.LineEnded t → r.2.2 < t.length

variable {c : Char} {t : Text}

theorem Settled.cons {find later : Text → Option (Text × α × Nat)}
    {g : Text × α × Nat → Text × α × Nat} (h : Settled later t) (hg : ∀ r, (g r).2.2 = r.2.2 + 1)
    (hfind : find (c :: t) = (later t).map g)
    (hmore : ∀ u, t ≠ [] ∨ u.head? = some '\n' → find (c :: t ++ u) = (later (t ++ u)).map g) :
    Settled find (c :: t) := by
  have hlater : ∀ ⦃r⦄, find (c :: t) = some r → ∃ q, later t = some q ∧ g q = r := by
    intro r hr
    exact Option.map_eq_some_iff.mp (hfind ▸ hr)
  refine ⟨fun r hr u hu ↦ ?_, fun r hr hline ↦ ?_⟩
  · obtain ⟨q, hq, rfl⟩ := hlater hr
    rw [hg, List.length_cons, Nat.succ_lt_succ_iff] at hu
    rw [hmore u (hu.imp_left fun hlt ↦ List.ne_nil_of_length_pos (by omega)), h.append hq hu,
      Option.map_some]
  · obtain ⟨q, hq, rfl⟩ := hlater hr
    rw [hg, List.length_cons]
    exact Nat.succ_lt_succ (h.lt hq hline.tail)

theorem settled_of_signs {find : Text → Option (Text × α × Nat)} {a : α} {k : Nat}
    (hk : k = 1 ∧ c ≠ '\n' ∨ k = 2 ∧ ahead t ≠ endMark ∧ ahead t ≠ '\n')
    (hfind : find (c :: t) = some ([], a, k))
    (hmore : ∀ u, t ≠ [] ∨ u.head? = some '\n' → find (c :: t ++ u) = some ([], a, k)) :
    Settled find (c :: t) := by
  have hr : ∀ ⦃r⦄, find (c :: t) = some r → r = ([], a, k) := fun r hr ↦
    Option.some.inj (hr.symm.trans hfind)
  rcases hk with ⟨rfl, hc⟩ | ⟨rfl, hmark, hnewline⟩
  · refine ⟨fun r h u hu ↦ ?_, fun r h hline ↦ ?_⟩
    · rw [hr h, List.length_cons] at hu
      rw [hr h, hmore u (hu.imp_left fun hlt ↦ List.ne_nil_of_length_pos (by simpa using hlt))]
    · rw [hr h, List.length_cons]
      exact Nat.succ_lt_succ (List.length_pos_iff.mpr (hline.ne_nil hc))
  · obtain ⟨d, t, rfl⟩ : ∃ d u, t = d :: u := by
      cases t with
      | nil => exact absurd rfl hmark
      | cons d u => exact ⟨d, u, rfl⟩
    refine ⟨fun r h u _ ↦ ?_, fun r h hline ↦ ?_⟩
    · rw [hr h, hmore u (.inl (List.cons_ne_nil d t))]
    · rw [hr h, List.length_cons, List.length_cons]
      have := List.length_pos_iff.mpr (hline.tail.ne_nil hnewline)
      dsimp only
      omega

theorem settled_clauseFrom {level : Char → Nat → Nat}
    {stop? : Nat → Char → Char → Option (α × Nat)} (hstop : EndsWithSigns stop?) (s : Scanner)
    (l : Nat) (t : Text) : Settled (clauseFrom level stop? s l) t := by
  induction t generalizing s l with
  | nil => exact ⟨by simp [clauseFrom], by simp [clauseFrom]⟩
  | cons c t ih =>
    -- One character more is looked at, and that is there unless the text is over.
    have hstep : ∀ u, t ≠ [] ∨ u.head? = some '\n' →
        s.step c (ahead (t ++ u)) = s.step c (ahead t) := fun u hu ↦ s.step_ahead_append c hu
    cases hclass : (s.step c (ahead t)).2 with
    | comment =>
      refine (ih (s.step c (ahead t)).1 l).cons (g := passOver) (fun r ↦ rfl) ?_ fun u hu ↦ ?_
      · simp only [clauseFrom, hclass]
      · simp only [List.cons_append, clauseFrom, hstep u hu, hclass]
    | literal =>
      refine (ih (s.step c (ahead t)).1 l).cons (g := prependTo c) (fun r ↦ rfl) ?_ fun u hu ↦ ?_
      · simp only [clauseFrom, hclass]
      · simp only [List.cons_append, clauseFrom, hstep u hu, hclass]
    | code =>
      have hsign : ∀ u, t ≠ [] ∨ u.head? = some '\n' →
          stop? l c (ahead (t ++ u)) = stop? l c (ahead t) := fun u hu ↦
        apply_ahead_append (f := stop? l c) (hstop.newline l c) hu
      cases hs : stop? l c (ahead t) with
      | none =>
        refine (ih (s.step c (ahead t)).1 (level c l)).cons (g := prependTo c) (fun r ↦ rfl) ?_
          fun u hu ↦ ?_
        · simp only [clauseFrom, hclass, hs]
        · simp only [List.cons_append, clauseFrom, hstep u hu, hsign u hu, hclass, hs]
      | some r =>
        obtain ⟨a, k⟩ := r
        refine settled_of_signs (a := a) (hstop.signs hs) ?_ fun u hu ↦ ?_
        · simp only [clauseFrom, hclass, hs]
        · simp only [List.cons_append, clauseFrom, hstep u hu, hsign u hu, hclass, hs]

theorem isClosed_of_settled {β : Type} {find : Text → Option (Text × α × Nat)}
    {f : Text × α × Nat → β} (h : ∀ t, Settled find t) :
    IsClosed fun t ↦ (find t).map fun r ↦ (f r, r.2.2) := by
  refine ⟨fun t b n hb u hu ↦ ?_, fun t b n hb hline ↦ ?_⟩
  · obtain ⟨r, hr, heq⟩ := Option.map_eq_some_iff.mp hb
    cases heq
    exact congrArg (Option.map fun r ↦ (f r, r.2.2)) ((h t).append hr hu)
  · obtain ⟨r, hr, heq⟩ := Option.map_eq_some_iff.mp hb
    cases heq
    exact (h t).lt hr hline

end Clauses

def statementStop (l : Nat) (c _ : Char) : Option (Unit × Nat) :=
  if c = ';' ∧ l = 0 then some ((), 1) else none

theorem statementStop_eq_some {n : Char} {a : Unit} (h : statementStop l c n = some (a, k)) :
    c = ';' ∧ k = 1 := by
  grind [statementStop]

theorem statementFrom_eq (s : Scanner) (l : Nat) (t : Text) :
    statementFrom s l t = clauseFrom levelAfter statementStop s l t := by
  induction t generalizing s l with
  | nil => rfl
  | cons c t ih =>
    rw [statementFrom, clauseFrom]
    cases (s.step c (ahead t)).2 with
    | comment => simp only [ih]
    | literal => simp only [ih]
    | code =>
      simp only [statementStop]
      split
      · rfl
      · simp only [ih]

theorem isClosed_statementSpan : IsClosed statementSpan := by
  have hstop : EndsWithSigns statementStop := by
    refine ⟨fun l c n a k h ↦ ?_, fun l c ↦ rfl⟩
    obtain ⟨rfl, rfl⟩ := statementStop_eq_some h
    exact .inl ⟨rfl, by decide⟩
  refine isClosed_of_settled fun t ↦ ?_
  rw [funext (statementFrom_eq {} 0)]
  exact settled_clauseFrom hstop {} 0 t

def tailStop (l : Nat) (c n : Char) : Option (BodyStart × Nat) :=
  if l = 0 ∧ c = '\x7b' then some (.block, 1)
  else if l = 0 ∧ c = ';' then some (.statement, 1)
  else if l = 0 ∧ c = '=' ∧ n = '>' then some (.expression, 2)
  else none

theorem tailStop_eq_some {n : Char} {a : BodyStart} (h : tailStop l c n = some (a, k)) :
    a = .block ∧ c = '\x7b' ∧ k = 1 ∨
      a = .statement ∧ c = ';' ∧ k = 1 ∨ a = .expression ∧ c = '=' ∧ n = '>' ∧ k = 2 := by
  grind [tailStop]

theorem tailFrom_eq (s : Scanner) (l : Nat) (t : Text) :
    tailFrom s l t = clauseFrom roundLevelAfter tailStop s l t := by
  induction t generalizing s l with
  | nil => rfl
  | cons c t ih =>
    rw [tailFrom, clauseFrom]
    cases (s.step c (ahead t)).2 with
    | comment => simp only [ih]
    | literal => simp only [ih]
    | code =>
      simp only [tailStop]
      split
      · rfl
      split
      · rfl
      split
      · rfl
      · simp only [ih]

theorem isClosed_tailSpan : IsClosed tailSpan := by
  have hstop : EndsWithSigns tailStop := by
    refine ⟨fun l c n a k h ↦ ?_, fun l c ↦ by simp [tailStop, endMark]⟩
    obtain ⟨-, rfl, rfl⟩ | ⟨-, rfl, rfl⟩ | ⟨-, -, rfl, rfl⟩ := tailStop_eq_some h
    · exact .inl ⟨rfl, by decide⟩
    · exact .inl ⟨rfl, by decide⟩
    · exact .inr ⟨rfl, by decide, by decide⟩
  refine isClosed_of_settled fun t ↦ ?_
  rw [funext (tailFrom_eq {} 0)]
  exact settled_clauseFrom hstop {} 0 t

def headerStop (_ : Nat) (c _ : Char) : Option (Unit × Nat) :=
  if c = '\x7b' then some ((), 1) else none

theorem headerStop_eq_some {n : Char} {a : Unit} (h : headerStop l c n = some (a, k)) :
    c = '\x7b' ∧ k = 1 := by
  grind [headerStop]

theorem headerFrom_eq (s : Scanner) (t : Text) :
    headerFrom s t = clauseFrom (fun _ l ↦ l) headerStop s 0 t := by
  induction t generalizing s with
  | nil => rfl
  | cons c t ih =>
    rw [headerFrom, clauseFrom]
    cases (s.step c (ahead t)).2 with
    | comment => simp only [ih]
    | literal => simp only [ih]
    | code =>
      simp only [headerStop]
      split
      · rfl
      · simp only [ih]

theorem isClosed_headerSpan : IsClosed headerSpan := by
  have hstop : EndsWithSigns headerStop := by
    refine ⟨fun l c n a k h ↦ ?_, fun l c ↦ rfl⟩
    obtain ⟨rfl, rfl⟩ := headerStop_eq_some h
    exact .inl ⟨rfl, by decide⟩
  refine isClosed_of_settled fun t ↦ ?_
  rw [funext (headerFrom_eq {})]
  exact settled_clauseFrom hstop {} 0 t

/-! ## Block comments -/

theorem settled_blockComment (t : Text) :
    Settled (fun t ↦ (blockCommentSpan t).map fun r ↦ (r.1, (), r.2)) t := by
  induction t with
  | nil => exact ⟨by simp [blockCommentSpan], by simp [blockCommentSpan]⟩
  | cons c t ih =>
    have hnext : ∀ u, t ≠ [] ∨ u.head? = some '\n' → (ahead (t ++ u) = '/') = (ahead t = '/') :=
      fun u hu ↦ apply_ahead_append (f := (· = '/')) (by decide) hu
    by_cases hend : c = '*' ∧ ahead t = '/'
    · refine settled_of_signs (a := ()) (k := 2) (.inr ⟨rfl, ?_, ?_⟩) ?_ fun u hu ↦ ?_
      · rw [hend.2]
        decide
      · rw [hend.2]
        decide
      · simp only [blockCommentSpan, if_pos hend, Option.map_some]
      · simp only [List.cons_append, blockCommentSpan, hnext u hu, if_pos hend, Option.map_some]
    · refine ih.cons (g := prependTo c) (fun r ↦ rfl) ?_ fun u hu ↦ ?_
      · simp only [blockCommentSpan, if_neg hend, Option.map_map]
        rfl
      · simp only [List.cons_append, blockCommentSpan, hnext u hu, if_neg hend, Option.map_map]
        rfl

theorem blockCommentSpan_eq : blockCommentSpan = fun t ↦
    ((blockCommentSpan t).map fun r ↦ (r.1, (), r.2)).map fun r ↦ (r.1, r.2.2) := by
  funext t
  rw [Option.map_map]
  exact (Option.map_id' (x := blockCommentSpan t)).symm

theorem isClosed_blockCommentSpan : IsClosed blockCommentSpan := by
  rw [blockCommentSpan_eq]
  exact isClosed_of_settled settled_blockComment

/-! ## Words -/

theorem bracketed_append (h : bracketed opener closer t = some inside)
    (hlt : inside.length + 1 < t.length) (u : Text) :
    bracketed opener closer (t ++ u) = some inside :=
  bracketedFrom_append h (.inl hlt)

namespace Reading

variable {t cs : Text} {c : Char}

theorem isLocal_wordFrom (generics : Bool) (word : Text) : IsLocal (wordFrom generics word) := by
  intro t
  fun_induction wordFrom generics word t with
  | case1 word =>
    rintro a n ⟨⟩ hlt
    exact absurd hlt (Nat.lt_irrefl 0)
  | case2 word c hc cs ih =>
    intro a n h hlt u
    obtain ⟨⟨v, m⟩, hv, ⟨⟩⟩ := Option.map_eq_some_iff.mp h
    simp only [List.length_cons] at hlt
    rw [List.cons_append, List.cons_append, wordFrom.eq_def]
    simp only [if_pos hc, ih hv (by omega) u, Option.map_some]
  | case3 word c hc cs hcolon ih =>
    intro a n h hlt u
    obtain ⟨⟨v, m⟩, hv, ⟨⟩⟩ := Option.map_eq_some_iff.mp h
    simp only [List.length_cons] at hlt
    obtain ⟨d, cs, rfl⟩ := List.exists_cons_of_ne_nil (List.ne_nil_of_length_pos (by omega) :
      cs ≠ [])
    have hd : d ≠ ':' := fun hd ↦ hcolon cs (by rw [hd])
    rw [List.cons_append, wordFrom.eq_def]
    simp only [if_pos hc, List.cons_append]
    split
    · rename_i heq
      exact absurd (List.cons.inj heq).1 hd
    · rw [← List.cons_append, ih hv (by omega) u, Option.map_some]
  | case4 word c cs _ _ hnone => rintro a n ⟨⟩
  | case5 word c cs hc hangle inside hinside ih =>
    intro a n h hlt u
    obtain ⟨⟨v, m⟩, hv, ⟨⟩⟩ := Option.map_eq_some_iff.mp h
    simp only [List.length_cons] at hlt
    rw [List.cons_append, wordFrom.eq_def]
    simp only [if_neg hc, if_pos hangle, bracketed_append hinside (by omega) u]
    rw [List.drop_append_of_le_length (by omega), ih hv (by rw [List.length_drop]; omega) u,
      Option.map_some]
  | case6 word c cs hc hangle hends =>
    rintro a n ⟨⟩ _ u
    rw [List.cons_append, wordFrom.eq_def]
    simp only [if_neg hc, if_neg hangle, if_pos hends]
  | case7 word c cs hc hangle hends ih =>
    intro a n h hlt u
    obtain ⟨⟨v, m⟩, hv, ⟨⟩⟩ := Option.map_eq_some_iff.mp h
    simp only [List.length_cons] at hlt
    rw [List.cons_append, wordFrom.eq_def]
    simp only [if_neg hc, if_neg hangle, if_neg hends, ih hv (by omega) u, Option.map_some]

theorem length_blanks (h : t.dropWhile isBlank = c :: cs) :
    t.length = (t.takeWhile isBlank).length + (cs.length + 1) := by
  have hsplit := congrArg List.length (List.takeWhile_append_dropWhile (p := isBlank) (l := t))
  rw [List.length_append, h, List.length_cons] at hsplit
  exact hsplit.symm

theorem blanks_append {u : Text} (h : t.dropWhile isBlank = c :: cs) :
    (t ++ u).dropWhile isBlank = c :: (cs ++ u) ∧
      (t ++ u).takeWhile isBlank = t.takeWhile isBlank := by
  have hlength := length_blanks h
  constructor
  · rw [List.dropWhile_append, h]
    rfl
  · rw [List.takeWhile_append, if_neg (by omega)]

theorem typeMarks_question (h : t.dropWhile isBlank = '?' :: cs) :
    typeMarks t = (typeMarks cs).map fun r ↦
      ('?' :: r.1, r.2 + ((t.takeWhile isBlank).length + 1)) := by
  rw [typeMarks]
  split <;> simp_all

theorem typeMarks_rank {inside : Text} (h : t.dropWhile isBlank = '[' :: cs)
    (hinside : SharpOutline.bracketed '[' ']' cs = some inside) :
    typeMarks t = (typeMarks (cs.drop (inside.length + 1))).map fun r ↦
      ('[' :: Text.trim inside ++ ']' :: r.1,
        r.2 + ((t.takeWhile isBlank).length + (inside.length + 2))) := by
  rw [typeMarks]
  split <;> simp_all

theorem typeMarks_none (h : t.dropWhile isBlank = c :: cs) (hc : c ≠ '?')
    (hc' : c ≠ '[') : typeMarks t = some ([], (t.takeWhile isBlank).length) := by
  rw [typeMarks]
  split
  · rename_i heq
    exact absurd (List.cons.inj (h.symm.trans heq)).1 hc
  · rename_i heq
    exact absurd (List.cons.inj (h.symm.trans heq)).1 hc'
  · rfl

theorem isLocal_typeMarks : IsLocal typeMarks := by
  intro t
  fun_induction typeMarks t with
  | case1 t cs ht ih =>
    intro a n h hlt u
    obtain ⟨⟨v, m⟩, hv, ⟨⟩⟩ := Option.map_eq_some_iff.mp h
    have hlength := length_blanks ht
    obtain ⟨hdrop, htake⟩ := blanks_append (u := u) ht
    rw [typeMarks_question hdrop, ih hv (by omega), htake, Option.map_some]
  | case2 t cs ht hnone => rintro a n ⟨⟩
  | case3 t cs ht inside hinside ih =>
    intro a n h hlt u
    obtain ⟨⟨v, m⟩, hv, ⟨⟩⟩ := Option.map_eq_some_iff.mp h
    have hlength := length_blanks ht
    obtain ⟨hdrop, htake⟩ := blanks_append (u := u) ht
    rw [typeMarks_rank hdrop (bracketed_append hinside (by omega) u),
      List.drop_append_of_le_length (by omega), ih hv (by rw [List.length_drop]; omega), htake,
      Option.map_some]
  | case4 t hquestion hrank =>
    rintro a n ⟨⟩ hlt u
    cases hd : t.dropWhile isBlank with
    | nil =>
      have hsplit := congrArg List.length (List.takeWhile_append_dropWhile (p := isBlank) (l := t))
      rw [hd, List.append_nil] at hsplit
      omega
    | cons c cs =>
      obtain ⟨hdrop, htake⟩ := blanks_append (u := u) hd
      rw [typeMarks_none hdrop (fun hc ↦ hquestion cs (by rw [hd, hc]))
        (fun hc ↦ hrank cs (by rw [hd, hc])), htake]

end Reading

end SharpOutline
