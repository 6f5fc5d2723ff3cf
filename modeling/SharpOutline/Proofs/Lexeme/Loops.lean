import SharpOutline.Proofs.Lexeme.Closers

/-!
# Loops over the characters of a source

A loop repeats a pass until the pass says what the loop returns, or meets a fault. Nothing in this
form keeps a loop from going on for ever, so the outcome of a loop is a relation (`Iterates`): there
is one only if the passes come to an end. A computation `IsLoop` if its outcome is always the one of
the loop and every pass after which the loop goes on has come nearer to the end. To see that, one
pass has to be followed (`Follows`).

The readings that pass more than a fixed number of characters are given here as loops, each pass of
which looks at the next character and passes it, and so they end for every source. Passes that look
ahead see the end mark at the end of the source and where the source contains it; both times they
leave their loop. Passes that go on until there is no character left ask for that.
-/

namespace SharpOutline

/-! ## Loops that end -/

section Loops

variable {α β σ : Type} {pass : α → EStateM Fault σ (α ⊕ β)} {a : α} {s : σ}

/-- The loop comes to an outcome. A pass goes on with new values, or leaves the loop. -/
inductive Iterates (pass : α → EStateM Fault σ (α ⊕ β)) : α → σ → EStateM.Result Fault σ β → Prop
  | fault {a : α} {s s' : σ} {e : Fault} (h : pass a s = .error e s') :
    Iterates pass a s (.error e s')
  | left {a : α} {s s' : σ} {b : β} (h : pass a s = .ok (.inr b) s') : Iterates pass a s (.ok b s')
  | again {a a' : α} {s s' : σ} {r : EStateM.Result Fault σ β} (h : pass a s = .ok (.inl a') s')
    (hr : Iterates pass a' s' r) : Iterates pass a s r

variable {size : σ → Nat} {f : α → EStateM Fault σ β}

theorem Iterates.unique {r r' : EStateM.Result Fault σ β} (h : Iterates pass a s r)
    (h' : Iterates pass a s r') : r = r' := by
  induction h with
  | fault h => cases h' <;> simp_all
  | left h => cases h' <;> simp_all
  | again h _ ih =>
    cases h' with
    | fault h₂ => simp [h] at h₂
    | left h₂ => simp [h] at h₂
    | again h₂ hr =>
      obtain ⟨ha, rfl⟩ := EStateM.Result.ok.inj (h.symm.trans h₂)
      obtain rfl := Sum.inl.inj ha
      exact ih hr

/-- The computation is a loop that ends: after every pass with which the loop goes on there is less
left, and the loop comes to the outcome of the computation from every state. -/
structure IsLoop (size : σ → Nat) (pass : α → EStateM Fault σ (α ⊕ β)) (a : α)
    (x : EStateM Fault σ β) : Prop where
  nearer : ∀ ⦃a s a' s'⦄, pass a s = .ok (.inl a') s' → size s' < size s
  ends : ∀ s r, Iterates pass a s r ↔ r = x s

/-- One pass of a loop that computes `f`. -/
inductive Follows (size : σ → Nat) (pass : α → EStateM Fault σ (α ⊕ β)) (f : α → EStateM Fault σ β)
    (a : α) (s : σ) : Prop
  | fault {e : Fault} {s' : σ} (h : pass a s = .error e s') (hf : f a s = .error e s')
  | left {b : β} {s' : σ} (h : pass a s = .ok (.inr b) s') (hf : f a s = .ok b s')
  | again {a' : α} {s' : σ} (h : pass a s = .ok (.inl a') s') (hsize : size s' < size s)
    (hf : f a s = f a' s')

/-- What is left gets less with every pass, so the loop ends. -/
theorem iterates_of_follows (h : ∀ a s, Follows size pass f a s) (a : α) (s : σ) :
    Iterates pass a s (f a s) := by
  -- A pass may take several characters at once, such as two colons or a text in brackets.
  induction hn : size s using Nat.strong_induction_on generalizing a s with
  | _ n ih =>
    cases h a s with
    | fault hp hf => exact hf ▸ .fault hp
    | left hp hf => exact hf ▸ .left hp
    | again hp hsize hf => exact hf ▸ .again hp (ih _ (hn ▸ hsize) _ _ rfl)

theorem isLoop_of_follows (h : ∀ a s, Follows size pass f a s) (a : α) :
    IsLoop size pass a (f a) := by
  refine ⟨fun a s a' s' hp ↦ ?_, fun s r ↦ ⟨fun hr ↦ ?_, ?_⟩⟩
  · cases h a s with
    | fault hp' => simp [hp] at hp'
    | left hp' => simp [hp] at hp'
    | again hp' hsize =>
      cases hp.symm.trans hp'
      exact hsize
  · exact hr.unique (iterates_of_follows h a s)
  · rintro rfl
    exact iterates_of_follows h a s

end Loops

/-! ## Passing characters -/

namespace Cursor

variable {c : Cursor} {x : Char} {t : Text}

def remaining (c : Cursor) : Nat := c.rest.length

theorem remaining_skip_le (n : Nat) (c : Cursor) : (c.skip n).remaining ≤ c.remaining := by
  rw [remaining, rest_skip, List.length_drop]
  exact Nat.sub_le _ _

theorem rest_advance_of_cons (h : c.rest = x :: t) : c.advance.rest = t := by
  rw [rest_advance, h, List.drop_one, List.tail_cons]

theorem skip_of_rest_eq_nil (h : c.rest = []) (n : Nat) : c.skip n = c := by
  induction n with
  | zero => rfl
  | succ n ih =>
    have hstay : c.advance = c := by
      unfold advance
      rw [h]
    rw [skip_succ, hstay, ih]

/-- No more is passed than there is. -/
theorem skip_min (n : Nat) (c : Cursor) : c.skip (min n c.remaining) = c.skip n := by
  by_cases h : n ≤ c.remaining
  · rw [Nat.min_eq_left h]
  · have hrest : (c.skip c.remaining).rest = [] := by
      rw [rest_skip, remaining, List.drop_length]
    rw [Nat.min_eq_right (by omega), show n = c.remaining + (n - c.remaining) by omega, ← skip_skip,
      skip_of_rest_eq_nil hrest]

theorem toEnd_advance (h : c.rest = x :: t) : c.advance.toEnd = c.toEnd :=
  toEnd_skip (k := 1) (by simp [h])

end Cursor

namespace Reading

variable {α β : Type} {c : Cursor} {x : Char} {t : Text}

/-- Passes the next character, if there is one. -/
def next? : Reading (Option Char) := fun c ↦
  match c.rest with
  | [] => .ok none c
  | x :: _ => .ok (some x) c.advance

/-- A computation of a loop over characters. -/
abbrev IsLoop (pass : α → Reading (α ⊕ β)) (a : α) (x : Reading β) : Prop :=
  SharpOutline.IsLoop Cursor.remaining pass a x

variable {opener closer : Char} {inside : Text}

/-- What is found further on is found here as well, with what is passed before it. -/
theorem span_skip {find find' : Text → Option (β × Nat)} {expected : Text} {n : Nat}
    (hn : n ≤ c.rest.length)
    (h : find c.rest = (find' (c.rest.drop n)).map fun r ↦ (r.1, r.2 + n)) :
    span find expected c = span find' expected (c.skip n) := by
  unfold span
  rw [h, Cursor.rest_skip]
  cases find' (c.rest.drop n) with
  | none => simp only [Option.map_none, Cursor.toEnd_skip hn]
  | some r => simp only [Option.map_some, Cursor.skip_skip, Nat.add_comm]

section Passes

variable {pass : α → Reading (α ⊕ β)} {find : α → Text → Option (β × Nat)} {expected : Text}
  {a b : α} {r : β} {n : Nat}

theorem follows_again (hn : 0 < n) (hle : n ≤ c.rest.length)
    (hp : pass a c = .ok (.inl b) (c.skip n))
    (h : find a c.rest = (find b (c.rest.drop n)).map fun r ↦ (r.1, r.2 + n)) :
    Follows Cursor.remaining pass (fun a ↦ span (find a) expected) a c := by
  refine .again hp ?_ (span_skip hle h)
  rw [Cursor.remaining, Cursor.remaining, Cursor.rest_skip, List.length_drop]
  omega

theorem follows_left (hp : pass a c = .ok (.inr r) (c.skip n)) (h : find a c.rest = some (r, n)) :
    Follows Cursor.remaining pass (fun a ↦ span (find a) expected) a c := by
  refine .left hp ?_
  simp only [span, h]

theorem follows_fault (hp : pass a c = .error (.unexpectedEnd expected) c.toEnd)
    (h : find a c.rest = none) :
    Follows Cursor.remaining pass (fun a ↦ span (find a) expected) a c := by
  refine .fault hp ?_
  simp only [span, h]

theorem follows_next (hrest : c.rest = x :: t) (hp : pass a c = .ok (.inl b) c.advance)
    (h : find a (x :: t) = (find b t).map fun r ↦ (r.1, r.2 + 1)) :
    Follows Cursor.remaining pass (fun a ↦ span (find a) expected) a c := by
  refine follows_again Nat.one_pos (by simp [hrest]) hp ?_
  rwa [hrest, List.drop_one, List.tail_cons]

end Passes

/-! ## Texts with an end -/

/-- A pass over a character that has to be there, judged by itself and the one after it: the loop
goes on, or it is left after some more characters. -/
def scanPass (expected : Text) (judge : α → Char → Char → α ⊕ (β × Nat)) (a : α) :
    Reading (α ⊕ β) := do
  let some c ← next? | throw (.unexpectedEnd expected)
  let next ← peek
  match judge a c next with
  | .inl a' => return .inl a'
  | .inr (b, k) => do
    skip k
    return .inr b

/-- What is found, if the loop is left or goes on. -/
def found (find : α → Text → Option (β × Nat)) (t : Text) : α ⊕ (β × Nat) → Option (β × Nat)
  | .inl a => (find a t).map fun r ↦ (r.1, r.2 + 1)
  | .inr (b, k) => some (b, k + 1)

theorem isLoop_span (find : α → Text → Option (β × Nat))
    {judge : α → Char → Char → α ⊕ (β × Nat)} (expected : Text) (hnil : ∀ a, find a [] = none)
    (hcons : ∀ a x t, find a (x :: t) = found find t (judge a x (ahead t))) (a : α) :
    IsLoop (scanPass expected judge) a (span (find a) expected) := by
  refine isLoop_of_follows (f := fun a ↦ span (find a) expected) (fun a c ↦ ?_) a
  cases hrest : c.rest with
  | nil =>
    have hnext : next? c = .ok none c := by simp only [next?, hrest]
    refine follows_fault ?_ (hrest ▸ hnil a)
    simp only [scanPass, bind, EStateM.bind, hnext, Cursor.toEnd, hrest]
    rfl
  | cons x t =>
    have hnext : next? c = .ok (some x) c.advance := by simp only [next?, hrest]
    have hpeek : peek c.advance = .ok (ahead t) c.advance := by
      rw [← Cursor.rest_advance_of_cons hrest]
      rfl
    have hfound := hcons a x t
    cases hjudge : judge a x (ahead t) with
    | inl a' =>
      refine follows_next hrest ?_ (hjudge ▸ hfound)
      simp only [scanPass, bind, EStateM.bind, hnext, hpeek, hjudge]
      rfl
    | inr r =>
      refine follows_left (n := r.2 + 1) ?_ (by rw [hrest, hfound, hjudge]; rfl)
      simp only [scanPass, bind, EStateM.bind, hnext, hpeek, hjudge]
      rfl

/-- A character of a bracketed text, judged by the scanner, the depth and the text so far. -/
def judgeBracketed (opener closer : Char) (q : Scanner × Nat × Text) (c next : Char) :
    (Scanner × Nat × Text) ⊕ (Text × Nat) :=
  let r := q.1.step c next
  if r.2 = .code ∧ c = opener then .inl (r.1, q.2.1 + 1, q.2.2 ++ [c])
  else if r.2 = .code ∧ c = closer then
    if q.2.1 = 0 then .inr (q.2.2, 0) else .inl (r.1, q.2.1 - 1, q.2.2 ++ [c])
  else .inl (r.1, q.2.1, q.2.2 ++ [c])

theorem isLoop_bracketed (opener closer : Char) :
    IsLoop (scanPass [closer] (judgeBracketed opener closer)) ({}, 0, [])
      (bracketed opener closer) := by
  refine isLoop_span (fun q t ↦ (bracketedFrom opener closer q.1 q.2.1 t).map fun inside ↦
    (q.2.2 ++ inside, inside.length + 1)) [closer] (fun q ↦ rfl) (fun q x t ↦ ?_) ({}, 0, [])
  -- The loop adds a character behind the text so far; `bracketedFrom` adds it on the way back.
  have hpush (u : Option Text) : (u.map (x :: ·)).map (fun inside ↦
      (q.2.2 ++ inside, inside.length + 1)) = (u.map fun inside ↦
        (q.2.2 ++ [x] ++ inside, inside.length + 1)).map fun r ↦ (r.1, r.2 + 1) := by
    simp [Option.map_map, Function.comp_def]
  simp only [bracketedFrom, judgeBracketed]
  split
  · exact hpush _
  split
  · split
    · simp [found]
    · exact hpush _
  · exact hpush _

/-- A character of a clause, judged by the scanner, the level and the text so far. -/
def judgeClause (level : Char → Nat → Nat) (stop? : Nat → Char → Char → Option (α × Nat))
    (give : Text → α → β) (q : Scanner × Nat × Text) (c next : Char) :
    (Scanner × Nat × Text) ⊕ (β × Nat) :=
  let r := q.1.step c next
  match r.2 with
  | .comment => .inl (r.1, q.2.1, q.2.2)
  | .literal => .inl (r.1, q.2.1, q.2.2 ++ [c])
  | .code =>
    match stop? q.2.1 c next with
    | none => .inl (r.1, level c q.2.1, q.2.2 ++ [c])
    | some (a, k) => .inr (give q.2.2 a, k - 1)

theorem isLoop_clause (level : Char → Nat → Nat) {stop? : Nat → Char → Char → Option (α × Nat)}
    (hstop : ∀ ⦃l c n a k⦄, stop? l c n = some (a, k) → 0 < k) (give : Text → α → β)
    (expected : Text) :
    IsLoop (scanPass expected (judgeClause level stop? give)) ({}, 0, []) (span (fun t ↦
      (clauseFrom level stop? {} 0 t).map fun r ↦ (give r.1 r.2.1, r.2.2)) expected) := by
  refine isLoop_span (fun q t ↦ (clauseFrom level stop? q.1 q.2.1 t).map fun r ↦
    (give (q.2.2 ++ r.1) r.2.1, r.2.2)) expected (fun q ↦ rfl) (fun q x t ↦ ?_) ({}, 0, [])
  have hpush (u : Option (Text × α × Nat)) : (u.map (prependTo x)).map (fun r ↦
      (give (q.2.2 ++ r.1) r.2.1, r.2.2)) = (u.map fun r ↦
        (give (q.2.2 ++ [x] ++ r.1) r.2.1, r.2.2)).map fun r ↦ (r.1, r.2 + 1) := by
    simp [Option.map_map, Function.comp_def, prependTo]
  simp only [clauseFrom, judgeClause]
  cases (q.1.step x (ahead t)).2 with
  | comment => simp [found, Option.map_map, Function.comp_def, passOver]
  | literal => exact hpush _
  | code =>
    cases hk : stop? q.2.1 x (ahead t) with
    | none => exact hpush _
    | some r => simp [found, Nat.sub_add_cancel (hstop hk)]

theorem isLoop_statement :
    IsLoop (scanPass [';'] (judgeClause levelAfter statementStop fun t _ ↦ Text.trim t))
      ({}, 0, []) statement := by
  have hstop ⦃l c n a k⦄ (h : statementStop l c n = some (a, k)) : 0 < k := by grind [statementStop]
  have h := isLoop_clause levelAfter hstop (fun t _ ↦ Text.trim t) [';']
  rwa [← funext (statementFrom_eq {} 0)] at h

theorem isLoop_tail :
    IsLoop (scanPass ['\x7b'] (judgeClause roundLevelAfter tailStop fun t start ↦
      (Text.trim t, start))) ({}, 0, []) tail := by
  have hstop ⦃l c n a k⦄ (h : tailStop l c n = some (a, k)) : 0 < k := by grind [tailStop]
  have h := isLoop_clause roundLevelAfter hstop (fun t start ↦ (Text.trim t, start)) ['\x7b']
  rwa [← funext (tailFrom_eq {} 0)] at h

theorem isLoop_header :
    IsLoop (scanPass ['\x7b'] (judgeClause (fun _ l ↦ l) headerStop fun t _ ↦ Text.trim t))
      ({}, 0, []) header := by
  have hstop ⦃l c n a k⦄ (h : headerStop l c n = some (a, k)) : 0 < k := by grind [headerStop]
  have h := isLoop_clause (fun _ l ↦ l) hstop (fun t _ ↦ Text.trim t) ['\x7b']
  rwa [← funext (headerFrom_eq {})] at h

def judgeComment (text : Text) (c next : Char) : Text ⊕ (Text × Nat) :=
  if c = '*' ∧ next = '/' then .inr (text, 1) else .inl (text ++ [c])

theorem isLoop_blockComment : IsLoop (scanPass "*/".toList judgeComment) [] blockComment := by
  have h : IsLoop (scanPass "*/".toList judgeComment) [] _ := isLoop_span (fun text t ↦
    (blockCommentSpan t).map fun r ↦ (text ++ r.1, r.2)) _ (fun _ ↦ rfl) (fun text x t ↦ ?_) []
  · simp only [List.nil_append, Prod.eta, Option.map_id'] at h
    exact h
  · rw [blockCommentSpan, judgeComment]
    split
    · simp [found]
    · simp [found, Option.map_map, Function.comp_def]

/-! ## Blanks and lines -/

def whilePass (test : Char → Bool) (_ : Unit) : Reading (Unit ⊕ Unit) := fun c ↦
  if !c.atEnd && test c.peek then .ok (.inl ()) c.advance else .ok (.inr ()) c

theorem isLoop_skipWhile (test : Char → Bool) :
    IsLoop (whilePass test) () (modify fun c ↦ c.skipWhile test) := by
  refine isLoop_of_follows (f := fun _ ↦ span (fun t ↦ some ((), (t.takeWhile test).length)) [])
    (fun a c ↦ ?_) ()
  cases hrest : c.rest with
  | nil =>
    refine follows_left (r := ()) (n := 0) ?_ (by simp [hrest])
    simp [whilePass, Cursor.atEnd, hrest]
  | cons x t =>
    by_cases hx : test x
    · refine follows_next (b := ()) hrest ?_ (by simp [hx])
      simp [whilePass, Cursor.atEnd, hrest, Cursor.peek, hx]
    · refine follows_left (r := ()) (n := 0) ?_ (by simp [hrest, hx])
      simp [whilePass, Cursor.peek, hrest, hx]

def blankPass (text : Text) : Reading (Text ⊕ Text) := fun c ↦
  if isBlank c.peek then .ok (.inl (text ++ [c.peek])) c.advance else .ok (.inr text) c

/-- The next blanks, which are passed. -/
def blanks : Reading Text := do
  let c ← get
  skipBlanks
  return c.rest.takeWhile isBlank

/-- The end mark is no blank. -/
theorem isLoop_blanks : IsLoop blankPass [] blanks := by
  refine isLoop_of_follows (f := fun text ↦ span (fun t ↦
    some (text ++ t.takeWhile isBlank, (t.takeWhile isBlank).length)) []) (fun text c ↦ ?_) []
  cases hrest : c.rest with
  | nil =>
    refine follows_left (r := text) (n := 0) ?_ (by simp [hrest])
    rw [blankPass, Cursor.peek, hrest, ahead_nil, if_neg (by decide), Cursor.skip_zero]
  | cons x t =>
    by_cases hx : isBlank x
    · refine follows_next (b := text ++ [x]) hrest ?_ (by simp [hx])
      rw [blankPass, Cursor.peek, hrest, ahead_cons, if_pos hx]
    · refine follows_left (r := text) (n := 0) ?_ (by simp [hrest, hx])
      rw [blankPass, Cursor.peek, hrest, ahead_cons, if_neg hx, Cursor.skip_zero]

def linePass (text : Text) : Reading (Text ⊕ Text) := do
  match ← next? with
  | none => return .inr (Text.dropReturn text)
  | some c =>
    if c = '\n' then return .inr (Text.dropReturn text) else return .inl (text ++ [c])

theorem isLoop_line : IsLoop linePass [] line := by
  refine isLoop_of_follows (f := fun text ↦ span (fun t ↦
    some (Text.dropReturn (text ++ t.takeWhile (· != '\n')),
      (t.takeWhile (· != '\n')).length + 1)) []) (fun text c ↦ ?_) []
  cases hrest : c.rest with
  | nil =>
    have hnext : next? c = .ok none c := by simp only [next?, hrest]
    refine follows_left (r := Text.dropReturn text) (n := 1) ?_ (by simp [hrest])
    simp only [linePass, bind, EStateM.bind, hnext, Cursor.skip_of_rest_eq_nil hrest]
    rfl
  | cons x t =>
    have hnext : next? c = .ok (some x) c.advance := by simp only [next?, hrest]
    by_cases hx : x = '\n'
    · refine follows_left (r := Text.dropReturn text) (n := 1) ?_ (by simp [hrest, hx])
      simp only [linePass, bind, EStateM.bind, hnext, if_pos hx]
      rfl
    · refine follows_next (b := text ++ [x]) hrest ?_ (by simp [hx])
      simp only [linePass, bind, EStateM.bind, hnext, if_neg hx]
      rfl

/-! ## Words and names of types -/

/-- A pass over a character of a word, or over the type arguments in it. -/
def wordPass (generics : Bool) (word : Text) : Reading (Text ⊕ Text) := do
  let c ← peek
  if c = ':' ∧ word = "global".toList then do
    skip 1
    if (← peek) = ':' then do
      skip 1
      return .inl (word ++ [':', ':'])
    else return .inl (word ++ [':'])
  else if c = '<' ∧ generics ∧ word ≠ [] then do
    skip 1
    let inside ← bracketedTrimmed '<' '>'
    return .inl (word ++ '<' :: inside ++ ['>'])
  else if endsWord c then return .inr word
  else do
    skip 1
    return .inl (word ++ [c])

theorem bracketedTrimmed_eq_ok (h : SharpOutline.bracketed opener closer c.rest = some inside) :
    bracketedTrimmed opener closer c = .ok (Text.trim inside) (c.skip (inside.length + 1)) := by
  simp only [bracketedTrimmed, bind, EStateM.bind, bracketed_eq_ok h]
  rfl

theorem bracketedTrimmed_eq_error (h : SharpOutline.bracketed opener closer c.rest = none) :
    bracketedTrimmed opener closer c = .error (.unexpectedEnd [closer]) c.toEnd := by
  simp only [bracketedTrimmed, bind, EStateM.bind, bracketed_eq_error h]

theorem length_bracketed (h : SharpOutline.bracketed opener closer t = some inside) :
    inside.length + 1 ≤ t.length := by
  obtain ⟨rest, rfl⟩ := bracketed_eq_some h
  simp only [List.length_append, List.length_cons]
  omega

theorem peek_eq (c : Cursor) : peek c = .ok (ahead c.rest) c := rfl

theorem skip_eq (n : Nat) (c : Cursor) : skip n c = .ok () (c.skip n) := rfl

section Words

variable {generics : Bool} {word : Text}

theorem follows_colons (hrest : c.rest = x :: t) (hcolon : x = ':' ∧ word = "global".toList) :
    Follows Cursor.remaining (wordPass generics) (fun word ↦ span (wordFrom generics word) ['>'])
      word c := by
  have hadv := Cursor.rest_advance_of_cons hrest
  -- The equations of `wordFrom` would split on the characters behind this one too early.
  have hfrom := wordFrom.eq_def generics word (x :: t)
  simp only [if_pos hcolon] at hfrom
  split at hfrom
  · rename_i t
    refine follows_again (b := word ++ [':', ':']) (n := 2) Nat.two_pos (by simp [hrest]) ?_
      (by rw [hrest]; exact hfrom)
    simp only [wordPass, bind, EStateM.bind, peek_eq, skip_eq, hrest, ahead_cons, if_pos hcolon,
      Cursor.skip_one, hadv]
    rfl
  · rename_i hone
    have hne : ahead t ≠ ':' := by
      intro hahead
      cases t with
      | nil => exact absurd hahead (by decide)
      | cons y t => exact hone t (by rw [← hahead, ahead_cons])
    refine follows_next (b := word ++ [':']) hrest ?_ hfrom
    simp only [wordPass, bind, EStateM.bind, peek_eq, skip_eq, hrest, ahead_cons, if_pos hcolon,
      Cursor.skip_one, hadv, if_neg hne]
    rfl

theorem follows_arguments (hrest : c.rest = x :: t) (hcolon : ¬(x = ':' ∧ word = "global".toList))
    (hangle : x = '<' ∧ generics ∧ word ≠ []) :
    Follows Cursor.remaining (wordPass generics) (fun word ↦ span (wordFrom generics word) ['>'])
      word c := by
  have hadv := Cursor.rest_advance_of_cons hrest
  have hfrom := wordFrom.eq_def generics word (x :: t)
  simp only [if_neg hcolon, if_pos hangle] at hfrom
  cases hinside : SharpOutline.bracketed '<' '>' t with
  | none =>
    refine follows_fault ?_ (by rw [hrest, hfrom, hinside])
    simp only [wordPass, bind, EStateM.bind, peek_eq, skip_eq, hrest, ahead_cons, if_neg hcolon,
      if_pos hangle, Cursor.skip_one, bracketedTrimmed_eq_error (hadv.symm ▸ hinside)]
    rw [Cursor.toEnd_advance hrest]
  | some inside =>
    rw [hinside] at hfrom
    have hlength := length_bracketed hinside
    refine follows_again (b := word ++ '<' :: Text.trim inside ++ ['>'])
      (n := inside.length + 2) (by omega) (by rw [hrest, List.length_cons]; omega) ?_
      (by rw [hrest]; exact hfrom)
    simp only [wordPass, bind, EStateM.bind, peek_eq, skip_eq, hrest, ahead_cons, if_neg hcolon,
      if_pos hangle, Cursor.skip_one, bracketedTrimmed_eq_ok (hadv.symm ▸ hinside)]
    rfl

/-- The end mark ends a word, wherever it stands. -/
theorem isLoop_word (generics : Bool) :
    IsLoop (wordPass generics) [] (span (wordFrom generics []) ['>']) := by
  refine isLoop_of_follows (f := fun word ↦ span (wordFrom generics word) ['>'])
    (fun word c ↦ ?_) []
  cases hrest : c.rest with
  | nil =>
    refine follows_left (r := word) (n := 0) ?_ (by simp [hrest, wordFrom])
    simp only [wordPass, bind, EStateM.bind, peek_eq, hrest, ahead_nil]
    rfl
  | cons x t =>
    by_cases hcolon : x = ':' ∧ word = "global".toList
    · exact follows_colons hrest hcolon
    by_cases hangle : x = '<' ∧ generics ∧ word ≠ []
    · exact follows_arguments hrest hcolon hangle
    have hfrom := wordFrom.eq_def generics word (x :: t)
    simp only [if_neg hcolon, if_neg hangle] at hfrom
    by_cases hends : endsWord x
    · refine follows_left (r := word) (n := 0) ?_ (by rw [hrest, hfrom, if_pos hends])
      simp only [wordPass, bind, EStateM.bind, peek_eq, hrest, ahead_cons, if_neg hcolon,
        if_neg hangle, if_pos hends]
      rfl
    · refine follows_next (b := word ++ [x]) hrest ?_ (by rw [hfrom, if_neg hends])
      simp only [wordPass, bind, EStateM.bind, peek_eq, skip_eq, hrest, ahead_cons, if_neg hcolon,
        if_neg hangle, if_neg hends]
      rfl

end Words

def markPass (name : Text) : Reading (Text ⊕ Text) := do
  skipBlanks
  let c ← peek
  if c = '?' then do
    skip 1
    return .inl (name ++ ['?'])
  else if c = '[' then do
    skip 1
    let rank ← bracketedTrimmed '[' ']'
    return .inl (name ++ '[' :: rank ++ [']'])
  else return .inr name

def marked (name t : Text) : Option (Text × Nat) :=
  (typeMarks t).map fun r ↦ (name ++ r.1, r.2)

theorem typeName_eq : typeName = word true >>= fun name ↦ span (marked name) [']'] := by
  have hmarked (name : Text) : span (marked name) [']'] = span typeMarks [']'] >>= fun marks ↦
      pure (name ++ marks) := by
    funext c
    simp only [bind, EStateM.bind, span, marked]
    cases typeMarks c.rest with
    | none => rfl
    | some r => rfl
  simp only [hmarked]
  rfl

section Marks

variable {name : Text}

theorem rest_skipBlanks_skip (hblanks : c.rest.dropWhile isBlank = x :: t) :
    (c.skipBlanks.skip 1).rest = t := by
  rw [Cursor.rest_skip, Cursor.rest_skipBlanks, hblanks, List.drop_one, List.tail_cons]

theorem drop_blanks_add (n : Nat) (t : Text) :
    t.drop ((t.takeWhile isBlank).length + n) = (t.dropWhile isBlank).drop n := by
  rw [← List.drop_drop, drop_length_takeWhile]

theorem markPass_apply (name : Text) (c : Cursor) : markPass name c =
    (if ahead (c.rest.dropWhile isBlank) = '?' then do
      skip 1
      return .inl (name ++ ['?'])
    else if ahead (c.rest.dropWhile isBlank) = '[' then do
      skip 1
      let rank ← bracketedTrimmed '[' ']'
      return .inl (name ++ '[' :: rank ++ [']'])
    else return .inr name : Reading (Text ⊕ Text)) c.skipBlanks := by
  rw [← Cursor.rest_skipBlanks]
  rfl

theorem follows_mark (hblanks : c.rest.dropWhile isBlank = '?' :: t) :
    Follows Cursor.remaining markPass (fun name ↦ span (marked name) [']']) name c := by
  have hlength := length_blanks hblanks
  refine follows_again (b := name ++ ['?']) (n := (c.rest.takeWhile isBlank).length + 1)
    (by omega) (by omega) ?_ ?_
  · rw [markPass_apply, hblanks, ahead_cons, if_pos rfl, ← Cursor.skip_skip]
    rfl
  · rw [marked, typeMarks_question hblanks, drop_blanks_add, hblanks]
    simp [marked, Option.map_map, Function.comp_def]

theorem follows_rank (hblanks : c.rest.dropWhile isBlank = '[' :: t) :
    Follows Cursor.remaining markPass (fun name ↦ span (marked name) [']']) name c := by
  have hlength := length_blanks hblanks
  have hrest := rest_skipBlanks_skip hblanks
  cases hinside : SharpOutline.bracketed '[' ']' t with
  | none =>
    have hmarks : typeMarks c.rest = none := by
      rw [typeMarks]
      split <;> simp_all
    have hend : (c.skipBlanks.skip 1).toEnd = c.toEnd := by
      rw [Cursor.skipBlanks, Cursor.skipWhile, Cursor.skip_skip]
      exact Cursor.toEnd_skip (by omega)
    refine follows_fault ?_ (by rw [marked, hmarks, Option.map_none])
    rw [markPass_apply, hblanks, ahead_cons, if_neg (by decide), if_pos rfl, ← hend]
    simp only [bind, EStateM.bind, skip_eq, bracketedTrimmed_eq_error (hrest.symm ▸ hinside)]
  | some inside =>
    have hclosed := length_bracketed hinside
    refine follows_again (b := name ++ '[' :: Text.trim inside ++ [']'])
      (n := (c.rest.takeWhile isBlank).length + (inside.length + 2)) (by omega) (by omega) ?_ ?_
    · rw [markPass_apply, hblanks, ahead_cons, if_neg (by decide), if_pos rfl, ← Cursor.skip_skip]
      simp only [bind, EStateM.bind, skip_eq, bracketedTrimmed_eq_ok (hrest.symm ▸ hinside)]
      rfl
    · rw [marked, typeMarks_rank hblanks hinside, drop_blanks_add, hblanks]
      simp [marked, Option.map_map, Function.comp_def]

theorem isLoop_marked (name : Text) : IsLoop markPass name (span (marked name) [']']) := by
  refine isLoop_of_follows (f := fun name ↦ span (marked name) [']']) (fun name c ↦ ?_) name
  have hleft (hmarks : typeMarks c.rest = some ([], (c.rest.takeWhile isBlank).length))
      (hmark : ahead (c.rest.dropWhile isBlank) ≠ '?')
      (hrank : ahead (c.rest.dropWhile isBlank) ≠ '[') :
      Follows Cursor.remaining markPass (fun name ↦ span (marked name) [']']) name c := by
    refine follows_left (r := name) (n := (c.rest.takeWhile isBlank).length) ?_ ?_
    · rw [markPass_apply, if_neg hmark, if_neg hrank]
      rfl
    · rw [marked, hmarks, Option.map_some, List.append_nil]
  cases hblanks : c.rest.dropWhile isBlank with
  | nil =>
    rw [hblanks] at hleft
    refine hleft ?_ (by decide) (by decide)
    rw [typeMarks]
    split <;> simp_all
  | cons x t =>
    by_cases hmark : x = '?'
    · exact follows_mark (hmark ▸ hblanks)
    by_cases hrank : x = '['
    · exact follows_rank (hrank ▸ hblanks)
    · rw [hblanks] at hleft
      exact hleft (typeMarks_none hblanks hmark hrank) hmark hrank

end Marks

/-! ## All loops -/

/-- The readings that pass more than a fixed number of characters are loops that end, or are put
together from such loops. -/
structure LoopsEnd : Prop where
  skipBlanks : IsLoop (whilePass isBlank) () Reading.skipBlanks
  skipSpaces : IsLoop (whilePass fun c ↦ c == ' ' || c == '\t') () Reading.skipSpaces
  line : IsLoop linePass [] Reading.line
  blockComment : IsLoop (scanPass "*/".toList judgeComment) [] Reading.blockComment
  bracketed : ∀ opener closer, IsLoop (scanPass [closer] (judgeBracketed opener closer))
    ({}, 0, []) (Reading.bracketed opener closer)
  /-- The blanks before a text in brackets are read by a loop of their own. -/
  enclosed : ∃ blanks, IsLoop blankPass [] blanks ∧ ∀ opener closer,
    Reading.enclosed opener closer = do
      let skipped ← blanks
      expect opener
      let t ← Reading.bracketed opener closer
      return skipped ++ t
  statement : IsLoop (scanPass [';'] (judgeClause levelAfter statementStop fun t _ ↦ Text.trim t))
    ({}, 0, []) Reading.statement
  tail : IsLoop (scanPass ['\x7b'] (judgeClause roundLevelAfter tailStop fun t start ↦
    (Text.trim t, start))) ({}, 0, []) Reading.tail
  header : IsLoop (scanPass ['\x7b'] (judgeClause (fun _ l ↦ l) headerStop fun t _ ↦ Text.trim t))
    ({}, 0, []) Reading.header
  word : ∀ generics, ∃ letters, IsLoop (wordPass generics) [] letters ∧
    Reading.word generics = do
      Reading.skipBlanks
      letters
  typeName : ∃ marks : Text → Reading Text, (∀ name, IsLoop markPass name (marks name)) ∧
    Reading.typeName = Reading.word true >>= marks

theorem loopsEnd : LoopsEnd where
  skipBlanks := isLoop_skipWhile isBlank
  skipSpaces := isLoop_skipWhile _
  line := isLoop_line
  blockComment := isLoop_blockComment
  bracketed := isLoop_bracketed
  enclosed := ⟨blanks, isLoop_blanks, fun _ _ ↦ rfl⟩
  statement := isLoop_statement
  tail := isLoop_tail
  header := isLoop_header
  word generics := ⟨_, isLoop_word generics, rfl⟩
  typeName := ⟨_, isLoop_marked, typeName_eq⟩

end Reading

end SharpOutline
