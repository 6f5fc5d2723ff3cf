import SharpOutline.Proofs.Block.Placing
import SharpOutline.Proofs.Signature

/-!
# Reading plain declarations

What the machine makes of the words of a declaration. A word is looked at when it has ended:
keywords that state access or modifiers are only kept, and the keyword of a namespace, a using
directive or a type starts one.
-/

namespace SharpOutline

open Drafting SharpOutline.Tree Machine Reading

variable {m : RegionMarkers} {fs : List Frame} {t : Tree} {b : Block} {rest : Text}
  {ws : List Text} {w : Text} {c : Char}

/-! ## Words -/

/-- The last of the words starts no declaration. -/
structure StartsNothing (ws : List Text) (w : Text) : Prop where
  nameSpace : ¬(w = "namespace".toList ∧ ws = [])
  usingDirective : ¬(w = "using".toList ∧ ws = [])
  type : ¬(isTypeWord w = true ∧ ws.all isLeadingWord = true)

variable {generics : Bool} {v u name : Text}

theorem runs_wordEnd_of_text (htext : b.text = spaced ws ++ w)
    (hws : ∀ v ∈ ws, IsToken v) (hw : IsToken w) (h : StartsNothing ws w) :
    Runs wordEnd ⟨rest, t, b⟩ (.done .more) ⟨rest, t, b⟩ := by
  refine runs_block.bind ?_
  rw [htext, trim_spaced_append_token hws hw, phraseWords_spaced_append_token hws hw]
  simp only [List.getLast?_append_of_ne_nil _ (List.cons_ne_nil w []), List.getLast?_singleton,
    List.dropLast_concat]
  rw [if_neg h.nameSpace, if_neg h.usingDirective, if_neg h.type]
  exact .pure

theorem isTypeWord_iff : isTypeWord w = true ↔ ∃ k : TypeKind, w = k.keyword := by
  constructor
  · intro h
    obtain ⟨k, hk⟩ := Option.isSome_iff_exists.mp h
    exact ⟨k, (by simpa using List.find?_some hk : k.keyword = w).symm⟩
  · rintro ⟨k, rfl⟩
    rw [isTypeWord, TypeKind.ofKeyword?_keyword, Option.isSome_some]

theorem startsNothing_of_ne (hnameSpace : w ≠ "namespace".toList) (husing : w ≠ "using".toList)
    (htype : ∀ k : TypeKind, w ≠ k.keyword) : StartsNothing ws w where
  nameSpace h := hnameSpace h.1
  usingDirective h := husing h.1
  type h := by
    obtain ⟨k, hk⟩ := isTypeWord_iff.mp h.1
    exact htype k hk

theorem startsNothing_of_isLeadingWord (h : isLeadingWord w = true) : StartsNothing ws w := by
  refine startsNothing_of_ne ?_ ?_ fun k ↦ ?_ <;> rintro rfl
  · exact absurd h (by decide)
  · exact absurd h (by decide)
  · exact absurd h (by cases k <;> decide)

theorem startsNothing_of_isKeyword (h : isKeyword w = false) : StartsNothing ws w := by
  refine startsNothing_of_ne ?_ ?_ fun k ↦ ?_ <;> rintro rfl
  · exact absurd h (by decide)
  · exact absurd h (by decide)
  · exact absurd h (by cases k <;> decide)

theorem passes_spaced (b : Block) (vs : List Text) (hvs : ∀ v ∈ vs, IsToken v)
    (hws : ∀ w ∈ ws, IsWord w) (hstart : ∀ w ∈ ws, ∀ before, StartsNothing before w) :
    Passes m ⟨spaced ws ++ rest, t, { b with text := spaced vs }⟩
      ⟨rest, t, { b with text := spaced (vs ++ ws) }⟩ := by
  induction ws generalizing vs with
  | nil =>
    rw [List.append_nil]
    exact .refl
  | cons w ws ih =>
    have hw := hws w (by simp)
    have hword : Passes m ⟨w ++ ' ' :: (spaced ws ++ rest), t, { b with text := spaced vs }⟩
        ⟨' ' :: (spaced ws ++ rest), t, { b with text := spaced vs ++ w }⟩ :=
      passes_word hw (by rw [ahead_cons]; decide)
        (runs_wordEnd_of_text rfl hvs hw.isToken (hstart w (by simp) vs))
    have hspace : Passes m ⟨' ' :: (spaced ws ++ rest), t, { b with text := spaced vs ++ w }⟩
        ⟨spaced ws ++ rest, t, { b with text := spaced (vs ++ [w]) }⟩ := by
      rw [spaced_append, show spaced [w] = w ++ [' '] by simp, ← List.append_assoc]
      exact passes_blank (by decide) (by simp [hw.1]) (getLast?_spaced_append hw.isToken)
    have hvs' : ∀ v ∈ vs ++ [w], IsToken v := by
      simpa [or_imp, forall_and] using ⟨hvs, hw.isToken⟩
    rw [spaced_cons, List.append_assoc, List.cons_append, List.append_cons vs w ws]
    exact (hword.trans hspace).trans (ih _ hvs' (fun v hv ↦ hws v (by simp [hv]))
      fun v hv ↦ hstart v (by simp [hv]))

/-- The first words of a declaration are kept. -/
theorem passes_words (hb : b.text = []) (hws : ∀ w ∈ ws, IsWord w)
    (hstart : ∀ w ∈ ws, ∀ before, StartsNothing before w) :
    Passes m ⟨spaced ws ++ rest, t, b⟩ ⟨rest, t, { b with text := spaced ws }⟩ := by
  have hwords : Passes m ⟨spaced ws ++ rest, t, { b with text := spaced [] }⟩
      ⟨rest, t, { b with text := spaced ([] ++ ws) }⟩ := passes_spaced b [] (by simp) hws hstart
  rwa [show { b with text := spaced [] } = b by rw [spaced_nil, ← hb]] at hwords

/-! ## Words in the source -/

theorem wordFrom_letters (hw : ∀ c ∈ w, endsWord c = false) (v t : Text) :
    wordFrom generics v (w ++ t) =
      (wordFrom generics (v ++ w) t).map fun r ↦ (r.1, r.2 + w.length) := by
  induction w generalizing v with
  | nil => simp
  | cons d w ih =>
    have hd := hw d (by simp)
    rw [List.cons_append, wordFrom.eq_def]
    dsimp only
    rw [if_neg fun h ↦ ne_of_endsWord hd (by decide) h.1,
      if_neg fun h ↦ ne_of_endsWord hd (by decide) h.1, if_neg (by simp [hd]),
      ih fun x hx ↦ hw x (by simp [hx])]
    simp [Function.comp_def, Nat.add_assoc]

theorem wordFrom_append (hw : ∀ c ∈ w, endsWord c = false) (hc : endsWord c = true)
    (hcolon : ¬(c = ':' ∧ v ++ w = "global".toList)) (hangle : c ≠ '<') :
    wordFrom generics v (w ++ c :: rest) = some (v ++ w, w.length) := by
  have hend : wordFrom generics (v ++ w) (c :: rest) = some (v ++ w, 0) := by
    rw [wordFrom.eq_def]
    dsimp only
    rw [if_neg hcolon, if_neg fun h ↦ hangle h.1, if_pos hc]
  rw [wordFrom_letters hw, hend]
  simp

theorem yields_word_of_wordFrom {t : Text} {n : Nat} (hu : u.all isBlank = true) (hw : IsWord w)
    (hfrom : wordFrom generics [] (w ++ t) = some (v, n)) :
    (word generics).Yields (u ++ (w ++ t)) v ((w ++ t).drop n) := by
  have hdrop : (u ++ (w ++ t)).dropWhile isBlank = w ++ t := by
    obtain ⟨x, w', rfl⟩ := List.exists_cons_of_ne_nil hw.1
    rw [List.dropWhile_append_of_pos (List.all_eq_true.mp hu), List.cons_append,
      List.dropWhile_cons_of_neg (by simp [hw.isBlank_eq_false])]
  refine yields_skipBlanks.bind ?_
  rw [hdrop]
  exact yields_span ['>'] hfrom

theorem yields_word (hu : u.all isBlank = true) (hw : IsWord w) (hc : endsWord c = true)
    (hcolon : c ≠ ':') (hangle : c ≠ '<') :
    (word generics).Yields (u ++ (w ++ c :: rest)) w (c :: rest) := by
  have hfrom : wordFrom generics [] (w ++ c :: rest) = some ([] ++ w, w.length) :=
    wordFrom_append hw.2 hc (fun h ↦ hcolon h.1) hangle
  simpa using yields_word_of_wordFrom hu hw hfrom

/-- A name after a space is read up to the end of its line. -/
theorem yields_word_lineEnd (hw : IsWord w) (hc : EndsLine c) :
    (word generics).Yields ([' '] ++ (w ++ c :: rest)) w (c :: rest) :=
  yields_word (by decide) hw hc.endsWord (by rcases hc with rfl | rfl <;> decide)
    (by rcases hc with rfl | rfl <;> decide)

/-! ## Using directives -/

theorem yields_usingName (rest : Text) (isStatic : Bool) (hname : IsWord name)
    (hstatic : name ≠ "static".toList) (hc : endsWord c = true) (hcolon : c ≠ ':')
    (hangle : c ≠ '<') :
    usingName.Yields ((if isStatic then " static ".toList else [' ']) ++ (name ++ c :: rest))
      (isStatic, name) (c :: rest) := by
  have hword : (word true).Yields ([' '] ++ (name ++ c :: rest)) name (c :: rest) :=
    yields_word (by decide) hname hc hcolon hangle
  cases isStatic with
  | false =>
    refine hword.bind ?_
    rw [if_neg hstatic]
    exact .pure
  | true =>
    have hfirst : (word true).Yields
        ([' '] ++ ("static".toList ++ ' ' :: (name ++ c :: rest))) "static".toList
        (' ' :: (name ++ c :: rest)) :=
      yields_word (by decide) (by decide) (by decide) (by decide) (by decide)
    exact hfirst.bind (hword.bind .pure)

theorem yields_aliasClause?_none (name : Text) :
    (aliasClause? name).Yields (';' :: rest) none (';' :: rest) :=
  yields_skipBlanks.bind (yields_peek.bind .pure)

theorem yields_aliasClause?_some (rest name : Text) {target : Text} (htarget : IsWord target) :
    (aliasClause? name).Yields (" = ".toList ++ (target ++ ';' :: rest)) (some target)
      (';' :: rest) := by
  have hdrop : (' ' :: (target ++ ';' :: rest)).dropWhile isBlank = target ++ ';' :: rest := by
    obtain ⟨x, w, rfl⟩ := List.exists_cons_of_ne_nil htarget.1
    rw [List.dropWhile_cons_of_pos (by decide), List.cons_append,
      List.dropWhile_cons_of_neg (by simp [htarget.isBlank_eq_false])]
  have hparen : ahead (target ++ ';' :: rest) ≠ '(' := by
    obtain ⟨x, w, rfl⟩ := List.exists_cons_of_ne_nil htarget.1
    exact ne_of_endsWord (htarget.2 x (by simp)) (by decide)
  have hmarks : typeMarks (';' :: rest) = some ([], 0) := by
    rw [typeMarks.eq_def]
    rfl
  have htype : typeName.Yields (target ++ ';' :: rest) target (';' :: rest) := by
    refine (yields_word (u := []) (by simp) htarget (by decide) (by decide) (by decide)).bind ?_
    refine (yields_span [']'] hmarks).bind ?_
    rw [List.append_nil]
    exact .pure
  have htargetRead : aliasTarget.Yields (' ' :: (target ++ ';' :: rest)) target (';' :: rest) := by
    refine yields_skipBlanks.bind ?_
    rw [hdrop]
    refine yields_peek.bind ?_
    rw [if_neg hparen]
    exact htype
  refine yields_skipBlanks.bind (yields_peek.bind ?_)
  refine (yields_skip 1).bind (htargetRead.bind ?_)
  rw [if_neg (by simp [htarget.1])]
  exact .pure

/-- What follows the keyword of a using directive. -/
theorem runs_usingDirective {u : UsingDirective} {afterName : Text} {x : Sketch}
    (hname : IsWord name) (hread : usingName.Yields rest (u.isStatic, name) afterName)
    (halias : (aliasClause? name).Yields afterName u.aliasOf (';' :: w)) (hu : u.isMovable = true)
    (hemit : Runs (emitMember t.size) ⟨w, t.create name (.usingDirective u), b⟩ (.produced 1) x) :
    Runs usingDirective ⟨rest, t, b⟩ (.produced 1) x := by
  obtain ⟨target, isStatic, isMovable⟩ := u
  obtain rfl : isMovable = true := hu
  refine (runs_read hread).bind ?_
  dsimp only
  rw [if_neg (by simp [hname.1])]
  refine (runs_read halias).bind ((runs_read (yields_expect rfl)).bind ?_)
  exact (runs_create name (.usingDirective ⟨target, isStatic, true⟩)).bind hemit

theorem declares_using {u : UsingDirective} (rest : Text) (hname : isDotted name = true)
    (hkeyword : isKeyword name = false) (hu : u.isMovable = true)
    (halias : ∀ target ∈ u.aliasOf, u.isStatic = false ∧ isDotted target = true) (hc : EndsLine c) :
    Declares m (u.written name ++ c :: rest) (c :: rest) name (.usingDirective u) := by
  intro t v b b' y fs hb hheader hemit
  have hword := isWord_of_isDotted hname
  have hstatic : name ≠ "static".toList := by
    rintro rfl
    exact absurd hkeyword (by decide)
  have hemit := runs_emitMember (yields_trailingComment? hc) hheader hemit
  have hsplit : ∃ r, u.written name ++ c :: rest = "using".toList ++ ' ' :: r ∧
      Runs usingDirective ⟨' ' :: r, t, b⟩ (.produced 1) y := by
    cases ha : u.aliasOf with
    | none =>
      have hread := yields_usingName (c := ';') (c :: rest) u.isStatic hword hstatic (by decide)
        (by decide) (by decide)
      have hdirective :=
        runs_usingDirective hword hread (ha ▸ yields_aliasClause?_none name) hu hemit
      cases hs : u.isStatic with
      | false =>
        refine ⟨name ++ ';' :: c :: rest, ?_, by simpa [hs] using hdirective⟩
        simp [UsingDirective.written, ha, hs]
      | true =>
        refine ⟨"static ".toList ++ (name ++ ';' :: c :: rest), ?_, by simpa [hs] using hdirective⟩
        simp [UsingDirective.written, ha, hs]
    | some target =>
      obtain ⟨hs, htarget⟩ := halias target ha
      have hread := yields_usingName (c := ' ') ("= ".toList ++ (target ++ ';' :: c :: rest))
        u.isStatic hword hstatic (by decide) (by decide) (by decide)
      have hclause := yields_aliasClause?_some (c :: rest) name (isWord_of_isDotted htarget)
      have hdirective := runs_usingDirective hword hread (ha ▸ hclause) hu hemit
      refine ⟨name ++ " = ".toList ++ (target ++ ';' :: c :: rest), ?_, ?_⟩
      · simp [UsingDirective.written, ha]
      · simpa [hs] using hdirective
  obtain ⟨r, hr, hdirective⟩ := hsplit
  obtain ⟨_, comments, attributes, scopes, elements⟩ := b
  obtain rfl : _ = [] := hb
  have hend : Runs wordEnd ⟨' ' :: r, t,
      { text := "using".toList, comments, attributes, scopes, elements }⟩ (.done (.produced 1)) y :=
    runs_block.bind ((runs_modifyBlock _).bind (hdirective.bind .pure))
  rw [hr]
  exact leads_word (by decide) (by rw [ahead_cons]; decide) hend (by simp)

/-! ## Namespaces -/

theorem dropWhile_isBlank_append (hu : ∀ c ∈ u, isBlank c = true) :
    (u ++ '\x7b' :: rest).dropWhile isBlank = '\x7b' :: rest := by
  rw [List.dropWhile_append_of_pos hu]
  rfl

/-- The line that names a namespace, and its opening brace on the next line. -/
theorem leads_namespace (hb : b.text = []) (hname : isDotted name = true) (hc : EndsLine c)
    (hu : ∀ d ∈ u, isBlank d = true) :
    Leads m ⟨"namespace ".toList ++ name ++ (c :: u ++ '\x7b' :: rest), t, b⟩ fs
      ⟨rest, t.create name (.nameSpace false), {}⟩ (⟨t.size, .namespaceBrace, b⟩ :: fs) := by
  have hword := isWord_of_isDotted hname
  have hblanks : ∀ d ∈ c :: u, isBlank d = true := by simpa using ⟨hc.isBlank, hu⟩
  obtain ⟨_, comments, attributes, scopes, elements⟩ := b
  obtain rfl : _ = [] := hb
  have hopen : Runs openNamespace ⟨' ' :: (name ++ (c :: (u ++ '\x7b' :: rest))), t,
      { comments, attributes, scopes, elements }⟩ (.opened t.size .namespaceBrace)
      ⟨rest, t.create name (.nameSpace false), { comments, attributes, scopes, elements }⟩ := by
    refine (runs_read (yields_word_lineEnd hword hc)).bind ?_
    rw [if_neg (by simp [hword.1])]
    refine (runs_read yields_skipBlanks).bind ?_
    rw [← List.cons_append, dropWhile_isBlank_append hblanks]
    refine (runs_read yields_peek).bind ?_
    refine (runs_read (yields_skip 1)).bind ?_
    exact (runs_create name (.nameSpace false)).bind .pure
  have hend : Runs wordEnd ⟨' ' :: (name ++ (c :: (u ++ '\x7b' :: rest))), t,
      { text := "namespace".toList, comments, attributes, scopes, elements }⟩
      (.opened t.size .namespaceBrace)
      ⟨rest, t.create name (.nameSpace false), { comments, attributes, scopes, elements }⟩ :=
    runs_block.bind ((runs_modifyBlock _).bind hopen)
  have hleads : Leads m ⟨"namespace".toList ++ ' ' :: (name ++ (c :: (u ++ '\x7b' :: rest))), t,
      { comments, attributes, scopes, elements }⟩ fs
      ⟨rest, t.create name (.nameSpace false), {}⟩
      (⟨t.size, .namespaceBrace, { comments, attributes, scopes, elements }⟩ :: fs) :=
    leads_word_opened (by decide) (by rw [ahead_cons]; decide) hend
  simpa using hleads

/-! ## Types -/

open Scanner in
theorem headerFrom_of_isCalm (hu : ∀ d ∈ u, isCalm d = true) (l b : Char) :
    headerFrom (ready [] l b) (u ++ '\x7b' :: rest) = some (u, (), u.length + 1) := by
  induction u generalizing l b with
  | nil => rfl
  | cons d u ih =>
    have hd := hu d (by simp)
    have hopen : d ≠ '\x7b' := by
      rintro rfl
      exact absurd hd (by decide)
    rw [List.cons_append, headerFrom, step_of_isCalm hd]
    dsimp only
    rw [if_neg hopen, ih fun x hx ↦ hu x (by simp [hx])]
    rfl

theorem yields_header_of_isCalm (hu : ∀ d ∈ u, isCalm d = true) :
    header.Yields (u ++ '\x7b' :: rest) (Text.trim u) rest := by
  have hfrom : headerFrom {} (u ++ '\x7b' :: rest) = some (u, (), u.length + 1) :=
    headerFrom_of_isCalm hu endMark endMark
  have hspan : headerSpan (u ++ '\x7b' :: rest) = some (Text.trim u, u.length + 1) := by
    rw [headerSpan, hfrom, Option.map_some]
  have hyields := yields_span ['\x7b'] hspan
  rwa [show (u ++ '\x7b' :: rest).drop (u.length + 1) = rest by simp] at hyields

theorem genericName_of_isWord (hw : IsWord w) : genericName w = (w, []) := by
  have hdrop : w.dropWhile (· != '<') = [] :=
    List.dropWhile_eq_nil_iff.mpr fun d hd ↦ bne_iff_ne.mpr (ne_of_endsWord (hw.2 d hd) (by decide))
  rw [genericName, Text.splitOnce, hdrop]

/-- The keyword of a type behind the words that state access and modifiers is looked at. -/
theorem runs_wordEnd_type {k : TypeKind} {a : Access} {s : Modifiers} {text : Text}
    {signal : Signal} {y : Sketch} (hb : b.text = [])
    (hopen : Runs (openType (leadingWords a s ++ [k.keyword])) ⟨' ' :: text, t, b⟩ signal y) :
    Runs wordEnd ⟨' ' :: text, t, { b with text := spaced (leadingWords a s) ++ k.keyword }⟩ signal
      y := by
  have hkeyword : IsWord k.keyword := by cases k <;> decide
  have hnameSpace : k.keyword ≠ "namespace".toList := by cases k <;> decide
  have husing : k.keyword ≠ "using".toList := by cases k <;> decide
  obtain ⟨_, comments, attributes, scopes, elements⟩ := b
  obtain rfl : _ = [] := hb
  refine runs_block.bind ?_
  rw [trim_spaced_append isWord_of_mem_leadingWords hkeyword,
    phraseWords_spaced_append isWord_of_mem_leadingWords hkeyword]
  simp only [List.getLast?_append_of_ne_nil _ (List.cons_ne_nil k.keyword []),
    List.getLast?_singleton, List.dropLast_concat]
  rw [if_neg fun h ↦ hnameSpace h.1, if_neg fun h ↦ husing h.1,
    if_pos ⟨isTypeWord_iff.mpr ⟨k, rfl⟩,
      List.all_eq_true.mpr isLeadingWord_of_mem_leadingWords⟩]
  exact (runs_modifyBlock _).bind hopen

theorem passes_leadingWords (hb : b.text = []) (a : Access) (k : Modifiers) :
    Passes m ⟨spaced (leadingWords a k) ++ rest, t, b⟩
      ⟨rest, t, { b with text := spaced (leadingWords a k) }⟩ :=
  passes_words hb isWord_of_mem_leadingWords fun w hw _ ↦
    startsNothing_of_isLeadingWord (isLeadingWord_of_mem_leadingWords w hw)

end SharpOutline
