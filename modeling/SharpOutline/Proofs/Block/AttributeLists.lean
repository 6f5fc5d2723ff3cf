import SharpOutline.Proofs.Block.Declarations
import SharpOutline.Proofs.Block.DeclaredNames

/-!
# Attribute lists as they are written

The attributes of one list are written in one pair of square brackets: the head with its target,
and then the attributes beneath it, each after a comma.

What follows the opening bracket is read back as the same list
(`Drafting.runs_attributeList_written`). A colon behind the first word says that the word is a
target, and `global` is the only word that would take the colon with it. Arguments are any text that
a closing parenthesis ends, and what is written behind the parenthesis does not change that
(`IsArguments.bracketed_append`).
-/

namespace SharpOutline

/-! ## Names and arguments -/

/-- One or more identifiers with dots between them. -/
inductive IsDottedName : Text → Prop
  | identifier {w : Text} (h : isIdentifier w = true) : IsDottedName w
  | dotted {w v : Text} (h : isIdentifier w = true) (hv : IsDottedName v) :
      IsDottedName (w ++ '.' :: v)

theorem IsDottedName.isWord {w : Text} (h : IsDottedName w) : IsWord w := by
  induction h with
  | identifier h => exact isWord_of_isIdentifier h
  | dotted h hv ih =>
    refine ⟨by simp, fun c hc ↦ ?_⟩
    rcases List.mem_append.mp hc with hc | hc
    · exact (isWord_of_isIdentifier h).2 c hc
    · rcases List.mem_cons.mp hc with rfl | hc
      · decide
      · exact ih.2 c hc

/-- A text is read up to the bracket that closes it, and trimmed. -/
theorem Reading.delimited_trimmed_eq_ok_iff {opener closer : Char} {cur cur' : Cursor} {p : Text} :
    delimited opener closer false true cur = .ok p cur' ↔
      ∃ u, SharpOutline.bracketed opener closer cur.rest = some u ∧ Text.trim u = p ∧
        cur' = cur.skip (u.length + 1) := by
  cases h : SharpOutline.bracketed opener closer cur.rest with
  | none => simp [delimited, bind, EStateM.bind, bracketed_eq_error h]
  | some u => simp [delimited, bind, EStateM.bind, bracketed_eq_ok h, pure, EStateM.pure, eq_comm]

/-- The text has no blanks at its ends, and in front of a closing parenthesis it is read up to
there. -/
def IsArguments (t : Text) : Prop :=
  Text.trim t = t ∧
    ∃ c, Reading.delimited '(' ')' false true (Cursor.start (t ++ [')'])) = .ok t c

section Arguments

variable {t rest : Text}

theorem isArguments_iff :
    IsArguments t ↔ Text.trim t = t ∧ bracketed '(' ')' (t ++ [')']) = some t := by
  refine and_congr_right fun htrim ↦ ⟨fun ⟨c, hc⟩ ↦ ?_, fun h ↦ ?_⟩
  · -- What stands before the first closing parenthesis is no longer than `t`, a part of it.
    obtain ⟨u, hb, hu, -⟩ := Reading.delimited_trimmed_eq_ok_iff.mp hc
    change bracketed '(' ')' (t ++ [')']) = some u at hb
    obtain ⟨a, z, hparts, -, -⟩ := Text.exists_eq_append_trim u
    obtain ⟨v, hv⟩ := bracketed_eq_some hb
    have hlength := congrArg List.length hv
    have hlength' := congrArg List.length hparts
    simp only [List.length_append, List.length_cons, List.length_nil, hu] at hlength hlength'
    rw [hb, (List.append_inj hv (by omega)).1]
  · exact ⟨_, Reading.delimited_trimmed_eq_ok_iff.mpr ⟨t, h, htrim, rfl⟩⟩

instance (t : Text) : Decidable (IsArguments t) := decidable_of_iff _ isArguments_iff.symm

/-- A character that no scanner heeds may follow the parenthesis. -/
theorem IsArguments.bracketed_append (h : IsArguments t) (hrest : isInert (ahead rest) = true) :
    bracketed '(' ')' (t ++ ')' :: rest) = some t := by
  have hself := (isArguments_iff.mp h).2
  obtain ⟨hbalanced, hcode⟩ := (bracketed_append_iff (by decide) (by decide)).mp hself
  refine (bracketed_append_iff (by decide) (by decide)).mpr ⟨hbalanced, ?_⟩
  rwa [Scanner.step_of_isInert hrest Scanner.isInert_endMark]

end Arguments

/-! ## Attributes -/

/-- Names and arguments of an attribute are as they should be. -/
structure ListedAttribute.IsRegular (a : ListedAttribute) : Prop where
  target : ∀ w ∈ a.data.target, isIdentifier w = true ∧ w ≠ "global".toList
  name : IsDottedName a.name
  arguments : ∀ t ∈ a.data.arguments, IsArguments t

theorem AttributeUse.written_eq (a : AttributeUse) (name : Text) :
    a.written name = name ++ a.written [] := by
  rw [written, written]
  cases a.arguments <;> simp

namespace Reading

variable {a : ListedAttribute} {c : Char} {t u rest : Text}

/-- What follows the name of a written attribute ends the name, and is neither blank nor a colon. -/
theorem exists_written_nil_append (a : AttributeUse) (hc : c = ',' ∨ c = ']') (rest : Text) :
    ∃ d v, a.written [] ++ c :: rest = d :: v ∧ endsWord d = true ∧ d ≠ ':' ∧ d ≠ '<' ∧
      isBlank d = false := by
  rw [AttributeUse.written]
  cases a.arguments with
  | none => exact ⟨c, rest, rfl, by rcases hc with rfl | rfl <;> decide⟩
  | some t => exact ⟨'(', _, rfl, by decide⟩

/-- The name of a written attribute is read behind blanks, and none follow it. -/
theorem yields_word_written (ha : a.IsRegular) (hu : u.all isBlank = true) (hc : c = ',' ∨ c = ']')
    (rest : Text) :
    (word true).Yields (u ++ (a.data.written a.name ++ c :: rest)) a.name
        (a.data.written [] ++ c :: rest) ∧
      skipBlanks.Yields (a.data.written [] ++ c :: rest) () (a.data.written [] ++ c :: rest) := by
  obtain ⟨d, v, heq, hends, hcolon, hangle, hblank⟩ :=
    exists_written_nil_append a.data hc rest
  rw [AttributeUse.written_eq a.data a.name, List.append_assoc, heq]
  refine ⟨yields_word hu ha.name.isWord hends hcolon hangle, ?_⟩
  have hskip := yields_skipBlanks (t := d :: v)
  rwa [List.dropWhile_cons_of_neg (by simp [hblank])] at hskip

def targetText (target : Option Text) : Text :=
  match target with
  | none => []
  | some w => w ++ ": ".toList

theorem yields_targetedName (ha : a.IsRegular) (hc : c = ',' ∨ c = ']') :
    targetedName.Yields (targetText a.data.target ++ (a.data.written a.name ++ c :: rest))
      (a.data.target, a.name) (a.data.written [] ++ c :: rest) := by
  cases htarget : a.data.target with
  | none =>
    obtain ⟨hword, hskip⟩ := yields_word_written (u := []) ha rfl hc rest
    refine hword.bind (hskip.bind (yields_peek.bind ?_))
    obtain ⟨d, v, heq, -, hcolon, -, -⟩ := exists_written_nil_append a.data hc rest
    rw [heq, ahead_cons, if_neg hcolon]
    exact .pure
  | some w =>
    obtain ⟨hw, hglobal⟩ := ha.target w htarget
    have hw := isWord_of_isIdentifier hw
    obtain ⟨hword, hskip⟩ := yields_word_written (u := [' ']) ha (by decide) hc rest
    have hfrom : wordFrom true [] (w ++ ':' :: ([' '] ++ (a.data.written a.name ++ c :: rest))) =
        some (w, w.length) :=
      wordFrom_append (v := []) hw.2 (by decide) (fun h ↦ hglobal h.2) (by decide)
    have hfirst := yields_word_of_wordFrom (u := []) rfl hw hfrom
    rw [List.nil_append, List.drop_left] at hfirst
    have heq : targetText (some w) ++ (a.data.written a.name ++ c :: rest) =
        w ++ ':' :: ([' '] ++ (a.data.written a.name ++ c :: rest)) := by
      simp [targetText]
    rw [heq]
    refine hfirst.bind (yields_skipBlanks.bind (yields_peek.bind ?_))
    rw [List.dropWhile_cons_of_neg (by decide), ahead_cons, if_pos rfl]
    exact (yields_skip 1).bind (hword.bind (hskip.bind .pure))

theorem yields_enclosed (h : IsArguments t) (hrest : isInert (ahead rest) = true) :
    (enclosed '(' ')').Yields ('(' :: (t ++ ')' :: rest)) t rest := by
  intro cur hcur
  have htake : cur.rest.takeWhile isBlank = [] := by
    rw [hcur, List.takeWhile_cons_of_neg (by decide)]
  have hopener : cur.rest.dropWhile isBlank = '(' :: (t ++ ')' :: rest) := by
    rw [hcur, List.dropWhile_cons_of_neg (by decide)]
  have hskip : (cur.skip 1).rest = t ++ ')' :: rest := by
    rw [Cursor.rest_skip, hcur, List.drop_one, List.tail_cons]
  refine ⟨(cur.skip 1).skip (t.length + 1), ?_, ?_⟩
  · rw [enclosed_of_opener hopener, htake]
    simp only [bind, EStateM.bind, List.length_nil, Nat.zero_add,
      bracketed_eq_ok (hskip ▸ h.bracketed_append hrest), List.nil_append]
    rfl
  · rw [Cursor.rest_skip, hskip, List.append_cons, List.drop_left' (by simp)]

/-- An attribute is read up to the comma or the bracket behind it. -/
theorem yields_attributeUse {isFirst : Bool} (ha : a.IsRegular) (hc : c = ',' ∨ c = ']')
    (hname : (cond isFirst targetedName plainName).Yields t (a.data.target, a.name)
      (a.data.written [] ++ c :: rest)) :
    (attributeUse isFirst).Yields t a (c :: rest) := by
  obtain ⟨name, target, arguments⟩ := a
  refine hname.bind ?_
  dsimp only
  rw [if_neg (by simpa using ha.name.isWord.1)]
  refine yields_peek.bind ?_
  cases arguments with
  | none =>
    rw [AttributeUse.written, List.nil_append, ahead_cons,
      if_neg (by rcases hc with rfl | rfl <;> decide)]
    exact .pure
  | some t =>
    have harguments : IsArguments t := ha.arguments t rfl
    have hinert : isInert (ahead (c :: rest)) = true := by
      rw [ahead_cons]
      rcases hc with rfl | rfl <;> decide
    have heq : AttributeUse.written ⟨target, some t⟩ [] ++ c :: rest =
        '(' :: (t ++ ')' :: c :: rest) := by
      simp [AttributeUse.written, harguments.1]
    rw [heq, ahead_cons, if_pos rfl]
    refine (yields_enclosed harguments hinert).bind ?_
    rw [harguments.1]
    exact .pure

theorem yields_attributeSeparator (isMore : Bool) (rest : Text) :
    attributeSeparator.Yields (cond isMore ',' ']' :: rest) isMore rest := by
  refine yields_skipBlanks.bind (yields_peek.bind ?_)
  cases isMore <;>
  · rw [cond, List.dropWhile_cons_of_neg (by decide), ahead_cons]
    exact (yields_skip 1).bind .pure

end Reading

/-! ## Lists -/

def ListedAttribute.outline (a : ListedAttribute) (children : List Outline) : Outline :=
  .node 0 a.name (.attributeUse a.data) [] [] children none

/-- The attribute that an outline shows. -/
def Outline.listed? : Outline → Option ListedAttribute
  | .node _ name (.attributeUse a) _ _ _ _ => some ⟨name, a⟩
  | _ => none

def chainText (chain : List ListedAttribute) : Text :=
  chain.flatMap fun a ↦ ", ".toList ++ a.data.written a.name

theorem chainedText_eq (os : List Outline) :
    chainedText os = chainText (os.filterMap Outline.listed?) := by
  induction os with
  | nil => rfl
  | cons o os ih =>
    cases o with
    | gap id => exact ih
    | node id name element headers applied children otherwise =>
      cases element with
      | attributeUse a => exact congrArg (", ".toList ++ a.written name ++ ·) ih
      | _ => exact ih

theorem length_le_length_chainText (chain : List ListedAttribute) :
    chain.length ≤ (chainText chain).length := by
  induction chain with
  | nil => exact Nat.le_refl 0
  | cons a chain ih =>
    rw [chainText, List.flatMap_cons, ← chainText]
    simp only [List.length_append, List.length_cons]
    have : 0 < ", ".toList.length := by decide
    omega

namespace Drafting

open SharpOutline.Tree Reading

variable {chain : List ListedAttribute} {t : Tree} {rest : Text} {block : Block} {n : Nat}

/-- What a further attribute of a list begins with, or the bracket that ends the list. -/
theorem exists_chainText_append (chain : List ListedAttribute) (rest : Text) :
    ∃ c v, chainText chain ++ ']' :: rest = c :: v ∧ (c = ',' ∨ c = ']') := by
  cases chain with
  | nil => exact ⟨']', rest, rfl, .inr rfl⟩
  | cons a chain => exact ⟨',', _, rfl, .inl rfl⟩

theorem runs_furtherAttributes (head : ElementId)
    (hchain : ∀ a ∈ chain, a.IsRegular ∧ a.data.target = none) (hn : chain.length < n)
    (hroots : t.roots = []) (hhead : head < t.size) (hparent : t.parent? head = none)
    (rest : Text) (block : Block) :
    ∃ u ids, Runs (furtherAttributes head n) ⟨chainText chain ++ ']' :: rest, t, block⟩ ()
        ⟨rest, u, block⟩ ∧
      Sprouts t u (some head) ids (chain.map fun a ↦ a.outline []) := by
  -- One attribute after the other is made and put beneath the head.
  induction chain generalizing t n with
  | nil =>
    obtain ⟨n, rfl⟩ := Nat.exists_eq_add_one.mpr hn
    exact ⟨t, [], (runs_read (yields_attributeSeparator false rest)).bind .pure, .nil hroots⟩
  | cons a chain ih =>
    obtain ⟨n, rfl⟩ := Nat.exists_eq_add_one.mpr (Nat.zero_lt_of_lt hn)
    obtain ⟨ha, htarget⟩ := hchain a (by simp)
    have hnew : Sprouts t (t.create a.name (.attributeUse a.data)) none [t.size] [a.outline []] :=
      .leaf hroots rfl 0
    obtain ⟨hadd, hleaf⟩ := hnew.adopt hhead hparent
    set t' := (t.create a.name (.attributeUse a.data)).adopted head .children [t.size]
    obtain ⟨u, ids, hruns, hsprouts⟩ := ih (fun b hb ↦ hchain b (by simp [hb]))
      (Nat.lt_of_succ_lt_succ hn) hleaf.roots (Nat.lt_of_lt_of_le hhead hleaf.size_le)
      (by rw [hleaf.parent?_old hhead, hparent])
    refine ⟨u, [t.size] ++ ids, ?_, hleaf.append hsprouts (by simpa using hhead)⟩
    have heq : chainText (a :: chain) ++ ']' :: rest =
        ',' :: ([' '] ++ (a.data.written a.name ++ (chainText chain ++ ']' :: rest))) := by
      simp [chainText]
    obtain ⟨c, v, hv, hc⟩ := exists_chainText_append chain rest
    rw [heq]
    have huse : (attributeUse false).Yields
        ([' '] ++ (a.data.written a.name ++ (chainText chain ++ ']' :: rest))) a
        (chainText chain ++ ']' :: rest) := by
      rw [hv]
      obtain ⟨hword, hskip⟩ := yields_word_written (u := [' ']) ha (by decide) hc v
      refine yields_attributeUse ha hc ?_
      rw [htarget]
      exact hword.bind (hskip.bind .pure)
    refine (runs_read (yields_attributeSeparator true _)).bind ((runs_read huse).bind
      ((runs_create _ _).bind ((runs_edit ?_).bind hruns)))
    simpa using hadd

/-- What stands between the brackets of a list. -/
def listText (head : ListedAttribute) (chain : List ListedAttribute) : Text :=
  targetText head.data.target ++ (head.data.written head.name ++ chainText chain)

theorem attributeText_eq (head : ListedAttribute) (children : List Outline) :
    attributeText head.data head.name children =
      '[' :: (listText head (children.filterMap Outline.listed?) ++ [']']) := by
  rw [attributeText, chainedText_eq, listText]
  cases head.data.target <;> simp [targetText]

theorem exists_runs_attributeList {head : ListedAttribute} (hhead : head.IsRegular)
    (hchain : ∀ a ∈ chain, a.IsRegular ∧ a.data.target = none) (rest : Text) (block : Block)
    (hroots : t.roots = []) :
    ∃ u, Runs attributeList ⟨listText head chain ++ ']' :: rest, t, block⟩
        (t.size, head.data.target) ⟨rest, u, block⟩ ∧
      Sprouts t u none [t.size] [head.outline (chain.map fun a ↦ a.outline [])] := by
  obtain ⟨c, v, hv, hc⟩ := exists_chainText_append chain rest
  have hfuel : chain.length < (chainText chain ++ ']' :: rest).length + 1 := by
    have := length_le_length_chainText chain
    rw [List.length_append]
    omega
  have hparent : (t.create head.name (.attributeUse head.data)).parent? t.size = none := by
    rw [parent?, get?_create, if_pos rfl]
    rfl
  obtain ⟨u, ids, hruns, hsprouts⟩ :=
    runs_furtherAttributes (t := t.create _ _) t.size hchain hfuel hroots (by simp) hparent rest
      block
  refine ⟨u, ?_, .beneath rfl (.inl rfl) hsprouts (.nil hsprouts.roots _) 0 rfl⟩
  have hfirst : (attributeUse true).Yields
      (targetText head.data.target ++ (head.data.written head.name ++
        (chainText chain ++ ']' :: rest))) head (chainText chain ++ ']' :: rest) := by
    rw [hv]
    exact yields_attributeUse hhead hc (yields_targetedName hhead hc)
  rw [listText, List.append_assoc, List.append_assoc]
  refine (runs_read hfirst).bind ((runs_create _ _).bind (.get_bind fun d hd ↦ ?_))
  have hlength : d.cursor.rest = chainText chain ++ ']' :: rest := congrArg Sketch.rest hd
  rw [hlength]
  exact hruns.bind .pure

/-- **A written list of attributes is read back.** Let an attribute be written with the attributes
beneath it. What follows the opening bracket is read up to the closing one and no further, whatever
comes behind it, and makes an attribute of the same name, target and arguments that stands nowhere
yet. Beneath it are the further attributes, in the same order and with the same names and
arguments. -/
theorem runs_attributeList_written {k : ElementId} {head : ListedAttribute}
    {headers applied children : List Outline} {next : Option Outline} (hhead : head.IsRegular)
    (hchain : ∀ a ∈ children.filterMap Outline.listed?, a.IsRegular ∧ a.data.target = none)
    (s : LayoutSettings) (depth : Nat) :
    ∃ text,
      (Outline.node k head.name (.attributeUse head.data) headers applied children next).lines s
          depth = [⟨depth, '[' :: (text ++ [']'])⟩] ∧
      ∀ (rest : Text) (t : Tree) (block : Block), t.roots = [] →
        ∃ u, Runs attributeList ⟨text ++ ']' :: rest, t, block⟩ (t.size, head.data.target)
            ⟨rest, u, block⟩ ∧
          Sprouts t u none [t.size] [head.outline
            ((children.filterMap Outline.listed?).map fun a ↦ a.outline [])] :=
  ⟨listText head (children.filterMap Outline.listed?),
    by rw [Outline.lines, attributeText_eq],
    fun rest _ block ↦ exists_runs_attributeList hhead hchain rest block⟩

/-- An attribute of a result, whose arguments have brackets and a comma in them. -/
def guarded : ListedAttribute :=
  ⟨"Checks.Guarded".toList, ⟨some "return".toList, some "\"a, ])\", At(1, 'b')".toList⟩⟩

theorem runs_attributeList_written_guarded :
    guarded.IsRegular ∧ ∃ u, Runs attributeList
      ⟨"return: Checks.Guarded(\"a, ])\", At(1, 'b')), Pure] int".toList, {}, {}⟩
      (0, some "return".toList) ⟨" int".toList, u, {}⟩ ∧
      Sprouts {} u none [0] [guarded.outline
        [ListedAttribute.outline ⟨"Pure".toList, ⟨none, none⟩⟩ []]] := by
  have hname : IsDottedName guarded.name :=
    .dotted (w := "Checks".toList) (v := "Guarded".toList) (by decide) (.identifier (by decide))
  have hguarded : guarded.IsRegular :=
    ⟨by rintro w ⟨⟩; decide, hname, by rintro w ⟨⟩; decide⟩
  have hpure : ListedAttribute.IsRegular ⟨"Pure".toList, ⟨none, none⟩⟩ :=
    ⟨by simp, .identifier (by decide), by simp⟩
  obtain ⟨text, hlines, hruns⟩ := @runs_attributeList_written 0 guarded [] []
    [ListedAttribute.outline ⟨"Pure".toList, ⟨none, none⟩⟩ []] none hguarded
    (List.forall_mem_singleton.mpr ⟨hpure, rfl⟩) {} 0
  have htext : text ++ [']'] =
      "return: Checks.Guarded(\"a, ])\", At(1, 'b')), Pure]".toList := by
    injection hlines with hline
    injection hline with _ hline
    exact (List.cons.inj hline).2.symm
  obtain ⟨u, hu⟩ := hruns " int".toList {} {} rfl
  rw [List.append_cons, htext] at hu
  exact ⟨hguarded, u, hu⟩

end Drafting

end SharpOutline
