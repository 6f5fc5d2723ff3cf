import SharpOutline.Proofs.Lexeme.InitialValues
import SharpOutline.Proofs.Signature

/-!
# Names that are declared together

Keywords that state access, modifiers and flags may stand in any order in front of a type, but no
access keyword may be repeated (`Signature.ofKeywords_eq_ok_iff`). A row of names with commas
between them follows. If one of them has an initial value, the row ends there as far as the
signature is concerned, and the names behind it are read as parts of the list of initial values;
so the two halves are cut by different functions, and each gives back the names as they were written
(`declaredNames_row`, `initializedNames_written`).
-/

namespace SharpOutline

/-! ## Identifiers -/

/-- Letters, digits and underscores, perhaps behind an at sign. -/
def isIdentifier (w : Text) : Bool :=
  let run := if w.head? = some '@' then w.tail else w
  !run.isEmpty && run.all fun c ↦ isAlphanumeric c || c == '_'

section Identifiers

variable {w : Text} {c : Char}

theorem exists_run_of_isIdentifier (h : isIdentifier w = true) :
    ∃ run, (w = run ∨ w = '@' :: run) ∧ run ≠ [] ∧
      ∀ c ∈ run, (isAlphanumeric c || c == '_') = true := by
  simp only [isIdentifier, Bool.and_eq_true, Bool.not_eq_true', List.isEmpty_eq_false_iff,
    List.all_eq_true] at h
  refine ⟨_, ?_, h⟩
  split
  · rename_i hhead
    exact .inr (List.cons_head?_tail hhead).symm
  · exact .inl rfl

theorem isIdentifierCharacter_of_mem (h : isIdentifier w = true) (hc : c ∈ w) :
    isIdentifierCharacter c = true := by
  obtain ⟨run, hw, -, hrun⟩ := exists_run_of_isIdentifier h
  have hmem : c = '@' ∨ c ∈ run := by
    rcases hw with rfl | rfl
    · exact .inr hc
    · exact List.mem_cons.mp hc
  rcases hmem with rfl | hc
  · simp [isIdentifierCharacter]
  · simp [isIdentifierCharacter, hrun c hc]

theorem isMild_of_isIdentifierCharacter (h : isIdentifierCharacter c = true) :
    isMild c = true ∧ endsWord c = false := by
  have hsymbol : isSymbol c = false := by
    rw [isSymbol, List.contains_eq_mem, decide_eq_false_iff_not]
    intro hc
    have hsymbols : symbols.all (fun d ↦ !isIdentifierCharacter d) = true := by decide +kernel
    have := List.all_eq_true.mp hsymbols c hc
    simp [h] at this
  have hne {d : Char} (hd : isIdentifierCharacter d = false) : c ≠ d := by
    rintro rfl
    simp [h] at hd
  have hblank : isBlank c = false := by
    by_contra hblank
    exact hne (Text.isIdentifierCharacter_of_isBlank (Bool.of_not_eq_false hblank)) rfl
  simp [isMild, endsWord, hsymbol, hblank, hne (d := '"') (by decide +kernel),
    hne (d := '\'') (by decide +kernel), hne (d := endMark) (by decide +kernel)]

theorem isWord_of_isIdentifier (h : isIdentifier w = true) : IsWord w := by
  refine ⟨?_, fun c hc ↦ (isMild_of_isIdentifierCharacter (isIdentifierCharacter_of_mem h hc)).2⟩
  rintro rfl
  simp [isIdentifier] at h

theorem isMild_of_isIdentifier (h : isIdentifier w = true) (hc : c ∈ w) : isMild c = true :=
  (isMild_of_isIdentifierCharacter (isIdentifierCharacter_of_mem h hc)).1

theorem gluedOperator?_of_isIdentifier (h : isIdentifier w = true) :
    Signature.gluedOperator? w = none := by
  obtain ⟨run, rfl | rfl, -, hrun⟩ := exists_run_of_isIdentifier h
  · exact Signature.gluedOperator?_eq_none hrun
  · rfl

theorem not_mem_of_isIdentifier (h : isIdentifier w = true) (hc : endsWord c = true) : c ∉ w := by
  intro hmem
  rw [(isWord_of_isIdentifier h).2 c hmem] at hc
  cases hc

end Identifiers

/-! ## Keywords -/

namespace Signature

variable {s : Signature} {w : Text} {ws vs : List Text}

theorem ofKeyword?_of_isLeadingWord (h : isLeadingWord w = true) :
    SignatureKind.ofKeyword? w = none :=
  forall_isLeadingWord (p := fun w ↦ SignatureKind.ofKeyword? w = none) h (by decide)
    (fun k ↦ by cases k <;> decide) (by decide)

/-- Keywords of access, modifiers and flags may follow whatever was said before. -/
theorem gathers_foldl_withKeyword (hs : s.Gathers vs) (hws : ∀ w ∈ ws, isLeadingWord w = true) :
    (ws.foldl withKeyword s).Gathers (vs ++ ws) := by
  induction ws generalizing s vs with
  | nil => rwa [List.append_nil]
  | cons w ws ih =>
    rw [List.append_cons]
    have hadmits : s.Admits w := .inr (ofKeyword?_of_isLeadingWord (hws w List.mem_cons_self))
    exact ih (gathers_withKeyword hs hadmits) fun v hv ↦ hws v (List.mem_cons_of_mem w hv)

section Leading

variable (hws : ∀ w ∈ ws, isLeadingWord w = true)

include hws

/-- Keywords alone make up a signature exactly if those that state access are not repeated and do
not contradict each other. -/
theorem ofKeywords_eq_ok_iff :
    ofKeywords ws = .ok s ↔ (ws.filter isAccessWord).Nodup ∧
      ∃ a, Access.resolve? (ws.filter isAccessWord) = some a ∧
        s = { ws.foldl withKeyword {} with access := a } := by
  have hgathers : (ws.foldl withKeyword {}).Gathers ws := gathers_foldl_withKeyword gathers_nil hws
  rw [ofKeywords_eq_ok_iff_isStatedBy fun w hw ↦ isDeclarationWord_of_isLeadingWord (hws w hw),
    Access.resolve?_filter]
  constructor
  · exact fun h ↦ ⟨h.distinct, s.access, h.access, hgathers.unique h.toGathers⟩
  · rintro ⟨hdistinct, a, ha, rfl⟩
    exact ⟨hgathers.withAccess a, hdistinct, ha⟩

theorem strip_of_ofKeywords {rest : List Text} (h : ofKeywords ws = .ok s)
    (hw : isDeclarationWord w = false) : strip (ws ++ w :: rest) = .ok (s, w :: rest) := by
  have hdeclaration : ∀ w ∈ ws, isDeclarationWord w = true := fun w hw ↦
    isDeclarationWord_of_isLeadingWord (hws w hw)
  refine (strip_eq_ok_iff hdeclaration (by simpa using hw)).mpr ⟨?_, rfl⟩
  exact (ofKeywords_eq_ok_iff_isStatedBy hdeclaration).mp h

theorem kind_of_ofKeywords (h : ofKeywords ws = .ok s) : s.kind = .member := by
  have hstated := (ofKeywords_eq_ok_iff_isStatedBy fun w hw ↦
    isDeclarationWord_of_isLeadingWord (hws w hw)).mp h
  refine SignatureKind.declared_injective (hstated.kind.symm.trans ?_)
  exact List.filterMap_eq_nil_iff.mpr fun w hw ↦ ofKeyword?_of_isLeadingWord (hws w hw)

end Leading

theorem modifiers_foldl_withKeyword (s : Signature) (ws : List Text) :
    (ws.foldl withKeyword s).modifiers =
      (ws.filterMap Modifier.ofKeyword?).foldl Modifiers.insert s.modifiers := by
  induction ws generalizing s with
  | nil => rfl
  | cons w ws ih =>
    rw [List.foldl_cons, ih, withKeyword]
    cases h : Modifier.ofKeyword? w with
    | none => rw [List.filterMap_cons_none h]
    | some m => rw [List.filterMap_cons_some h, List.foldl_cons]

end Signature

/-! ## Written names -/

def DeclaredName.written (n : DeclaredName) : Text :=
  match n.initialValue with
  | none => n.name
  | some v => n.name ++ " = ".toList ++ v

/-- A name that may be declared: an identifier, with an initial value that is read whole. -/
@[mk_iff]
structure DeclaredName.IsRegular (n : DeclaredName) : Prop where
  isIdentifier : isIdentifier n.name = true
  value : ∀ v ∈ n.initialValue, v ≠ [] ∧ Text.trim v = v ∧ Text.IsClean v

instance (n : DeclaredName) : Decidable n.IsRegular :=
  decidable_of_iff _ (DeclaredName.isRegular_iff n).symm

variable {mark : Char} {w : Text} {ns : List Text} {first : DeclaredName}
  {names : List DeclaredName}

theorem Text.splitOnce_of_not_mem (h : mark ∉ w) :
    Text.splitOnce mark w = none := by
  have hdrop : w.dropWhile (· != mark) = [] := by
    rw [List.dropWhile_eq_nil_iff]
    intro c hc
    rw [bne_iff_ne]
    rintro rfl
    exact h hc
  rw [Text.splitOnce, hdrop]

theorem Text.splitOnce_append {u : Text} (h : mark ∉ u) (v : Text) :
    Text.splitOnce mark (u ++ mark :: v) = some (u, v) := by
  have hall : ∀ c ∈ u, (c != mark) = true := fun c hc ↦ by
    rw [bne_iff_ne]
    rintro rfl
    exact h hc
  rw [Text.splitOnce, List.dropWhile_append_of_pos hall, List.takeWhile_append_of_pos hall]
  simp

theorem fixedSize_of_not_mem (h : '[' ∉ w) : fixedSize w = (w, none) := by
  rw [fixedSize, Text.splitOnce_of_not_mem h]

theorem any_isBlank_of_isWord (h : IsWord w) : w.any isBlank = false := by
  rw [List.any_eq_false]
  intro c hc
  simp [h.isBlank_eq_false hc]

namespace DeclaredName.IsRegular

variable {n : DeclaredName}

theorem isWord (h : n.IsRegular) : IsWord n.name := isWord_of_isIdentifier h.isIdentifier

theorem isBland_of_mem (h : n.IsRegular) {c : Char} (hc : c ∈ n.name) : isBland c = true :=
  isBland_of_isMild (isMild_of_isIdentifier h.isIdentifier hc)

/-- What is written for a name is one part of a list. -/
theorem isClean_written (h : n.IsRegular) : Text.IsClean n.written := by
  rw [written]
  split
  · exact Text.isClean_of_isBland fun c hc ↦ h.isBland_of_mem hc
  · rename_i v hv
    have hbland : ∀ c ∈ n.name ++ [' ', '='], isBland c = true := by
      intro c hc
      rcases List.mem_append.mp hc with hc | hc
      · exact h.isBland_of_mem hc
      · rcases List.mem_pair.mp hc with rfl | rfl <;> decide
    have hclean := Text.IsClean.append_bland hbland (h.value v hv).2.2
    rwa [List.append_assoc] at hclean ⊢

theorem trim_written (h : n.IsRegular) : n.written ≠ [] ∧ Text.trim n.written = n.written := by
  rw [written]
  split
  · exact h.isWord.trimmed
  · rename_i v hv
    obtain ⟨hne, htrim, -⟩ := h.value v hv
    refine ⟨by simp, Text.trim_eq_self ?_ ?_⟩
    · rw [List.append_assoc, List.head?_append_of_ne_nil _ h.isWord.1]
      exact fun c hc ↦ h.isWord.isBlank_eq_false (List.mem_of_head? hc)
    · rw [List.getLast?_append_of_ne_nil _ hne]
      exact Text.isBlank_getLast?_of_trim_eq_self htrim

theorem laterName_written (h : n.IsRegular) (text : Text) : laterName text n.written = .ok n := by
  obtain ⟨name, value⟩ := n
  have hequals : '=' ∉ name := not_mem_of_isIdentifier h.isIdentifier (by decide)
  have hblank : name.any isBlank = false := any_isBlank_of_isWord h.isWord
  have htrim : Text.trim name = name := trim_of_isWord h.isWord
  cases value with
  | none =>
    rw [laterName, written]
    simp [Text.splitOnce_of_not_mem hequals, htrim, h.isWord.1, hblank]
  | some v =>
    have hwritten : written ⟨name, some v⟩ = (name ++ [' ']) ++ '=' :: ' ' :: v := by
      simp [written]
    have hmark : '=' ∉ name ++ [' '] := by simpa using hequals
    rw [laterName, hwritten, Text.splitOnce_append hmark]
    simp [Text.trim_append_singleton (c := ' ') (by decide), Text.trim_cons (c := ' ') (by decide),
      htrim, (h.value v rfl).2.1, h.isWord.1, hblank]

end DeclaredName.IsRegular

/-- The names behind an initial value are read as they were written. -/
theorem laterNames_written {ns : List DeclaredName} (h : ∀ n ∈ ns, n.IsRegular) (text : Text) :
    laterNames text (ns.map DeclaredName.written) = .ok ns := by
  induction ns with
  | nil => rfl
  | cons n ns ih =>
    rw [List.map_cons, laterNames, (h n List.mem_cons_self).laterName_written,
      ih fun k hk ↦ h k (List.mem_cons_of_mem n hk)]
    rfl

/-! ## Rows -/

theorem join_cons_append (u n : Text) (ns : List Text) :
    Text.join partSeparator ((u ++ n) :: ns) = u ++ Text.join partSeparator (n :: ns) := by
  cases ns with
  | nil => rw [join_partSeparator_singleton, join_partSeparator_singleton]
  | cons k ns => rw [join_partSeparator_cons, join_partSeparator_cons, List.append_assoc]

/-- A row of names is a row of words, of which all but the last end with a comma. -/
theorem join_partSeparator_concat (ns : List Text) (n : Text) :
    Text.join partSeparator (ns ++ [n]) = spaced (ns.map (· ++ [','])) ++ n := by
  induction ns with
  | nil => rw [List.nil_append, join_partSeparator_singleton, List.map_nil, spaced_nil,
      List.nil_append]
  | cons k ns ih =>
    obtain ⟨x, xs, hx⟩ : ∃ x xs, ns ++ [n] = x :: xs := List.exists_cons_of_ne_nil (by simp)
    rw [List.cons_append, hx, join_partSeparator_cons, ← hx, ih]
    simp [partSeparator]

/-- A row in which a name has an initial value goes on in the list of initial values. -/
theorem join_append_written (ns : List Text) (n v : Text) (later : List Text) :
    Text.join partSeparator (ns ++ (n ++ " = ".toList ++ v) :: later) =
      Text.join partSeparator (ns ++ [n]) ++
        (" = ".toList ++ Text.join partSeparator (v :: later)) := by
  induction ns with
  | nil => rw [List.nil_append, List.nil_append, join_cons_append, join_partSeparator_singleton,
      List.append_assoc]
  | cons k ns ih =>
    obtain ⟨x, xs, hx⟩ : ∃ x xs, ns ++ [n] = x :: xs := List.exists_cons_of_ne_nil (by simp)
    obtain ⟨y, ys, hy⟩ : ∃ y ys, ns ++ (n ++ " = ".toList ++ v) :: later = y :: ys :=
      List.exists_cons_of_ne_nil (by simp)
    rw [List.cons_append, hy, join_partSeparator_cons, ← hy, ih, List.cons_append, hx,
      join_partSeparator_cons, ← hx]
    simp only [List.append_assoc]

theorem furtherNames_eq (h : ∀ n ∈ ns, IsWord n) (text : Text) :
    furtherNames text ns = .ok (ns.map fun n ↦ { name := n }) := by
  induction ns with
  | nil => rfl
  | cons n ns ih =>
    have hn := h n List.mem_cons_self
    rw [furtherNames, ih fun k hk ↦ h k (List.mem_cons_of_mem n hk), any_isBlank_of_isWord hn]
    simp [hn.1, bind, Except.bind]

section Row

variable {ws : List Text} {type n : Text} {ns : List Text} {s : Signature}

/-- Keywords, a type and names with commas between them are read as they were written. -/
theorem declaredNames_row (hws : ∀ w ∈ ws, isLeadingWord w = true)
    (hs : Signature.ofKeywords ws = .ok s) (htype : isIdentifier type = true)
    (hkeyword : isKeyword type = false) (hnames : ∀ k ∈ n :: ns, isIdentifier k = true) :
    declaredNames (spaced (ws ++ [type]) ++ Text.join partSeparator (n :: ns)) =
      .ok ({ s with name := n, returnType := some type, operator := none }, { name := n },
        ns.map fun k ↦ { name := k }) := by
  have hwords : ∀ w ∈ ws ++ [type], IsWord w ∧ ∀ c ∈ w, isMild c = true :=
    List.forall_mem_append.mpr
      ⟨fun w hw ↦ ⟨isWord_of_isLeadingWord (hws w hw), isMild_of_isLeadingWord (hws w hw)⟩,
        List.forall_mem_singleton.mpr
          ⟨isWord_of_isIdentifier htype, fun c hc ↦ isMild_of_isIdentifier htype hc⟩⟩
  have hname : isIdentifier n = true := hnames n List.mem_cons_self
  have hfurther : ∀ k ∈ ns, isIdentifier k = true := fun k hk ↦
    hnames k (List.mem_cons_of_mem n hk)
  -- The signature and the first name are one part of the list.
  have hparts : listParts (spaced (ws ++ [type]) ++ Text.join partSeparator (n :: ns)) =
      (spaced (ws ++ [type]) ++ n) :: ns := by
    have hpart {q : Text} (hq : ∀ c ∈ q, isMild c = true) (htrim : Text.trim q = q) :
        Text.IsPart q :=
      (Text.isClean_of_isBland fun c hc ↦ isBland_of_isMild (hq c hc)).isPart htrim
    rw [← join_cons_append]
    refine listPartsFrom_join PartScan.fresh_start (by simp)
      (List.forall_mem_cons.mpr ⟨hpart ?_ ?_, fun k hk ↦ hpart ?_ ?_⟩) (by simp)
    · exact List.forall_mem_append.mpr ⟨forall_mem_spaced (by decide) fun w hw ↦ (hwords w hw).2,
        fun c hc ↦ isMild_of_isIdentifier hname hc⟩
    · exact trim_spaced_append (fun w hw ↦ (hwords w hw).1) (isWord_of_isIdentifier hname)
    · exact fun c hc ↦ isMild_of_isIdentifier (hfurther k hk) hc
    · exact trim_of_isWord (isWord_of_isIdentifier (hfurther k hk))
  have hstrip : Signature.strip (ws ++ [type, n]) = .ok (s, [type, n]) :=
    Signature.strip_of_ofKeywords hws hs (isDeclarationWord_of_isKeyword hkeyword)
  rw [declaredNames, hparts]
  dsimp only
  rw [phraseWords_spaced_append (fun w hw ↦ (hwords w hw).1) (isWord_of_isIdentifier hname),
    List.append_assoc, List.singleton_append,
    Signature.ofWords_of_strip hstrip (isWord_of_isIdentifier htype) hkeyword
      (gluedOperator?_of_isIdentifier htype) (gluedOperator?_of_isIdentifier hname),
    furtherNames_eq fun k hk ↦ isWord_of_isIdentifier (hfurther k hk)]
  rfl

end Row

theorem initializeLast_eq (value n : Text)
    (h : first :: names = (ns ++ [n]).map fun k ↦ { name := k }) :
    (initializeLast value first names).1 :: (initializeLast value first names).2 =
      (ns.map fun k ↦ { name := k }) ++ [⟨n, some value⟩] := by
  induction ns generalizing first names with
  | nil =>
    cases h
    rfl
  | cons k ns ih =>
    obtain ⟨rfl, hnames⟩ := List.cons.inj h
    cases names with
    | nil => simp at hnames
    | cons d ds =>
      rw [initializeLast, List.map_cons, List.cons_append, ← ih hnames]

/-- The initial values are given to the names before them, and the names behind the first value are
read as they were written. -/
theorem initializedNames_written (text value n : Text) {later : List DeclaredName}
    (hvalue : value ≠ [] ∧ Text.trim value = value ∧ Text.IsClean value)
    (hlater : ∀ k ∈ later, k.IsRegular)
    (h : first :: names = (ns ++ [n]).map fun k ↦ { name := k }) :
    ∃ d ds, initializedNames text
        (Text.join partSeparator (value :: later.map DeclaredName.written)) first names =
          .ok (d, ds) ∧
      d :: ds = (ns.map fun k ↦ { name := k }) ++ ⟨n, some value⟩ :: later := by
  obtain ⟨hne, htrim, hclean⟩ := hvalue
  have hparts : listParts (Text.join partSeparator (value :: later.map DeclaredName.written)) =
      value :: later.map DeclaredName.written :=
    listPartsFrom_join PartScan.fresh_start (by simp) (List.forall_mem_cons.mpr
      ⟨hclean.isPart htrim, List.forall_mem_map.mpr fun k hk ↦
        (hlater k hk).isClean_written.isPart (hlater k hk).trim_written.2⟩) (by simp)
  obtain ⟨c, cs, rfl⟩ := List.exists_cons_of_ne_nil hne
  refine ⟨(initializeLast (c :: cs) first names).1,
    (initializeLast (c :: cs) first names).2 ++ later, ?_, ?_⟩
  · rw [initializedNames, hparts]
    dsimp only
    rw [laterNames_written hlater]
    rfl
  · rw [← List.cons_append, initializeLast_eq (c :: cs) n h, List.append_assoc,
      List.singleton_append]

end SharpOutline
