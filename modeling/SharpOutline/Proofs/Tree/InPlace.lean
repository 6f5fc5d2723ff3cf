import SharpOutline.Proofs.Tree.Ancestors

/-!
# Edits in place

An edit says what a tree becomes, or why it is refused. Carried out on a tree that changes on the
way, it is a sequence of steps that look at elements and write to them, and whatever was written
before a step that fails stays written. The edits that put an element into a list, or a branch
behind another one, are given here as such sequences (`Editing`). Where the links of the tree agree,
every step that may fail comes before the first one that writes, so that a refused edit has written
nothing: the element is known, and so is the parent that it is taken from.

An element that becomes a child is refused exactly if its new parent is the element itself or lies
beneath it (`Tree.childEdits_atomic`).
-/

namespace SharpOutline

/-- Steps that change a tree in place. What they have written stays if they fail later. -/
abbrev Editing := EStateM Refusal Tree

namespace Editing

/-! ## Steps -/

/-- Asks something of the tree, and fails if that is refused. -/
def ask {α : Type} (question : Tree → Except Refusal α) : Editing α := fun t ↦
  match question t with
  | .ok a => .ok a t
  | .error r => .error r t

/-- Changes what stands under a number, which must be known. -/
def write (id : ElementId) (change : Node → Node) : Editing Unit := do
  let _ ← ask (·.node id)
  modify (·.modify id change)

def detach (id : ElementId) : Editing Unit := do
  let node ← ask (·.node id)
  match node.parent with
  | some p =>
    write id fun n ↦ { n with parent := none }
    write p (·.drop id)
  | none => modify fun t ↦ { t with roots := t.roots.filter (· != id) }

def link (owner : ElementId) (slot : Slot) (put : List ElementId → List ElementId)
    (id : ElementId) : Editing Unit := do
  write owner (·.modifyList put slot)
  write id fun n ↦ { n with parent := some owner }

def move (owner : ElementId) (slot : Slot) (put : List ElementId → List ElementId)
    (id : ElementId) : Editing Unit := do
  detach id
  link owner slot put id

/-! ## Edits -/

def addChild (parent child : ElementId) : Editing Unit := do
  let node ← ask (·.node child)
  let listed ← ask fun t ↦ .ok ((t.get? parent).any fun p ↦ p.children.contains child)
  if node.parent = some parent && listed then pure ()
  else
    ask (·.checkNoCycle parent child)
    move parent .children (· ++ [child]) child

def insertChild (parent : ElementId) (index : Nat) (child : ElementId) : Editing Unit := do
  ask (·.checkNoCycle parent child)
  move parent .children (fun l ↦ l.insertIdx (min index l.length) child) child

/-- Puts an element of a kind at the end of a list of another one. -/
def addTo (slot : Slot) (kind : Kind) (able : Kind → Bool) (refusal : Kind → Refusal)
    (owner id : ElementId) : Editing Unit := do
  let node ← ask (·.node owner)
  if !able node.kind then throw (refusal node.kind)
  else
    ask (·.expectKind id kind)
    if (node.list slot).contains id then pure ()
    else move owner slot (· ++ [id]) id

def addHeaderComment (owner comment : ElementId) : Editing Unit :=
  addTo .headerComments .comment Kind.isCommentable .notCommentable owner comment

def addAttribute (owner used : ElementId) : Editing Unit :=
  addTo .attributes .attributeUse Kind.isAttributable .notAttributable owner used

def setOtherwise (id : ElementId) (branch : Option ElementId) : Editing Unit := do
  ask (·.expectKind id .conditionDirective)
  match branch with
  | none => write id fun n ↦ { n with element := n.element.withOtherwise none }
  | some b =>
    ask (·.expectKind b .conditionDirective)
    if b = id then throw .cycle
    else
      let branches ← ask (·.chain b)
      if id ∈ branches then throw .cycle
      else
        detach b
        write id fun n ↦ { n with element := n.element.withOtherwise (some b) }

/-! ## What the steps do -/

/-- How an edit ends in place if it writes all or nothing: with the tree it leads to, or with the
old one. -/
def outcome (t : Tree) : Except Refusal Tree → EStateM.Result Refusal Tree Unit
  | .ok u => .ok () u
  | .error r => .error r t

variable {t : Tree} {id owner : ElementId} {slot : Slot} {put : List ElementId → List ElementId}

variable {α : Type} {step : Editing α} {u : Tree}

/-- Steps that begin with a question are all or nothing if those after the answer are. -/
theorem ask_bind {question : Tree → Except Refusal α} {next : α → Editing Unit}
    {edit : α → Except Refusal Tree}
    (h : ∀ a, question t = .ok a → (next a).run t = outcome t (edit a)) :
    (ask question >>= next).run t = outcome t (question t >>= edit) := by
  cases ha : question t with
  | error r => simp [ask, ha, EStateM.run, bind, EStateM.bind, Except.bind, outcome]
  | ok a =>
    have hnext := h a ha
    simpa [ask, ha, EStateM.run, bind, EStateM.bind, Except.bind] using hnext

theorem run_bind {a : α} (h : step.run t = .ok a u) (next : α → Editing Unit) :
    (step >>= next).run t = (next a).run u := by
  rw [EStateM.run] at h
  simp [EStateM.run, bind, EStateM.bind, h]

theorem run_ask_node {n : Node} (h : t.get? id = some n) : (ask (·.node id)).run t = .ok n t := by
  simp [ask, EStateM.run, Tree.node, h]

theorem run_write (hid : id < t.size) (change : Node → Node) :
    (write id change).run t = .ok () (t.modify id change) := by
  obtain ⟨n, hn⟩ := Tree.exists_get?_of_lt hid
  rw [write, run_bind (run_ask_node hn)]
  rfl

theorem run_bind_error {β : Type} {r : Refusal} (h : step.run t = .error r u)
    (next : α → Editing β) : (step >>= next).run t = .error r u := by
  rw [EStateM.run] at h
  simp [EStateM.run, bind, EStateM.bind, h]

/-- The parent that an element is taken from is known, so nothing fails on the way. -/
theorem run_detach (h : t.Linked) (hid : id < t.size) :
    (detach id).run t = .ok () (t.detached id) := by
  obtain ⟨n, hn⟩ := Tree.exists_get?_of_lt hid
  have hparent : t.parent? id = n.parent := by rw [Tree.parent?, hn, Option.bind_some]
  rw [detach, run_bind (run_ask_node hn)]
  cases hp : n.parent with
  | none =>
    rw [Tree.detached_of_root (hparent.trans hp)]
    rfl
  | some p =>
    rw [hp] at hparent
    obtain ⟨s, hmem⟩ := h.exists_mem_listOf hparent
    have hknown : p < (t.modify id fun n ↦ { n with parent := none }).size := by
      rw [Tree.size_modify]
      exact Tree.lt_of_mem_listOf hmem
    rw [Tree.detached_of_parent hparent]
    exact (run_bind (run_write hid _) _).trans (run_write hknown _)

theorem run_link (howner : owner < t.size) (hid : id < t.size) :
    (link owner slot put id).run t = .ok () (t.linked owner slot put id) := by
  rw [link, run_bind (run_write howner _), Tree.linked]
  exact run_write (by rwa [Tree.size_modify]) _

theorem run_move (h : t.Linked) (howner : owner < t.size) (hid : id < t.size) :
    (move owner slot put id).run t =
      outcome t (.ok ((t.detached id).linked owner slot put id)) := by
  have r := Tree.released_detached h id
  rw [move, run_bind (run_detach h hid)]
  exact run_link (by rwa [r.size]) (by rwa [r.size])

/-! ## What the edits do

Each of them does in place what the edit of the same name says, or nothing. -/

theorem run_addChild (h : t.Linked) (parent child : ElementId) :
    (addChild parent child).run t = outcome t (t.addChild parent child) := by
  refine ask_bind fun n hn ↦ ?_
  have hlisted : (ask fun t ↦ .ok ((t.get? parent).any fun p ↦ p.children.contains child)).run t =
      .ok ((t.get? parent).any fun p ↦ p.children.contains child) t := rfl
  rw [run_bind hlisted]
  split
  · rfl
  · refine ask_bind fun _ hcheck ↦ ?_
    exact run_move h (Tree.checkNoCycle_eq_ok hcheck) (Tree.lt_of_get? (Tree.node_eq_ok.mp hn))

theorem run_insertChild (h : t.Linked) (parent : ElementId) (index : Nat) (child : ElementId) :
    (insertChild parent index child).run t = outcome t (t.insertChild parent index child) := by
  refine ask_bind fun _ hcheck ↦ ?_
  rw [Tree.detach]
  cases hn : t.node child with
  | error r => exact run_bind_error (run_bind_error (by simp [ask, EStateM.run, hn]) _) _
  | ok n =>
    exact run_move h (Tree.checkNoCycle_eq_ok hcheck) (Tree.lt_of_get? (Tree.node_eq_ok.mp hn))

theorem run_addTo (h : t.Linked) (slot : Slot) (kind : Kind) (able : Kind → Bool)
    (refusal : Kind → Refusal) (owner id : ElementId) :
    (addTo slot kind able refusal owner id).run t =
      outcome t (t.addTo slot kind able refusal owner id) := by
  refine ask_bind fun n hn ↦ ?_
  split
  · rfl
  · refine ask_bind fun _ hkind ↦ ?_
    split
    · rfl
    · exact run_move h (Tree.lt_of_get? (Tree.node_eq_ok.mp hn))
        (Tree.lt_of_kind? (Tree.expectKind_eq_ok hkind))

theorem run_setOtherwise (h : t.Linked) (id : ElementId) (branch : Option ElementId) :
    (setOtherwise id branch).run t = outcome t (t.setOtherwise id branch) := by
  refine ask_bind fun _ hkind ↦ ?_
  have hid : id < t.size := Tree.lt_of_kind? (Tree.expectKind_eq_ok hkind)
  cases branch with
  | none => exact run_write hid _
  | some b =>
    refine ask_bind fun _ hb ↦ ?_
    split
    · rfl
    · refine ask_bind fun branches _ ↦ ?_
      split
      · rfl
      · rw [run_bind (run_detach h (Tree.lt_of_kind? (Tree.expectKind_eq_ok hb)))]
        exact run_write (by rwa [(Tree.released_detached h b).size]) _

end Editing

namespace Tree

variable {t : Tree} {parent child : ElementId}

/-! ## Children that are refused -/

variable {result : Except Refusal Tree}

theorem mem_lineage_iff_eq_or_exists :
    child ∈ t.lineage parent ↔ child = parent ∨ ∃ n, t.ancestor? (n + 1) parent = some child := by
  rw [mem_lineage_iff]
  constructor
  · rintro ⟨i, hi⟩
    cases i with
    | zero => exact .inl (Option.some.inj hi).symm
    | succ n => exact .inr ⟨n, hi⟩
  · rintro (rfl | ⟨n, hn⟩)
    · exact ⟨0, rfl⟩
    · exact ⟨n + 1, hn⟩

theorem checkNoCycle_of_mem (h : child ∈ t.lineage parent) :
    t.checkNoCycle parent child = .error .cycle := by
  rw [checkNoCycle, if_pos h]

theorem checkNoCycle_of_not_mem (h : child ∉ t.lineage parent) (hparent : parent < t.size) :
    t.checkNoCycle parent child = .ok () := by
  obtain ⟨n, hn⟩ := exists_get?_of_lt hparent
  rw [checkNoCycle, if_neg h, node_eq_ok.mpr hn]
  rfl

theorem Acyclic.not_mem_lineage (h : t.Acyclic) (hchild : t.parent? child = some parent) :
    child ∉ t.lineage parent := by
  rw [mem_lineage_iff]
  rintro ⟨i, hi⟩
  refine h child i ?_
  rw [ancestor?, hchild, Option.bind_some, hi]

/-- How putting an element among the children of another one ends: it is refused if the other one
lies beneath it, and is a child of the other one if not. -/
def ChildPut (t : Tree) (parent child : ElementId) (result : Except Refusal Tree) : Prop :=
  (child ∈ t.lineage parent ∧ result = .error .cycle) ∨
    (child ∉ t.lineage parent ∧ ∃ u, result = .ok u ∧ u.parent? child = some parent)

theorem childPut_addChild (h : t.Linked) (hacyclic : t.Acyclic) (hparent : parent < t.size)
    (hchild : child < t.size) : t.ChildPut parent child (t.addChild parent child) := by
  obtain ⟨n, hn⟩ := exists_get?_of_lt hchild
  have hparent? : t.parent? child = n.parent := by rw [parent?, hn, Option.bind_some]
  rw [addChild, node_eq_ok.mpr hn]
  change t.ChildPut parent child (if _ then _ else _)
  split
  · -- A child of the parent stays, which is right because no child is above its parent.
    rename_i hstays
    rw [Bool.and_eq_true, decide_eq_true_iff, ← hparent?] at hstays
    exact .inr ⟨hacyclic.not_mem_lineage hstays.1, t, rfl, hstays.1⟩
  · by_cases hmem : child ∈ t.lineage parent
    · rw [checkNoCycle_of_mem hmem]
      exact .inl ⟨hmem, rfl⟩
    · rw [checkNoCycle_of_not_mem hmem hparent]
      refine .inr ⟨hmem, _, rfl, ?_⟩
      exact (parent?_moved h hparent hchild (List.perm_append_singleton child) child).trans
        (if_pos rfl)

theorem childPut_insertChild (h : t.Linked) (hparent : parent < t.size) (hchild : child < t.size)
    (index : Nat) : t.ChildPut parent child (t.insertChild parent index child) := by
  obtain ⟨n, hn⟩ := exists_get?_of_lt hchild
  rw [insertChild, detach, node_eq_ok.mpr hn]
  by_cases hmem : child ∈ t.lineage parent
  · rw [checkNoCycle_of_mem hmem]
    exact .inl ⟨hmem, rfl⟩
  · rw [checkNoCycle_of_not_mem hmem hparent]
    refine .inr ⟨hmem, _, rfl, ?_⟩
    exact (parent?_moved h hparent hchild
      (fun l ↦ List.perm_insertIdx child l (Nat.min_le_right index l.length)) child).trans
      (if_pos rfl)

theorem ChildPut.atomic {edit : Editing Unit} (hput : t.ChildPut parent child result)
    (hrun : edit.run t = Editing.outcome t result)
    (hok : ∀ u, result = .ok u → u.Acyclic ∧ u.Linked) :
    (result = .error .cycle ↔ child = parent ∨ ∃ n, t.ancestor? (n + 1) parent = some child) ∧
    (∀ r u, edit.run t = .error r u → r = .cycle ∧ u = t) ∧
    ∀ u, edit.run t = .ok () u → u.Acyclic ∧ u.Linked ∧ u.parent? child = some parent := by
  rw [← mem_lineage_iff_eq_or_exists, hrun]
  obtain ⟨hmem, rfl⟩ | ⟨hmem, v, rfl, hv⟩ := hput
  · refine ⟨iff_of_true rfl hmem, fun r u hu ↦ ?_, fun u hu ↦ ?_⟩
    · cases hu
      exact ⟨rfl, rfl⟩
    · cases hu
  · refine ⟨iff_of_false (fun h ↦ by cases h) hmem, fun r u hu ↦ ?_, fun u hu ↦ ?_⟩
    · cases hu
    · cases hu
      obtain ⟨hacyclic, hlinked⟩ := hok v rfl
      exact ⟨hacyclic, hlinked, hv⟩

theorem eq_of_outcome_eq_error {r : Refusal} {u : Tree}
    (h : Editing.outcome t result = .error r u) : u = t := by
  cases result with
  | ok v => cases h
  | error e => exact (EStateM.Result.error.inj h).2.symm

/-- **Children and refusals.** In a tree without circles of parents whose links agree, an element
that is to become a child of another one is refused exactly if the other one is the element itself
or lies beneath it, and for no other reason. Carried out in place, a refused edit leaves the tree as
it was; one that is not refused leaves a tree without circles whose links agree, in which the
element has its new parent. An edit that is to give a comment, an attribute or a next branch to an
element and is refused leaves the tree as it was too. -/
theorem childEdits_atomic (h : t.Linked) (hacyclic : t.Acyclic) (hparent : parent < t.size)
    (hchild : child < t.size) (index : Nat) :
    (∀ edit ∈ [(t.addChild parent child, Editing.addChild parent child),
        (t.insertChild parent index child, Editing.insertChild parent index child)],
      edit.2.run t = Editing.outcome t edit.1 ∧
      (edit.1 = .error .cycle ↔ child = parent ∨ ∃ n, t.ancestor? (n + 1) parent = some child) ∧
      (∀ r u, edit.2.run t = .error r u → r = .cycle ∧ u = t) ∧
      ∀ u, edit.2.run t = .ok () u → u.Acyclic ∧ u.Linked ∧ u.parent? child = some parent) ∧
    ∀ owner given branch,
      ∀ edit ∈ [(t.addHeaderComment owner given, Editing.addHeaderComment owner given),
          (t.addAttribute owner given, Editing.addAttribute owner given),
          (t.setOtherwise owner branch, Editing.setOtherwise owner branch)],
        edit.2.run t = Editing.outcome t edit.1 ∧ ∀ r u, edit.2.run t = .error r u → u = t := by
  constructor
  · have hkept : ∀ {e : Edit} {u : Tree}, e.apply t = .ok u → ¬e.Buries t → u.Acyclic ∧ u.Linked :=
      fun hu hburies ↦ ⟨(acyclic_apply_iff hacyclic h hu).mpr hburies, h.apply hu⟩
    have hadd := Editing.run_addChild h parent child
    have hinsert := Editing.run_insertChild h parent index child
    refine List.forall_mem_cons.mpr ⟨⟨hadd, ?_⟩, List.forall_mem_singleton.mpr ⟨hinsert, ?_⟩⟩
    · exact (childPut_addChild h hacyclic hparent hchild).atomic hadd
        fun u hu ↦ hkept (e := .addChild parent child) hu id
    · exact (childPut_insertChild h hparent hchild index).atomic hinsert
        fun u hu ↦ hkept (e := .insertChild parent index child) hu id
  · intro owner given branch
    have hall : ∀ {result : Except Refusal Tree} {edit : Editing Unit},
        edit.run t = Editing.outcome t result →
          edit.run t = Editing.outcome t result ∧ ∀ r u, edit.run t = .error r u → u = t :=
      fun hrun ↦ ⟨hrun, fun _ _ hu ↦ eq_of_outcome_eq_error (hrun.symm.trans hu)⟩
    refine List.forall_mem_cons.mpr ⟨?_, List.forall_mem_cons.mpr ⟨?_, ?_⟩⟩
    · exact hall (Editing.run_addTo h _ _ _ _ owner given)
    · exact hall (Editing.run_addTo h _ _ _ _ owner given)
    · exact List.forall_mem_singleton.mpr (hall (Editing.run_setOtherwise h owner branch))

/-- A namespace in a namespace, which is a root. -/
def nested : List Edit :=
  [.create "A".toList (.nameSpace false), .create "B".toList (.nameSpace false), .addRoot 0,
    .addChild 0 1]

theorem acyclic_nested : (built nested).Acyclic :=
  Acyclic.empty.foldl_edited Linked.empty (by simp [nested, Edit.Buries])

/-- The outer namespace cannot become a child of the inner one, and the inner one can be inserted
where it is. -/
theorem childEdits_atomic_nested :
    ((built nested).addChild 1 0 = .error .cycle ∧
      (Editing.addChild 1 0).run (built nested) = .error .cycle (built nested)) ∧
    ∃ u, (Editing.insertChild 0 7 1).run (built nested) = .ok () u ∧ u.Acyclic ∧ u.Linked ∧
      u.parent? 1 = some 0 := by
  have hlinked : (built nested).Linked := Linked.empty.foldl_edited nested
  have hfirst : 0 < (built nested).size := by decide +kernel
  have hsecond : 1 < (built nested).size := by decide +kernel
  have hrefused := childEdits_atomic hlinked acyclic_nested hsecond hfirst 0
  have hdone := childEdits_atomic hlinked acyclic_nested hfirst hsecond 7
  obtain ⟨hrun, hiff, -⟩ := hrefused.1 _ List.mem_cons_self
  have hcycle := hiff.mpr (.inr ⟨0, by decide +kernel⟩)
  refine ⟨⟨hcycle, ?_⟩, ?_⟩
  · exact hrun.trans (congrArg _ hcycle)
  · obtain ⟨hrun, -, -, hok⟩ := hdone.1 _ (List.mem_cons_of_mem _ List.mem_cons_self)
    have hdone : (built nested).insertChild 0 7 1 = .ok (built nested) := by decide +kernel
    refine ⟨built nested, ?_, hok (built nested) ?_⟩ <;> exact hrun.trans (congrArg _ hdone)

end Tree

end SharpOutline
