import SharpOutline.Tree.Basic

/-!
# Edits of a tree

Moving elements between places. An element that is put into a place is first taken out of the place
where it stood, so that no edit can leave it in two. An edit that would put an element beneath
itself is refused, as is one that mentions a number without an element; a refused edit changes
nothing.

Whether an element lies beneath another is read off its lineage, the walk from an element through
its parents. The walk is cut off after as many steps as the tree has elements, which is never
reached unless the walk goes in circles.
-/

namespace SharpOutline

namespace Tree

/-! ## Lineage and chains -/

/-- An element and its ancestors from the nearest on, at most `limit` of them all. -/
def lineageUpTo (t : Tree) : Nat → ElementId → List ElementId
  | 0, _ => []
  | n + 1, id =>
    id ::
      match t.parent? id with
      | none => []
      | some p => t.lineageUpTo n p

def lineage (t : Tree) (id : ElementId) : List ElementId := t.lineageUpTo (t.size + 1) id

/-- The branches from `id` on, after those in `seen`; a branch that was seen ends the chain. -/
def chainUpTo (t : Tree) (seen : List ElementId) :
    Nat → ElementId → Except Refusal (List ElementId)
  | 0, _ => .ok seen
  | n + 1, id => do
    let node ← t.node id
    match node.element.otherwise? with
    | none => .ok (seen ++ [id])
    | some branch =>
      if branch ∈ seen ++ [id] then .ok (seen ++ [id])
      else t.chainUpTo (seen ++ [id]) n branch

/-- An element followed by the further branches of the conditional that it starts. -/
def chain (t : Tree) (id : ElementId) : Except Refusal (List ElementId) :=
  t.chainUpTo [] (t.size + 1) id

/-! ## Taking out and putting in -/

/-- The tree with a known element taken out of the place where it stands. -/
def detached (t : Tree) (id : ElementId) : Tree :=
  match t.parent? id with
  | some p => (t.modify id fun n ↦ { n with parent := none }).modify p (·.drop id)
  | none => { t with roots := t.roots.filter (· != id) }

def detach (t : Tree) (id : ElementId) : Except Refusal Tree := do
  let _ ← t.node id
  .ok (t.detached id)

/-- The tree with an element, which stands nowhere, put into a list of another one. -/
def linked (t : Tree) (owner : ElementId) (slot : Slot)
    (put : List ElementId → List ElementId) (id : ElementId) : Tree :=
  (t.modify owner (·.modifyList put slot)).modify id fun n ↦ { n with parent := some owner }

/-- The tree with an element, which stands nowhere, at the end of a list of another one. -/
def appended (t : Tree) (owner : ElementId) (slot : Slot) (id : ElementId) : Tree :=
  t.linked owner slot (· ++ [id]) id

/-- An element may become a child of another one unless that lies beneath it. -/
def checkNoCycle (t : Tree) (parent child : ElementId) : Except Refusal Unit := do
  if child ∈ t.lineage parent then .error .cycle
  else
    let _ ← t.node parent
    .ok ()

def expectKind (t : Tree) (id : ElementId) (expected : Kind) : Except Refusal Unit := do
  let node ← t.node id
  if node.kind = expected then .ok () else .error (.kindMismatch expected node.kind)

/-! ## Roots and children -/

/-- Makes an element the last root. A root stays where it is. -/
def addRoot (t : Tree) (id : ElementId) : Except Refusal Tree := do
  let node ← t.node id
  if node.parent.isNone && t.roots.contains id then .ok t
  else
    let u := t.detached id
    .ok { u with roots := u.roots ++ [id] }

/-- Makes an element the last child of another one. A child of it stays where it is. -/
def addChild (t : Tree) (parent child : ElementId) : Except Refusal Tree := do
  let node ← t.node child
  if node.parent = some parent && ((t.get? parent).any fun p ↦ p.children.contains child) then .ok t
  else
    t.checkNoCycle parent child
    .ok ((t.detached child).appended parent .children child)

/-- Puts an element among the children of another one, before the child with the index that is left
after it was taken out, or at the end if there are not as many. -/
def insertChild (t : Tree) (parent : ElementId) (index : Nat) (child : ElementId) :
    Except Refusal Tree := do
  t.checkNoCycle parent child
  let u ← t.detach child
  .ok (u.linked parent .children (fun l ↦ l.insertIdx (min index l.length) child) child)

/-- Takes an element out of a list of another one, if it stands there, and says whether it did. -/
def removeFrom (t : Tree) (owner : ElementId) (slot : Slot) (id : ElementId) :
    Except Refusal (Tree × Bool) := do
  let node ← t.node owner
  if (node.list slot).contains id then
    .ok ((t.modify owner (·.modifyList (·.erase id) slot)).modify id
      fun n ↦ { n with parent := none }, true)
  else .ok (t, false)

def removeChild (t : Tree) (parent child : ElementId) : Except Refusal (Tree × Bool) :=
  t.removeFrom parent .children child

def clearChildren (t : Tree) (id : ElementId) : Except Refusal Tree := do
  let node ← t.node id
  .ok (node.children.foldl (fun u child ↦ u.modify child fun n ↦ { n with parent := none })
    (t.modify id fun n ↦ { n with children := [] }))

/-! ## Comments and attributes -/

/-- Puts an element of a kind at the end of a list of another one, if that is of a kind which is
able to have such a list. One that is there already stays where it is. -/
def addTo (t : Tree) (slot : Slot) (kind : Kind) (able : Kind → Bool) (refusal : Kind → Refusal)
    (owner id : ElementId) : Except Refusal Tree := do
  let node ← t.node owner
  if !able node.kind then .error (refusal node.kind)
  else
    t.expectKind id kind
    if (node.list slot).contains id then .ok t
    else .ok ((t.detached id).appended owner slot id)

/-- Puts a comment above the declaration of an element. -/
def addHeaderComment (t : Tree) (owner comment : ElementId) : Except Refusal Tree :=
  t.addTo .headerComments .comment Kind.isCommentable .notCommentable owner comment

def addAttribute (t : Tree) (owner used : ElementId) : Except Refusal Tree :=
  t.addTo .attributes .attributeUse Kind.isAttributable .notAttributable owner used

def removeAttribute (t : Tree) (owner used : ElementId) : Except Refusal (Tree × Bool) :=
  t.removeFrom owner .attributes used

/-! ## Branches -/

/-- The tree with another next branch for a branch of a conditional. -/
def withOtherwise (t : Tree) (id : ElementId) (branch : Option ElementId) : Tree :=
  t.modify id fun n ↦ { n with element := n.element.withOtherwise branch }

/-- Makes a branch the next one of another, or ends the conditional there. A branch that leads back
to the other one is refused. -/
def setOtherwise (t : Tree) (id : ElementId) (branch : Option ElementId) :
    Except Refusal Tree := do
  t.expectKind id .conditionDirective
  match branch with
  | none => .ok (t.withOtherwise id none)
  | some b =>
    t.expectKind b .conditionDirective
    if b = id then .error .cycle
    else
      let branches ← t.chain b
      if id ∈ branches then .error .cycle
      else .ok ((t.detached b).withOtherwise id (some b))

end Tree

end SharpOutline
