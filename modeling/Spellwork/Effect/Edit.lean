import Spellwork.Effect.Tree

/-!
# Editing trees

Insertion, change of one effect, and removal of an effect with all that stands below it. An edit
either gives a new tree or says why it is not allowed; what may stand where is decided by
`Tree.checkEdge`.
-/

namespace Spellwork

/-- Why an effect cannot stand in a place. -/
inductive EditError where
  | duplicateId (id : NodeId)
  | unknownNode (id : NodeId)
  | invalidEdge (parent : NodeId) (typeName : String) (outcome : Outcome)
  | invalidSharedRoll (parent child : NodeId) (typeName : String)
  | missingOutcome (id : NodeId)
  | outcomeAsRoot (id : NodeId)
deriving DecidableEq, Repr

namespace EditError

/-- The message. -/
def message : EditError → String
  | duplicateId id => "node id `" ++ id ++ "` already exists in the tree"
  | unknownNode id => "node `" ++ id ++ "` does not exist in the tree"
  | invalidEdge parent typeName outcome =>
    "a " ++ typeName ++ " node cannot own children under `" ++ outcome.name ++ "` (parent `" ++
      parent ++ "`)"
  | invalidSharedRoll parent child typeName =>
    "shared rolls of `" ++ parent ++ "` may only hold damage, got " ++ typeName ++ " `" ++ child ++
      "`"
  | missingOutcome id => "node `" ++ id ++ "` names a parent but no parent context"
  | outcomeAsRoot id => "damage outcome `" ++ id ++ "` cannot be a root"

end EditError

/-- A place for an effect: among the roots, or under an outcome of another effect. -/
abbrev Slot := Option (NodeId × Outcome)

namespace Tree

/-- Whether `effect` may stand under an outcome of `owner`, the effect found at the id `parent`. The
owner has to be there and to allow the outcome, and shared rolls hold damage only. -/
def checkEdge (owner : Option Effect) (parent : NodeId) (o : Outcome) (id : NodeId)
    (effect : Effect) : Except EditError Unit :=
  match owner with
  | none => .error (.unknownNode parent)
  | some owner =>
    if !owner.canOwn o then .error (.invalidEdge parent owner.typeName o)
    else if o = .sharedRolls && !effect.isDamage then
      .error (.invalidSharedRoll parent id effect.typeName)
    else .ok ()

/-! ## Insertion -/

/-- Whether the first outcome does not come after the second. -/
def notAfter (a b : Option Outcome) : Bool :=
  (a.map Outcome.rank).getD 0 ≤ (b.map Outcome.rank).getD 0

/-- Puts a node among its siblings, behind those that its outcome does not come before. -/
def placeAmong (n : Node) : Tree → Tree
  | .nil => .leaf n
  | .node m children rest =>
    if notAfter m.outcome n.outcome then .node m children (placeAmong n rest)
    else .node n .nil (.node m children rest)

/-- Puts a node below an effect. -/
def placeBelow (parent : NodeId) (n : Node) : Tree → Tree
  | .nil => .nil
  | .node m children rest =>
    if m.id = parent then .node m (placeAmong n children) rest
    else .node m (placeBelow parent n children) (placeBelow parent n rest)

/-- Puts a new effect last in a place of the tree at hand, and hands that tree back. -/
def attach (slot : Slot) (id : NodeId) (effect : Effect) (t : Tree) : Except EditError Unit × Tree :=
  if t.contains id then (.error (.duplicateId id), t)
  else
    match slot with
    | none =>
      if effect.isDamageOutcome then (.error (.outcomeAsRoot id), t)
      else (.ok (), t ++ .leaf ⟨id, none, effect⟩)
    | some (parent, o) =>
      match checkEdge ((t.get? parent).map Record.effect) parent o id effect with
      | .error e => (.error e, t)
      | .ok () => (.ok (), placeBelow parent ⟨id, some o, effect⟩ t)

/-- A copy of a tree with a new effect last in a place. -/
def insert (slot : Slot) (id : NodeId) (effect : Effect) (t : Tree) : Except EditError Tree :=
  match t.attach slot id effect with
  | (.ok (), t) => .ok t
  | (.error e, _) => .error e

/-! ## Change -/

/-- Changes the effect of an id. -/
def adjust (id : NodeId) (change : Effect → Effect) (t : Tree) : Tree :=
  t.map fun n => if n.id = id then { n with effect := change n.effect } else n

/-- Whether an effect may take the place of the one in a record, above the given edges: a root may
not become a damage outcome, what stands under shared rolls must stay damage, and the edges must
still be allowed. -/
def checkChange (r : Record) (edges : List (Outcome × List NodeId)) (effect : Effect) :
    Except EditError Unit :=
  if r.parent.isNone && effect.isDamageOutcome then .error (.outcomeAsRoot r.id)
  else if r.outcome = some .sharedRolls && !effect.isDamage then
    .error (.invalidSharedRoll (r.parent.getD r.id) r.id effect.typeName)
  else
    match edges.find? fun edge => !effect.canOwn edge.1 with
    | some edge => .error (.invalidEdge r.id effect.typeName edge.1)
    | none => .ok ()

/-- Changes the effect of an id where the result is allowed. -/
def update (id : NodeId) (change : Effect → Effect) (t : Tree) : Except EditError Tree :=
  match t.get? id with
  | none => .error (.unknownNode id)
  | some r =>
    match checkChange r ((t.edges? id).getD []) (change r.effect) with
    | .error e => .error e
    | .ok () => .ok (t.adjust id change)

/-! ## Removal -/

/-- The ids that go when an effect is taken away: its own and, in one pass over records, that of
each record whose parent has gone before it. -/
def doomed (id : NodeId) (rs : List Record) : List NodeId :=
  rs.foldl (fun gone r => if r.parent.any fun p => gone.contains p then gone ++ [r.id] else gone)
    [id]

/-- Takes away an effect and all that stands below it. -/
def delete (id : NodeId) (t : Tree) : Except EditError Tree :=
  if t.contains id then
    let gone := doomed id t.flatten
    .ok (t.prune fun n => gone.contains n.id)
  else .error (.unknownNode id)

end Tree

end Spellwork
