import Mathlib.Data.Finmap
import Spellwork.Effect.Storage

/-!
# The arena of a tree

Where a `Tree` holds effects inside one another, an arena holds them side by side: a map from ids
to records, a map from ids to the edges that go out from them, and the list of the roots. The place
of an effect is thus written down twice, in the header of its record and in the list that holds its
id, and nothing but the operations keeps the two in step. An operation reads and writes the maps
one after the other; what comes of that is the subject of `Spellwork.Arena.Reachable`.
-/

namespace Spellwork

/-- The edges that go out from an effect: a list of ids for each of some outcomes, the outcomes in
ascending order. A list may run empty while an operation is at work. -/
abbrev EdgeLists := List (Outcome × List NodeId)

namespace Tree

/-! ## Edges -/

/-- The ids under one outcome. -/
def listUnder (es : EdgeLists) (o : Outcome) : List NodeId :=
  ((es.find? fun e => e.1 = o).map (·.2)).getD []

/-- The edges that lead anywhere. -/
def leading (es : EdgeLists) : EdgeLists :=
  es.filter fun e => !e.2.isEmpty

/-- Puts an id last under an outcome. -/
def pushEdge (o : Outcome) (id : NodeId) : EdgeLists → EdgeLists
  | [] => [(o, [id])]
  | e :: rest =>
    if e.1 = o then (o, e.2 ++ [id]) :: rest
    else if e.1.rank < o.rank then e :: pushEdge o id rest
    else (o, [id]) :: e :: rest

/-- Takes an id out of every list, and the lists away that run empty. -/
def dropEdge (id : NodeId) (es : EdgeLists) : EdgeLists :=
  leading (es.map fun e => (e.1, e.2.filter (· ≠ id)))

end Tree

/-- Effects side by side. -/
structure Arena where
  nodes : Finmap fun _ : NodeId => Record
  edges : Finmap fun _ : NodeId => EdgeLists
  roots : List NodeId
deriving DecidableEq

namespace Arena

open Spellwork.Tree

/-- The arena without effects. -/
def empty : Arena := ⟨∅, ∅, []⟩

/-! ## Looking things up -/

/-- The record of an id. -/
def get? (a : Arena) (id : NodeId) : Option Record :=
  a.nodes.lookup id

/-- Whether an id is there. -/
def contains (a : Arena) (id : NodeId) : Bool :=
  (a.get? id).isSome

/-- The edges that go out from an id. -/
def edgesOf (a : Arena) (id : NodeId) : EdgeLists :=
  (a.edges.lookup id).getD []

/-- The ids under one outcome of an effect, in order. -/
def childrenOf (a : Arena) (id : NodeId) (o : Outcome) : List NodeId :=
  listUnder (a.edgesOf id) o

/-! ## Walks -/

/-- The ids directly below an effect, edge by edge. -/
def successors (a : Arena) (id : NodeId) : List NodeId :=
  (leading (a.edgesOf id)).flatMap (·.2)

/-- The ids met from the roots, each one before those below it. No id is listed twice, so the walk
is over after as many steps as there are records. -/
def preorder (a : Arena) : List NodeId :=
  walk a.successors a.nodes.keys.card a.roots

/-- The records in the order of the walk. -/
def inPreorder (a : Arena) : List Record :=
  a.preorder.filterMap a.get?

/-- The records with which the arena is stored. -/
def flatten (a : Arena) : List Record :=
  a.inPreorder.map (rehome none none)

/-- The first record, in the order of the walk, whose effect has a property. -/
def findEffect? (a : Arena) (p : Effect → Bool) : Option Record :=
  a.inPreorder.find? fun r => p r.effect

/-! ## Writing -/

/-- Writes a record under an id. -/
def store (id : NodeId) (r : Record) (a : Arena) : Arena :=
  { a with nodes := a.nodes.insert id r }

/-- Puts an id last among the roots. -/
def pushRoot (id : NodeId) (a : Arena) : Arena :=
  { a with roots := a.roots ++ [id] }

/-- Puts an id last under an outcome of an effect. -/
def pushChild (parent : NodeId) (o : Outcome) (id : NodeId) (a : Arena) : Arena :=
  { a with edges := a.edges.insert parent (pushEdge o id (a.edgesOf parent)) }

/-- Lists an id last in a place. -/
def enlist (slot : Slot) (id : NodeId) (a : Arena) : Arena :=
  match slot with
  | none => a.pushRoot id
  | some (parent, o) => a.pushChild parent o id

/-- Takes an id out of the edges of an effect, and these away if none is left. -/
def dropChild (parent id : NodeId) (a : Arena) : Arena :=
  match a.edges.lookup parent with
  | none => a
  | some es =>
    let es := dropEdge id es
    { a with edges := if (leading es).isEmpty then a.edges.erase parent
        else a.edges.insert parent es }

/-- Takes an id out of the roots. -/
def dropRoot (id : NodeId) (a : Arena) : Arena :=
  { a with roots := a.roots.filter (· ≠ id) }

/-- Takes an id off the lists of its parent, or off the roots if it has none. -/
def delist (parent : Option NodeId) (id : NodeId) (a : Arena) : Arena :=
  match parent with
  | some parent => a.dropChild parent id
  | none => a.dropRoot id

/-- Forgets the records of ids and the edges that go out from them. -/
def forget (ids : List NodeId) (a : Arena) : Arena :=
  { a with
    nodes := ids.foldl (fun m id => m.erase id) a.nodes
    edges := ids.foldl (fun m id => m.erase id) a.edges }

/-- Changes the effect of an id, if it is there. -/
def adjust (id : NodeId) (change : Effect → Effect) (a : Arena) : Arena :=
  match a.get? id with
  | some r => a.store id { r with effect := change r.effect }
  | none => a

/-! ## Edits -/

/-- Whether an effect may stand under an outcome of the effect found at the id `parent`. -/
def allows (a : Arena) (parent : NodeId) (o : Outcome) (id : NodeId) (effect : Effect) :
    Except EditError Unit :=
  checkEdge ((a.get? parent).map Record.effect) parent o id effect

/-- Whether a new effect may stand last in a place. -/
def verdict (a : Arena) (slot : Slot) (id : NodeId) (effect : Effect) : Except EditError Unit :=
  if a.contains id then .error (.duplicateId id)
  else
    match slot with
    | none => if effect.isDamageOutcome then .error (.outcomeAsRoot id) else .ok ()
    | some (parent, o) => a.allows parent o id effect

/-- Puts a new effect last in a place of the arena at hand: once it is allowed, the id is listed,
and then its record is written. -/
def attach (slot : Slot) (id : NodeId) (effect : Effect) :
    ExceptT EditError (StateM Arena) Unit := do
  liftExcept ((← get).verdict slot id effect)
  modify (enlist slot id)
  modify (store id ⟨id, slot.map Prod.fst, slot.map Prod.snd, effect⟩)

/-- A copy of the arena with a new effect last in a place. -/
def insert (slot : Slot) (id : NodeId) (effect : Effect) (a : Arena) : Except EditError Arena :=
  match (attach slot id effect).run a with
  | (.ok (), a) => .ok a
  | (.error e, _) => .error e

/-- A copy of the arena with the effect of an id changed, where the result is allowed. -/
def update (id : NodeId) (change : Effect → Effect) (a : Arena) : Except EditError Arena :=
  match a.get? id with
  | none => .error (.unknownNode id)
  | some r =>
    match checkChange { r with id } (leading (a.edgesOf id)) (change r.effect) with
    | .error e => .error e
    | .ok () => .ok (a.adjust id change)

/-- A copy of the arena without an effect and all that stands below it. What goes is told by the
parents that the stored records name; the lists are told by the header of the effect. -/
def delete (id : NodeId) (a : Arena) : Except EditError Arena :=
  match a.get? id with
  | none => .error (.unknownNode id)
  | some r =>
    let gone := doomed id a.flatten
    .ok ((a.delist r.parent id).forget gone)

/-! ## Loading -/

/-- Writes a record that is not listed yet. -/
def insertUnlinked (a : Arena) (r : Record) : Except EditError Arena :=
  if a.contains r.id then .error (.duplicateId r.id) else .ok (a.store r.id r)

/-- Lists an id in the place that its record names. -/
def link (a : Arena) (id : NodeId) : Except EditError Arena :=
  match a.get? id with
  | none => .error (.unknownNode id)
  | some r =>
    match r.parent with
    | none =>
      if r.effect.isDamageOutcome then .error (.outcomeAsRoot r.id) else .ok (a.enlist none r.id)
    | some parent =>
      match r.outcome with
      | none => .error (.missingOutcome r.id)
      | some o =>
        match a.allows parent o r.id r.effect with
        | .error e => .error e
        | .ok () => .ok (a.enlist (some (parent, o)) r.id)

/-- The arena of records: all of them are written, then all are listed, and then each one has to be
met from the roots. -/
def ofRecords? (rs : List Record) : Except StorageError Arena :=
  match rs.foldlM insertUnlinked empty with
  | .error e => .error (.edit e)
  | .ok a =>
    let order := rs.map Record.id
    match order.foldlM link a with
    | .error e => .error (.edit e)
    | .ok a =>
      let met := a.preorder
      if met.length = order.length then .ok a
      else
        match order.find? fun id => !met.contains id with
        | some id => .error (.cycle id)
        | none => .ok a

end Arena

end Spellwork
