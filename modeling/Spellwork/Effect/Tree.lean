import Spellwork.Effect.Basic
import Spellwork.Forest
import Spellwork.Random.Mint

/-!
# Effect trees

The effects of an ability as a forest: what happens first at the roots, and below an effect what
follows from it, each under an outcome. A tree is looked at through its ids: the effect of an id,
the ids under an outcome, the order of all ids, and the records in which the tree is stored.
-/

namespace Spellwork

/-- An effect in its place: its id, and the outcome of the effect above under which it stands. A
root has no effect above; an outcome found on a root says nothing and is only kept. -/
structure Node where
  id : NodeId
  outcome : Option Outcome
  effect : Effect
deriving DecidableEq, Repr

/-- An effect with the place it is stored for: the id and the outcome of the effect above. -/
structure Record where
  id : NodeId
  parent : Option NodeId
  outcome : Option Outcome
  effect : Effect
deriving DecidableEq, Repr

/-- The part of a record that stands at a node. -/
def Record.node (r : Record) : Node :=
  ⟨r.id, r.outcome, r.effect⟩

/-- A tree of effects. -/
abbrev Tree := Forest Node

namespace Tree

/-! ## Records -/

/-- The records of a forest that stands below an effect, or at the roots. -/
def recordsBelow : (parent : Option NodeId) → Tree → List Record
  | _, .nil => []
  | parent, .node n children rest =>
    ⟨n.id, parent, n.outcome, n.effect⟩ ::
      (recordsBelow (some n.id) children ++ recordsBelow parent rest)

/-- The records of a tree, each one before those below it. -/
def records (t : Tree) : List Record :=
  recordsBelow none t

/-- Puts a record that has no place yet under an effect, or among the roots. -/
def rehome (parent : Option NodeId) (outcome : Option Outcome) (r : Record) : Record :=
  if r.parent.isNone then { r with parent, outcome } else r

/-- The records with which a tree is stored below an effect of another tree. -/
def flattenUnder (parent : Option NodeId) (outcome : Option Outcome) (t : Tree) : List Record :=
  t.records.map (rehome parent outcome)

/-- The records with which a tree is stored. -/
def flatten (t : Tree) : List Record :=
  t.flattenUnder none none

/-! ## Looking things up -/

/-- The record of an id. -/
def get? (t : Tree) (id : NodeId) : Option Record :=
  t.records.find? fun r => r.id = id

/-- Whether an id stands in the tree. -/
def contains (t : Tree) (id : NodeId) : Bool :=
  (t.get? id).isSome

/-- The ids of the roots, in order. -/
def roots (t : Tree) : List NodeId :=
  t.rootLabels.map Node.id

/-- What stands directly below an effect, with its outcomes. -/
def branches (t : Tree) (id : NodeId) : List (Outcome × NodeId) :=
  match t.below? fun n => n.id = id with
  | some children => children.rootLabels.filterMap fun n => n.outcome.map fun o => (o, n.id)
  | none => []

/-- The ids under one outcome of an effect, in order. -/
def childrenOf (t : Tree) (id : NodeId) (o : Outcome) : List NodeId :=
  ((t.branches id).filter fun b => b.1 = o).map (·.2)

/-- Neighbours with the same outcome, put together. -/
def gather : List (Outcome × NodeId) → List (Outcome × List NodeId)
  | [] => []
  | (o, id) :: rest =>
    match gather rest with
    | [] => [(o, [id])]
    | (o', ids) :: more => if o = o' then (o, id :: ids) :: more else (o, [id]) :: (o', ids) :: more

/-- The edges of an effect in the order of outcomes, if it has any. Each one leads to at least one
effect. -/
def edges? (t : Tree) (id : NodeId) : Option (List (Outcome × List NodeId)) :=
  match gather (t.branches id) with
  | [] => none
  | edges => some edges

/-! ## Walks -/

/-- A walk with a stack: takes the id on top, puts those that follow it in its place, and goes on
for at most `fuel` ids. -/
def walk (next : NodeId → List NodeId) : (fuel : Nat) → (stack : List NodeId) → List NodeId
  | 0, _ => []
  | _, [] => []
  | fuel + 1, id :: stack => id :: walk next fuel (next id ++ stack)

/-- The ids directly below an effect, edge by edge. -/
def successors (t : Tree) (id : NodeId) : List NodeId :=
  ((t.edges? id).getD []).flatMap (·.2)

/-- All ids: each root in order, and after an id what stands below it, edge by edge. -/
def preorder (t : Tree) : List NodeId :=
  walk t.successors t.size t.roots

/-- The ids below an effect, in the order of `preorder`. -/
def descendants (t : Tree) (id : NodeId) : List NodeId :=
  (walk t.successors t.size [id]).filter (· ≠ id)

/-- The first record, in the order of `preorder`, whose effect has a property. -/
def findEffect? (t : Tree) (p : Effect → Bool) : Option Record :=
  t.records.find? fun r => p r.effect

end Tree

end Spellwork
