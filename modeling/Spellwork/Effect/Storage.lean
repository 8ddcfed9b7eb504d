import Spellwork.Effect.Edit

/-!
# Stored trees

A tree is stored as a list of records, each one naming its place. `Tree.ofRecords?` builds the tree
again from records in any order: the records without a parent become the roots, and those naming
the same place stand there in the order of the list. It refuses repeated ids, places that are not
allowed, and records from which no chain of parents leads to a root.
-/

namespace Spellwork

/-- Why records are not those of a tree. -/
inductive StorageError where
  | edit (e : EditError)
  | cycle (id : NodeId)
deriving DecidableEq, Repr

/-- The message. -/
def StorageError.message : StorageError → String
  | edit e => e.message
  | cycle id => "node `" ++ id ++ "` is not reachable from any root (parent cycle)"

namespace Tree

/-- The first id that stands a second time, given the ids seen before. -/
def repeatedId? : (seen : List NodeId) → List Record → Option NodeId
  | _, [] => none
  | seen, r :: rest => if seen.contains r.id then some r.id else repeatedId? (r.id :: seen) rest

/-- What is wrong with the place that a record names. -/
def placeError? (rs : List Record) (r : Record) : Option EditError :=
  match r.parent, r.outcome with
  | none, _ => if r.effect.isDamageOutcome then some (.outcomeAsRoot r.id) else none
  | some _, none => some (.missingOutcome r.id)
  | some parent, some o =>
    let owner := (rs.find? fun p => p.id = parent).map Record.effect
    match checkEdge owner parent o r.id r.effect with
    | .error e => some e
    | .ok () => none

/-- Puts a record among others, behind those that its outcome does not come before. -/
def placeRecord (r : Record) : List Record → List Record
  | [] => [r]
  | s :: rest =>
    if notAfter s.outcome r.outcome then s :: placeRecord r rest else r :: s :: rest

/-- The records that name a parent, or none, in the order in which they stand in the tree. -/
def recordsOf (rs : List Record) : (parent : Option NodeId) → List Record
  | none => rs.filter fun r => r.parent.isNone
  | some p => (rs.filter fun r => r.parent = some p).foldl (fun done r => placeRecord r done) []

/-- The ids that a walk over the records from the roots meets. It meets no id twice, so it is over
after as many steps as there are records, whatever cycles there are elsewhere. -/
def reachable (rs : List Record) : List NodeId :=
  walk (fun id => (recordsOf rs (some id)).map Record.id) rs.length
    ((recordsOf rs none).map Record.id)

/-- The forest of the records below a parent, at most `fuel` of them above one another. -/
def grow (rs : List Record) : (fuel : Nat) → (parent : Option NodeId) → Tree
  | 0, _ => .nil
  | fuel + 1, parent =>
    (recordsOf rs parent).foldr (fun r rest => .node r.node (grow rs fuel (some r.id)) rest) .nil

/-- The tree that records describe. -/
def ofRecords? (rs : List Record) : Except StorageError Tree :=
  match repeatedId? [] rs with
  | some id => .error (.edit (.duplicateId id))
  | none =>
    match rs.findSome? (placeError? rs) with
    | some e => .error (.edit e)
    | none =>
      let met := reachable rs
      if met.length = rs.length then .ok (grow rs rs.length none)
      else
        match rs.find? fun r => !met.contains r.id with
        | some r => .error (.cycle r.id)
        | none => .ok (grow rs rs.length none)

end Tree

end Spellwork
