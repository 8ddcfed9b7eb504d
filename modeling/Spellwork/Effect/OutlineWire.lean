import Spellwork.Effect.Outline

/-!
# Outlines in Json

The authored form: an effect as an object with its outcomes under `on`, or a string of shorthand.
Empty lists are left out, and so is `on` when nothing stands below any outcome.
-/

namespace Spellwork

open Json

namespace Outline

/-- What stands below graded failures, in the order of the keys. -/
def gradedOfJson? (decode : Json → Option Outline) (v : Json) :
    Option (List (String × List Outline)) :=
  (map? (list? decode) v).map inKeyOrder

/-- What stands below an effect, given how to decode one outline. -/
def edgesOfMembers? (decode : Json → Option Outline) (ms : Members) :
    Option (OutlineEdges Outline) := do
  let hit ← ms.defaulted? "hit" [] (list? decode)
  let miss ← ms.defaulted? "miss" [] (list? decode)
  let criticalHit ← ms.defaulted? "criticalHit" [] (list? decode)
  let failedSave ← ms.defaulted? "failedSave" [] (list? decode)
  let passedSave ← ms.defaulted? "passedSave" [] (list? decode)
  let failedSaveBy ← ms.defaulted? "failedSaveBy" [] (gradedOfJson? decode)
  return { hit, miss, criticalHit, failedSave, passedSave, failedSaveBy }

/-- An effect written out, given how to decode the outlines below it. -/
def effectOfMembers? (decode : Json → Option Outline) (ms : Members) : Option Outline := do
  let id ← ms.optional? "id" string?
  let sharedRolls ← ms.defaulted? "sharedRolls" [] (list? decode)
  let on ← ms.defaulted? "on" {} (record? (edgesOfMembers? decode))
  let e ← Effect.ofMembers? ms
  return .full id e sharedRolls on

/-- An outline whose value is at most `fuel` deep. -/
def decode? : (fuel : Nat) → Json → Option Outline
  | _, .string text => some (.shorthand text)
  | 0, _ => none
  | fuel + 1, v => v.record? (effectOfMembers? (decode? fuel))

/-- An outline. -/
def ofJson? (v : Json) : Option Outline :=
  decode? v.depth v

/-- An outline of an effect that is written out. -/
def effectOfJson? (v : Json) : Option Outline :=
  match ofJson? v with
  | some (.full id e sharedRolls on) => some (.full id e sharedRolls on)
  | _ => none

/-- A list of outlines. -/
def listOfJson? : Json → Option (List Outline) :=
  list? ofJson?

/-- A member that is left out when the list is empty. -/
def memberIfAny (name : String) (items : List Json) : Members :=
  if items.isEmpty then [] else [(name, .array items)]

mutual

/-- An outline. -/
def toJson : Outline → Json
  | .shorthand text => .string text
  | .full id e sharedRolls on =>
    .object (memberIfSome "id" Json.string id ++ e.toMembers ++
      memberIfAny "sharedRolls" (toJsons sharedRolls) ++
      if on.isEmpty then [] else [("on", .object (edgesToMembers on))])

/-- Outlines one after the other. -/
def toJsons : List Outline → List Json
  | [] => []
  | outline :: rest => outline.toJson :: toJsons rest

/-- What stands below an effect. -/
def edgesToMembers : OutlineEdges Outline → Members
  | ⟨hit, miss, criticalHit, failedSave, passedSave, failedSaveBy⟩ =>
    memberIfAny "hit" (toJsons hit) ++ memberIfAny "miss" (toJsons miss) ++
      memberIfAny "criticalHit" (toJsons criticalHit) ++
      memberIfAny "failedSave" (toJsons failedSave) ++
      memberIfAny "passedSave" (toJsons passedSave) ++
      if failedSaveBy.isEmpty then []
      else [("failedSaveBy", .object (gradedToMembers failedSaveBy))]

/-- What stands below graded failures. -/
def gradedToMembers : List (String × List Outline) → Members
  | [] => []
  | (key, outlines) :: rest => (key, .array (toJsons outlines)) :: gradedToMembers rest

end

/-- Reads an authored text. -/
def readList? (text : String) : Option (List Outline) :=
  (Json.read? text).bind listOfJson?

/-- The authored text of outlines. -/
def writeList (outlines : List Outline) : String :=
  (Json.array (toJsons outlines)).toText

end Outline

end Spellwork
