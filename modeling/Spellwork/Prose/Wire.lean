import Spellwork.Effect.Wire
import Spellwork.Prose.Action

/-!
# Actions in Json

The records that reading actions takes and gives.
-/

namespace Spellwork

open Json

namespace Range

/-- A range. -/
def ofJson? : Json → Option Range :=
  record? fun ms => do
    let kind ← ms.required? "kind" (named? RangeKind.name RangeKind.all)
    let distance ← ms.required? "distance" uint32?
    let width ← ms.optional? "width" uint32?
    return { kind, distance, width }

/-- A range. -/
def toJson (r : Range) : Json :=
  .object ([("kind", .string r.kind.name), ("distance", ofUInt32 r.distance)] ++
    memberIfSome "width" ofUInt32 r.width)

end Range

namespace Action

/-- An action. -/
def ofJson? : Json → Option Action :=
  record? fun ms => do
    let name ← ms.defaulted? "name" "" string?
    let description ← ms.defaulted? "description" "" string?
    let damageFormula ← ms.optional? "damageFormula" string?
    let range ← ms.optional? "range" Range.ofJson?
    return { name, description, damageFormula, range }

/-- An action. -/
def toJson (a : Action) : Json :=
  .object ([("name", .string a.name), ("description", .string a.description)] ++
    memberIfSome "damageFormula" Json.string a.damageFormula ++
    memberIfSome "range" Range.toJson a.range)

end Action

/-- An action that was read. -/
def ParsedAction.toJson (a : ParsedAction) : Json :=
  .object [("name", .string a.name), ("effects", Record.listToJson a.effects),
    ("range", ofOption Range.toJson a.range)]

namespace Prose

namespace SaveClause

/-- A saving throw found in a text. -/
def ofJson? : Json → Option SaveClause :=
  record? fun ms => do
    let dc ← ms.required? "dc" uint32?
    let ability ← ms.required? "saveType" Ability.ofJson?
    let halfOnSave ← ms.required? "halfOnSave" bool?
    let consequence ← ms.optional? "consequence" string?
    return { dc, ability, halfOnSave, consequence }

/-- A saving throw found in a text. -/
def toJson (s : SaveClause) : Json :=
  .object [("dc", ofUInt32 s.dc), ("saveType", s.ability.toJson),
    ("halfOnSave", .bool s.halfOnSave), ("consequence", ofOption Json.string s.consequence)]

end SaveClause

namespace ConditionClause

/-- A condition found in a text. -/
def ofJson? : Json → Option ConditionClause :=
  record? fun ms => do
    let condition ← ms.required? "condition" string?
    let outcome ← ms.required? "context" Outcome.ofJson?
    let escape ← ms.optional? "escape" Escape.ofJson?
    return { condition, outcome, escape }

/-- A condition found in a text. -/
def toJson (c : ConditionClause) : Json :=
  .object ([("condition", .string c.condition), ("context", c.outcome.toJson)] ++
    memberIfSome "escape" Escape.toJson c.escape)

end ConditionClause

end Prose

end Spellwork
