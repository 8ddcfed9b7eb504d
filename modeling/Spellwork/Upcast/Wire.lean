import Spellwork.Effect.Wire
import Spellwork.Upcast.Apply

/-!
# Scaling in Json

The records that scaling takes and gives.
-/

namespace Spellwork

open Json

namespace DiceDelta

/-- Dice added in each step. -/
def ofJson? : Json → Option DiceDelta :=
  record? fun ms => do
    let count ← ms.required? "count" uint32?
    let faces ← ms.required? "faces" uint32?
    return { count, faces }

/-- Dice added in each step. -/
def toJson (d : DiceDelta) : Json :=
  .object [("count", ofUInt32 d.count), ("faces", ofUInt32 d.faces)]

end DiceDelta

/-- An operation, by its name. -/
def DeltaOperation.ofJson? : Json → Option DeltaOperation :=
  named? DeltaOperation.name DeltaOperation.all

namespace Delta

/-- A delta. -/
def ofJson? : Json → Option Delta :=
  record? fun ms => do
    let operation ← ms.required? "operation" DeltaOperation.ofJson?
    let value ← ms.optional? "value" int64?
    let dice ← ms.optional? "dice" DiceDelta.ofJson?
    let condition ← ms.optional? "condition" string?
    let target ← ms.optional? "targetEffectId" string?
    let durationType ← ms.optional? "durationType" string?
    return { operation, value, dice, condition, target, durationType }

/-- A delta. -/
def toJson (d : Delta) : Json :=
  .object ([("operation", .string d.operation.name)] ++ memberIfSome "value" ofInt64 d.value ++
    memberIfSome "dice" DiceDelta.toJson d.dice ++
    memberIfSome "condition" Json.string d.condition ++
    memberIfSome "targetEffectId" Json.string d.target ++
    memberIfSome "durationType" Json.string d.durationType)

end Delta

namespace ScalingChoice

/-- A named list of deltas. -/
def ofJson? : Json → Option ScalingChoice :=
  record? fun ms => do
    let label ← ms.required? "label" string?
    let deltas ← ms.defaulted? "deltas" [] (list? Delta.ofJson?)
    return { label, deltas }

/-- A named list of deltas. -/
def toJson (c : ScalingChoice) : Json :=
  .object [("label", .string c.label), ("deltas", ofList Delta.toJson c.deltas)]

end ScalingChoice

namespace Scaling

/-- Scaling rules. -/
def ofJson? : Json → Option Scaling :=
  record? fun ms => do
    let mode ← ms.defaulted? "mode" ScalingMode.none (named? ScalingMode.name ScalingMode.all)
    let deltas ← ms.defaulted? "deltas" [] (list? Delta.ofJson?)
    let choices ← ms.optional? "choices" (list? ScalingChoice.ofJson?)
    return { mode, deltas, choices }

/-- Scaling rules. -/
def toJson (s : Scaling) : Json :=
  .object [("mode", .string s.mode.name), ("deltas", ofList Delta.toJson s.deltas),
    ("choices", ofOption (ofList ScalingChoice.toJson) s.choices)]

end Scaling

namespace Targets

/-- Reach and number of targets. -/
def ofJson? : Json → Option Targets :=
  record? fun ms => do
    let distance ← ms.defaulted? "distance" 0 uint32?
    let count ← ms.defaulted? "count" 0 uint32?
    return { distance, count }

/-- Reach and number of targets. -/
def toJson (t : Targets) : Json :=
  .object [("distance", ofUInt32 t.distance), ("count", ofUInt32 t.count)]

end Targets

namespace Area

/-- An area. -/
def ofJson? : Json → Option Area :=
  record? fun ms => do
    let radius ← ms.optional? "radius" uint32?
    let length ← ms.optional? "length" uint32?
    return { radius, length }

/-- An area. -/
def toJson (a : Area) : Json :=
  .object (memberIfSome "radius" ofUInt32 a.radius ++ memberIfSome "length" ofUInt32 a.length)

end Area

namespace Duration

/-- A duration. -/
def ofJson? : Json → Option Duration :=
  record? fun ms => do
    let quantity ← ms.required? "quantity" uint32?
    let units ← ms.required? "units" string?
    return { quantity, units }

/-- A duration. -/
def toJson (d : Duration) : Json :=
  .object [("quantity", ofUInt32 d.quantity), ("units", .string d.units)]

end Duration

namespace Profile

/-- An ability. -/
def ofJson? : Json → Option Profile :=
  record? fun ms => do
    let tier ← ms.required? "tier" uint32?
    let scaling ← ms.defaulted? "scaling" {} Scaling.ofJson?
    let effects ← ms.defaulted? "effects" Forest.nil Tree.ofJson?
    let targets ← ms.optional? "targets" Targets.ofJson?
    let area ← ms.optional? "template" Area.ofJson?
    let duration ← ms.optional? "duration" Duration.ofJson?
    return { tier, scaling, effects, targets, area, duration }

/-- An ability. -/
def toJson (p : Profile) : Json :=
  .object ([("tier", ofUInt32 p.tier), ("scaling", p.scaling.toJson),
    ("effects", Tree.toJson p.effects)] ++ memberIfSome "targets" Targets.toJson p.targets ++
    memberIfSome "template" Area.toJson p.area ++
    memberIfSome "duration" Duration.toJson p.duration)

end Profile

namespace Resources

/-- What the caster can spend. -/
def ofJson? : Json → Option Resources :=
  record? fun ms => do
    let mana ← ms.required? "mana" uint32?
    let highestTier ← ms.required? "highestUnlockedTier" uint32?
    return { mana, highestTier }

/-- What the caster can spend. -/
def toJson (r : Resources) : Json :=
  .object [("mana", ofUInt32 r.mana), ("highestUnlockedTier", ofUInt32 r.highestTier)]

end Resources

namespace UpcastPlan

/-- A casting that is allowed. -/
def ofJson? : Json → Option UpcastPlan :=
  record? fun ms => do
    let steps ← ms.required? "steps" uint32?
    let baseCost ← ms.required? "baseCost" uint32?
    let totalCost ← ms.required? "totalCost" uint32?
    let choice ← ms.optional? "choice" uint64?
    return { steps, baseCost, totalCost, choice }

/-- A casting that is allowed. -/
def toJson (p : UpcastPlan) : Json :=
  .object ([("steps", ofUInt32 p.steps), ("baseCost", ofUInt32 p.baseCost),
    ("totalCost", ofUInt32 p.totalCost)] ++ memberIfSome "choice" ofUInt64 p.choice)

end UpcastPlan

/-- An ability after scaling. -/
def Scaled.toJson (s : Scaled) : Json :=
  .object [("effects", Tree.toJson s.effects), ("targets", ofOption Targets.toJson s.targets),
    ("template", ofOption Area.toJson s.area), ("duration", ofOption Duration.toJson s.duration),
    ("choiceLabel", ofOption Json.string s.label), ("steps", ofUInt32 s.steps)]

end Spellwork
