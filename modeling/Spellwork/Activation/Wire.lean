import Spellwork.Activation.Basic
import Spellwork.Json.Record

/-!
# Activation in Json

The records that an activation takes and gives.
-/

namespace Spellwork

open Json

namespace PrimaryConfig

/-- How the primary die is rolled. -/
def ofJson? : Json → Option PrimaryConfig :=
  record? fun ms => do
    let canCrit ← ms.required? "canCrit" bool?
    let canMiss ← ms.required? "canMiss" bool?
    let rollMode ← ms.required? "rollMode" int32?
    let pinned ← ms.optional? "primaryDieValue" uint32?
    let modifier ← ms.required? "primaryDieModifier" int64?
    return { canCrit, canMiss, rollMode, pinned, modifier }

/-- How the primary die is rolled. -/
def toJson (c : PrimaryConfig) : Json :=
  .object [("canCrit", .bool c.canCrit), ("canMiss", .bool c.canMiss),
    ("rollMode", ofInt32 c.rollMode), ("primaryDieValue", ofOption ofUInt32 c.pinned),
    ("primaryDieModifier", ofInt64 c.modifier)]

end PrimaryConfig

namespace PrimaryDie

/-- A primary die. -/
def ofJson? : Json → Option PrimaryDie :=
  record? fun ms => do
    let faces ← ms.required? "faces" uint32?
    let natural ← ms.required? "natural" uint32?
    let discarded ← ms.required? "discarded" (list? uint32?)
    let explosions ← ms.required? "explosions" (list? uint32?)
    return { faces, natural, discarded, explosions }

/-- A primary die. -/
def toJson (d : PrimaryDie) : Json :=
  .object [("faces", ofUInt32 d.faces), ("natural", ofUInt32 d.natural),
    ("discarded", ofList ofUInt32 d.discarded), ("explosions", ofList ofUInt32 d.explosions)]

end PrimaryDie

namespace Roll

/-- A roll. -/
def ofJson? : Json → Option Roll :=
  record? fun ms => do
    let formula ← ms.required? "formula" string?
    let total ← ms.required? "total" int64?
    let faces ← ms.required? "faces" (list? uint32?)
    let primary ← ms.optional? "primary" PrimaryDie.ofJson?
    let isCritical ← ms.required? "isCritical" bool?
    let isMiss ← ms.required? "isMiss" bool?
    return { formula, total, faces, primary, isCritical, isMiss }

/-- A roll. -/
def toJson (r : Roll) : Json :=
  .object [("formula", .string r.formula), ("total", ofInt64 r.total),
    ("faces", ofList ofUInt32 r.faces), ("primary", ofOption PrimaryDie.toJson r.primary),
    ("isCritical", .bool r.isCritical), ("isMiss", .bool r.isMiss)]

end Roll

/-- A kind of subject, by its name. -/
def Subject.ofJson? : Json → Option Subject :=
  named? Subject.name Subject.all

/-- A kind of subject, by its name. -/
def Subject.toJson (s : Subject) : Json :=
  .string s.name

namespace Actor

/-- An actor. -/
def ofJson? : Json → Option Actor :=
  record? fun ms => do
    let actorType ← ms.required? "actorType" (named? ActorType.name ActorType.all)
    let rollData ← ms.defaulted? "rollData" [] (map? int64?)
    return { actorType, rollData }

/-- An actor. -/
def toJson (a : Actor) : Json :=
  .object [("actorType", .string a.actorType.name),
    ("rollData", .object (a.rollData.map fun pair => (pair.1, ofInt64 pair.2)))]

end Actor

namespace ActivationOptions

/-- Choices made for one activation. -/
def ofJson? : Json → Option ActivationOptions :=
  record? fun ms => do
    let rollMode ← ms.defaulted? "rollMode" 0 int32?
    let pinned ← ms.optional? "primaryDieValue" uint32?
    let modifier ← ms.defaulted? "primaryDieModifier" 0 int64?
    let fastForward ← ms.defaulted? "fastForward" false bool?
    return { rollMode, pinned, modifier, fastForward }

/-- Choices made for one activation. -/
def toJson (o : ActivationOptions) : Json :=
  .object ([("rollMode", ofInt32 o.rollMode)] ++
    memberIfSome "primaryDieValue" ofUInt32 o.pinned ++
    [("primaryDieModifier", ofInt64 o.modifier), ("fastForward", .bool o.fastForward)])

end ActivationOptions

/-- A roll with the effect that it was made for. -/
def ResolvedRoll.toJson (r : ResolvedRoll) : Json :=
  .object [("nodeId", .string r.id), ("kind", .string r.kind.name),
    ("formula", .string r.roll.formula), ("total", ofInt64 r.roll.total),
    ("natural", ofOption ofUInt32 r.natural), ("isCritical", .bool r.roll.isCritical),
    ("isMiss", .bool r.roll.isMiss), ("config", ofOption PrimaryConfig.toJson r.config)]

end Spellwork
