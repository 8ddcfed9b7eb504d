import Spellwork.Effect.Storage
import Spellwork.Json.Reader
import Spellwork.Json.Record
import Spellwork.Json.Writer

/-!
# Effects in Json

The stored form of effects, of records and of whole trees. An effect is a flat object: its kind
under `type`, and the fields of that kind beside it; a record puts its id and its place into the
same object. Fields that are none are left out, but the place is always written. Kinds are written
by name; where an effect shares its object with other fields, the number of the kind is read as
well.
-/

namespace Spellwork

open Json

/-! ## Values -/

/-- An outcome, by its name. -/
def Outcome.ofJson? (v : Json) : Option Outcome :=
  v.string?.bind Outcome.ofName?

/-- An outcome, by its name. -/
def Outcome.toJson (o : Outcome) : Json :=
  .string o.name

/-- A kind of damage, by its name. -/
def DamageType.ofJson? : Json → Option DamageType :=
  named? DamageType.name DamageType.all

/-- A kind of damage, by its name. -/
def DamageType.toJson (d : DamageType) : Json :=
  .string d.name

/-- An ability, by its name. -/
def Ability.ofJson? : Json → Option Ability :=
  named? Ability.name Ability.all

/-- An ability, by its name. -/
def Ability.toJson (a : Ability) : Json :=
  .string a.name

/-- The result of a roll. -/
def RollNote.ofJson? : Json → Option RollNote :=
  record? fun ms => do
    let total ← ms.required? "total" int64?
    let isCritical ← ms.required? "isCritical" bool?
    let isMiss ← ms.required? "isMiss" bool?
    return { total, isCritical, isMiss }

/-- The result of a roll. -/
def RollNote.toJson (n : RollNote) : Json :=
  .object [("total", ofInt64 n.total), ("isCritical", .bool n.isCritical),
    ("isMiss", .bool n.isMiss)]

/-- A way out of a condition. -/
def Escape.ofJson? : Json → Option Escape :=
  record? fun ms => do
    let dc ← ms.required? "dc" uint32?
    let ability ← ms.optional? "ability" Ability.ofJson?
    return { dc, ability }

/-- A way out of a condition. -/
def Escape.toJson (e : Escape) : Json :=
  .object (("dc", ofUInt32 e.dc) :: memberIfSome "ability" Ability.toJson e.ability)

/-! ## Effects -/

/-- The fields of damage. -/
def Damage.ofMembers? (ms : Members) : Option Damage := do
  let damageType ← ms.required? "damageType" DamageType.ofJson?
  let formula ← ms.required? "formula" string?
  let canCrit ← ms.optional? "canCrit" bool?
  let canMiss ← ms.optional? "canMiss" bool?
  let rollNote ← ms.optional? "rollResult" RollNote.ofJson?
  return { damageType, formula, canCrit, canMiss, rollNote }

/-- The fields of damage. -/
def Damage.toMembers (d : Damage) : Members :=
  [("damageType", d.damageType.toJson), ("formula", .string d.formula)] ++
    memberIfSome "canCrit" Json.bool d.canCrit ++
    memberIfSome "canMiss" Json.bool d.canMiss ++
    memberIfSome "rollResult" RollNote.toJson d.rollNote

/-- The fields of healing. -/
def Healing.ofMembers? (ms : Members) : Option Healing := do
  let healingType ←
    ms.defaulted? "healingType" HealingType.healing (named? HealingType.name HealingType.all)
  let formula ← ms.required? "formula" string?
  let rollNote ← ms.optional? "rollResult" RollNote.ofJson?
  return { healingType, formula, rollNote }

/-- The fields of healing. -/
def Healing.toMembers (h : Healing) : Members :=
  [("healingType", .string h.healingType.name), ("formula", .string h.formula)] ++
    memberIfSome "rollResult" RollNote.toJson h.rollNote

/-- The fields of a condition. -/
def Condition.ofMembers? (ms : Members) : Option Condition := do
  let condition ← ms.required? "condition" string?
  let escape ← ms.optional? "escape" Escape.ofJson?
  return { condition, escape }

/-- The fields of a condition. -/
def Condition.toMembers (c : Condition) : Members :=
  ("condition", .string c.condition) :: memberIfSome "escape" Escape.toJson c.escape

/-- The fields of a saving throw. -/
def SavingThrow.ofMembers? (ms : Members) : Option SavingThrow := do
  let ability ← ms.required? "savingThrowType" Ability.ofJson?
  let dc ← ms.optional? "saveDC" uint32?
  return { ability, dc }

/-- The fields of a saving throw. -/
def SavingThrow.toMembers (s : SavingThrow) : Members :=
  ("savingThrowType", s.ability.toJson) :: memberIfSome "saveDC" ofUInt32 s.dc

/-- The field of a damage outcome. -/
def Portion.ofMembers? (ms : Members) : Option Portion :=
  ms.required? "outcome" (named? Portion.name Portion.all)

/-- The field of a damage outcome. -/
def Portion.toMembers (p : Portion) : Members :=
  [("outcome", .string p.name)]

/-- The fields of a note. -/
def Note.ofMembers? (ms : Members) : Option Note := do
  let noteType ← ms.defaulted? "noteType" NoteType.general (named? NoteType.name NoteType.all)
  let text ← ms.required? "text" string?
  return { noteType, text }

/-- The fields of a note. -/
def Note.toMembers (n : Note) : Members :=
  [("noteType", .string n.noteType.name), ("text", .string n.text)]

namespace Effect

/-- An effect of a kind, from the fields of that kind. -/
def ofFields? (ms : Members) : (typeName : String) → Option Effect
  | "damage" => (Damage.ofMembers? ms).map damage
  | "healing" => (Healing.ofMembers? ms).map healing
  | "condition" => (Condition.ofMembers? ms).map condition
  | "savingThrow" => (SavingThrow.ofMembers? ms).map savingThrow
  | "damageOutcome" => (Portion.ofMembers? ms).map damageOutcome
  | "text" => (Note.ofMembers? ms).map text
  | _ => none

/-- The name of a kind, which is given by the name or by its number. -/
def typeName? : Json → Option String
  | .string name => some name
  | .integer (.ofNat n) => typeNames[n]?
  | _ => none

/-- An effect, from an object that holds its kind and its fields among others. -/
def ofMembers? (ms : Members) : Option Effect :=
  (ms.required? "type" typeName?).bind (ofFields? ms)

/-- The fields of an effect besides its kind. -/
def fields : Effect → Members
  | damage d => d.toMembers
  | healing h => h.toMembers
  | condition c => c.toMembers
  | savingThrow s => s.toMembers
  | damageOutcome p => p.toMembers
  | text n => n.toMembers

/-- The kind and the fields of an effect. -/
def toMembers (e : Effect) : Members :=
  ("type", .string e.typeName) :: e.fields

/-- An effect that stands alone, with its kind by name. -/
def ofJson? : Json → Option Effect :=
  record? fun ms => (ms.required? "type" string?).bind (ofFields? ms)

/-- An effect. -/
def toJson (e : Effect) : Json :=
  .object e.toMembers

end Effect

/-! ## Records and trees -/

namespace Record

/-- A record. -/
def ofJson? : Json → Option Record :=
  record? fun ms => do
    let id ← ms.required? "id" string?
    let parent ← ms.optional? "parentNode" string?
    let outcome ← ms.optional? "parentContext" Outcome.ofJson?
    let effect ← Effect.ofMembers? ms
    return { id, parent, outcome, effect }

/-- A record. -/
def toJson (r : Record) : Json :=
  .object (("id", .string r.id) :: ("parentNode", ofOption Json.string r.parent) ::
    ("parentContext", ofOption Outcome.toJson r.outcome) :: r.effect.toMembers)

/-- A list of records. -/
def listOfJson? : Json → Option (List Record) :=
  list? ofJson?

/-- A list of records. -/
def listToJson : List Record → Json :=
  ofList toJson

/-- Reads stored records. -/
def readList? (text : String) : Option (List Record) :=
  (Json.read? text).bind listOfJson?

/-- The text that records are stored in. -/
def writeList (rs : List Record) : String :=
  (listToJson rs).toText

end Record

namespace Tree

/-- A tree, from its records. -/
def ofJson? (v : Json) : Option Tree :=
  match Record.listOfJson? v with
  | some rs =>
    match ofRecords? rs with
    | .ok t => some t
    | .error _ => none
  | none => none

/-- A tree, as its records. -/
def toJson (t : Tree) : Json :=
  Record.listToJson t.flatten

end Tree

end Spellwork
