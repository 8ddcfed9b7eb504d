import Spellwork.Effect.Outcome

/-!
# Effects

What a single step of an ability does: deal damage, heal, impose a condition, call for a saving
throw, say how much of some damage applies, or just say something. An effect owns others under the
outcomes that `Effect.canOwn` allows.
-/

namespace Spellwork

/-- The kinds of damage. -/
inductive DamageType where
  | acid
  | bludgeoning
  | cold
  | fire
  | force
  | lightning
  | necrotic
  | piercing
  | poison
  | psychic
  | radiant
  | slashing
  | thunder
deriving DecidableEq, Repr

namespace DamageType

/-- Every kind of damage. -/
def all : List DamageType :=
  [acid, bludgeoning, cold, fire, force, lightning, necrotic, piercing, poison, psychic, radiant,
    slashing, thunder]

/-- The name. -/
def name : DamageType → String
  | acid => "acid"
  | bludgeoning => "bludgeoning"
  | cold => "cold"
  | fire => "fire"
  | force => "force"
  | lightning => "lightning"
  | necrotic => "necrotic"
  | piercing => "piercing"
  | poison => "poison"
  | psychic => "psychic"
  | radiant => "radiant"
  | slashing => "slashing"
  | thunder => "thunder"

/-- The kind of damage with exactly this name. -/
def ofName? (s : String) : Option DamageType :=
  all.find? fun d => d.name = s

theorem ofName?_name (d : DamageType) : ofName? d.name = some d := by
  cases d <;> decide

end DamageType

/-- The abilities that a saving throw is made with. -/
inductive Ability where
  | strength
  | dexterity
  | intelligence
  | will
deriving DecidableEq, Repr

namespace Ability

/-- Every ability. -/
def all : List Ability := [strength, dexterity, intelligence, will]

/-- The name. -/
def name : Ability → String
  | strength => "strength"
  | dexterity => "dexterity"
  | intelligence => "intelligence"
  | will => "will"

end Ability

/-- What a roll left behind on the effect that it was made for. -/
structure RollNote where
  total : Int64
  isCritical : Bool
  isMiss : Bool
deriving DecidableEq, Repr

/-- Damage, by a dice formula. -/
structure Damage where
  damageType : DamageType
  formula : String
  canCrit : Option Bool := none
  canMiss : Option Bool := none
  rollNote : Option RollNote := none
deriving DecidableEq, Repr

/-- Whether the primary die of the damage can be a critical hit; it can unless told otherwise. -/
def Damage.critAllowed (d : Damage) : Bool :=
  d.canCrit.getD true

/-- Whether the primary die of the damage can miss; it can unless told otherwise. -/
def Damage.missAllowed (d : Damage) : Bool :=
  d.canMiss.getD true

/-- Healing that lasts, or a buffer that wears off. -/
inductive HealingType where
  | healing
  | temporaryHealing
deriving DecidableEq, Repr

namespace HealingType

/-- Both kinds of healing. -/
def all : List HealingType := [healing, temporaryHealing]

/-- The name. -/
def name : HealingType → String
  | healing => "healing"
  | temporaryHealing => "temporaryHealing"

end HealingType

/-- Healing, by a dice formula. -/
structure Healing where
  healingType : HealingType := .healing
  formula : String
  rollNote : Option RollNote := none
deriving DecidableEq, Repr

/-- How to get free of a condition. -/
structure Escape where
  dc : UInt32
  ability : Option Ability
deriving DecidableEq, Repr

/-- A condition imposed on the target. -/
structure Condition where
  condition : String
  escape : Option Escape := none
deriving DecidableEq, Repr

/-- A saving throw. -/
structure SavingThrow where
  ability : Ability
  dc : Option UInt32
deriving DecidableEq, Repr

/-- The part of rolled damage that applies. -/
inductive Portion where
  | fullDamage
  | halfDamage
deriving DecidableEq, Repr

namespace Portion

/-- Both portions. -/
def all : List Portion := [fullDamage, halfDamage]

/-- The name. -/
def name : Portion → String
  | fullDamage => "fullDamage"
  | halfDamage => "halfDamage"

end Portion

/-- The kinds of notes. -/
inductive NoteType where
  | general
  | flavor
  | reminder
  | warning
deriving DecidableEq, Repr

namespace NoteType

/-- Every kind of note. -/
def all : List NoteType := [general, flavor, reminder, warning]

/-- The name. -/
def name : NoteType → String
  | general => "general"
  | flavor => "flavor"
  | reminder => "reminder"
  | warning => "warning"

end NoteType

/-- Text without mechanical effect. -/
structure Note where
  noteType : NoteType := .general
  text : String
deriving DecidableEq, Repr

/-- An effect. -/
inductive Effect where
  | damage (d : Damage)
  | healing (h : Healing)
  | condition (c : Condition)
  | savingThrow (s : SavingThrow)
  | damageOutcome (p : Portion)
  | text (n : Note)
deriving DecidableEq, Repr

namespace Effect

/-- The name of the kind of effect. -/
def typeName : Effect → String
  | damage _ => "damage"
  | healing _ => "healing"
  | condition _ => "condition"
  | savingThrow _ => "savingThrow"
  | damageOutcome _ => "damageOutcome"
  | text _ => "text"

/-- The names of the kinds, in the order of their numbers. -/
def typeNames : List String :=
  ["damage", "healing", "condition", "savingThrow", "damageOutcome", "text"]

theorem typeName_mem_typeNames (e : Effect) : e.typeName ∈ typeNames := by
  cases e <;> simp [typeName, typeNames]

/-- Whether the effect may own others under an outcome: damage under the outcomes of an attack, a
saving throw under its shared rolls and the outcomes of the save, and no other effect. -/
def canOwn : Effect → Outcome → Bool
  | damage _, o => o.isAttack
  | savingThrow _, o => o = .sharedRolls || o.isSave
  | _, _ => false

/-- Damage. -/
def isDamage : Effect → Bool
  | damage _ => true
  | _ => false

/-- Healing. -/
def isHealing : Effect → Bool
  | healing _ => true
  | _ => false

/-- A marker of how much damage applies. -/
def isDamageOutcome : Effect → Bool
  | damageOutcome _ => true
  | _ => false

/-- The formula that is rolled for the effect, if there is one. -/
def formula? : Effect → Option String
  | damage d => some d.formula
  | healing h => some h.formula
  | _ => none

/-- Puts the result of a roll on damage or healing. -/
def withRollNote (note : RollNote) : Effect → Effect
  | damage d => damage { d with rollNote := some note }
  | healing h => healing { h with rollNote := some note }
  | e => e

/-- Writes more text at the end of a formula. -/
def appendFormula (more : String) : Effect → Effect
  | damage d => damage { d with formula := d.formula ++ more }
  | healing h => healing { h with formula := h.formula ++ more }
  | e => e

end Effect

end Spellwork
