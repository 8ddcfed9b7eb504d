import Spellwork.Effect.Edit
import Spellwork.Text.Words

/-!
# Scaling

What an ability gains from extra mana. A delta is one gain per step; an ability has a fixed list of
them or several named lists to choose from. `Upcast.plan?` decides whether a casting is allowed and
how many steps it has.
-/

namespace Spellwork

/-- What a delta adds to. -/
inductive DeltaOperation where
  | addFlatDamage
  | addDice
  | addDC
  | addAreaSize
  | addDuration
  | addRange
  | addReach
  | addTargets
  | addCondition
  /-- Accepted, but changes nothing. -/
  | addArmor
deriving DecidableEq, Repr

namespace DeltaOperation

/-- Every operation. -/
def all : List DeltaOperation :=
  [addFlatDamage, addDice, addDC, addAreaSize, addDuration, addRange, addReach, addTargets,
    addCondition, addArmor]

/-- The name. -/
def name : DeltaOperation → String
  | addFlatDamage => "addFlatDamage"
  | addDice => "addDice"
  | addDC => "addDC"
  | addAreaSize => "addAreaSize"
  | addDuration => "addDuration"
  | addRange => "addRange"
  | addReach => "addReach"
  | addTargets => "addTargets"
  | addCondition => "addCondition"
  | addArmor => "addArmor"

end DeltaOperation

/-- Dice added in each step. -/
structure DiceDelta where
  count : UInt32
  faces : UInt32
deriving DecidableEq, Repr

/-- A gain per step. An operation looks only at the fields that concern it. -/
structure Delta where
  operation : DeltaOperation
  value : Option Int64 := none
  dice : Option DiceDelta := none
  condition : Option String := none
  /-- The one effect to act on, instead of the first that fits. -/
  target : Option NodeId := none
  /-- The unit that a duration must have. -/
  durationType : Option String := none
deriving DecidableEq, Repr

namespace Delta

/-- A delta with an amount. -/
def amount (operation : DeltaOperation) (value : Int64) : Delta :=
  { operation, value := some value }

/-- More damage or healing, by a constant. -/
def flatDamage (value : Int64) : Delta :=
  amount .addFlatDamage value

/-- More damage or healing, by dice. -/
def moreDice (count faces : UInt32) : Delta :=
  { operation := .addDice, dice := some { count, faces } }

/-- One more condition. -/
def newCondition (condition : String) : Delta :=
  { operation := .addCondition, condition := some condition }

end Delta

/-- Whether and how an ability scales. -/
inductive ScalingMode where
  | none
  | upcast
  | upcastChoice
deriving DecidableEq, Repr

namespace ScalingMode

/-- Every mode. -/
def all : List ScalingMode := [none, upcast, upcastChoice]

/-- The name. -/
def name : ScalingMode → String
  | none => "none"
  | upcast => "upcast"
  | upcastChoice => "upcastChoice"

end ScalingMode

/-- A named list of deltas to choose. -/
structure ScalingChoice where
  label : String
  deltas : List Delta := []
deriving DecidableEq, Repr

/-- The scaling rules of an ability. -/
structure Scaling where
  mode : ScalingMode := .none
  deltas : List Delta := []
  choices : Option (List ScalingChoice) := none
deriving DecidableEq, Repr

namespace Scaling

/-- Scaling by one fixed list. -/
def upcast (deltas : List Delta) : Scaling :=
  { mode := .upcast, deltas }

/-- Scaling by a list of the caster's choice. -/
def upcastChoice (choices : List ScalingChoice) : Scaling :=
  { mode := .upcastChoice, choices := some choices }

/-- The lists to choose from. -/
def options (s : Scaling) : List ScalingChoice :=
  s.choices.getD []

end Scaling

/-- How far an ability reaches and how many it affects. -/
structure Targets where
  distance : UInt32 := 0
  count : UInt32 := 0
deriving DecidableEq, Repr

/-- The area of an ability, by those dimensions that it has. -/
structure Area where
  radius : Option UInt32 := none
  length : Option UInt32 := none
deriving DecidableEq, Repr

/-- How long an ability lasts. -/
structure Duration where
  quantity : UInt32
  units : String
deriving DecidableEq, Repr

namespace Duration

/-- A unit without regard to case, surrounding blanks and one final s. -/
def singular (units : String) : List Char :=
  let lower := (Text.trim units.toList).map Char.toLower
  if lower.getLast? = some 's' then lower.dropLast else lower

/-- Whether the duration is counted in a unit. -/
def hasUnits (d : Duration) (units : String) : Bool :=
  singular d.units = singular units

end Duration

/-- An ability as far as it scales. The tier is what it costs; an ability of tier 0 is a cantrip. -/
structure Profile where
  tier : UInt32
  scaling : Scaling := {}
  effects : Tree := .nil
  targets : Option Targets := none
  area : Option Area := none
  duration : Option Duration := none
deriving DecidableEq, Repr

namespace Profile

/-- Whether the ability is a cantrip. -/
def isCantrip (p : Profile) : Bool :=
  p.tier = 0

/-- The mana for a plain casting. -/
def baseCost (p : Profile) : UInt32 :=
  p.tier

end Profile

/-- What the caster can spend. -/
structure Resources where
  mana : UInt32 := 0
  /-- No single casting may cost more than this. -/
  highestTier : UInt32 := 0
deriving DecidableEq, Repr

/-- A casting that is allowed. -/
structure UpcastPlan where
  steps : UInt32
  baseCost : UInt32
  totalCost : UInt32
  choice : Option UInt64
deriving DecidableEq, Repr

/-- Why a casting is not allowed. -/
inductive PlanError where
  | cantrip
  | noScaling
  | belowBaseCost (spend baseCost : UInt32)
  | aboveCeiling (spend ceiling : UInt32)
  | insufficientMana (spend available : UInt32)
deriving DecidableEq, Repr

namespace PlanError

/-- A number in a message. -/
def numeral (n : UInt32) : String :=
  String.ofList (Text.natText n.toNat)

/-- The message. -/
def message : PlanError → String
  | cantrip => "cantrips cannot be upcast"
  | noScaling => "this ability does not scale"
  | belowBaseCost spend baseCost =>
    "must spend at least " ++ numeral baseCost ++ " mana, got " ++ numeral spend
  | aboveCeiling spend ceiling =>
    "cannot spend " ++ numeral spend ++ " mana: highest unlocked tier is " ++ numeral ceiling
  | insufficientMana spend available =>
    "not enough mana: " ++ numeral spend ++ " requested, " ++ numeral available ++ " available"

end PlanError

namespace Upcast

/-- Decides whether a casting is allowed: the ability has to scale at all, and the mana to spend has
to be at least its cost and at most what the caster may and can spend. Every mana beyond the cost is
one step. -/
def plan? (p : Profile) (r : Resources) (spend : UInt32) (choice : Option UInt64) :
    Except PlanError UpcastPlan :=
  if p.isCantrip then .error .cantrip
  else if p.scaling.mode = .none then .error .noScaling
  else if spend < p.baseCost then .error (.belowBaseCost spend p.baseCost)
  else if r.highestTier < spend then .error (.aboveCeiling spend r.highestTier)
  else if r.mana < spend then .error (.insufficientMana spend r.mana)
  else .ok { steps := spend - p.baseCost, baseCost := p.baseCost, totalCost := spend, choice }

end Upcast

end Spellwork
