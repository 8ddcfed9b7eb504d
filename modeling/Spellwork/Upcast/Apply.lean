import Spellwork.Number.Clamp
import Spellwork.Upcast.Basic

/-!
# Applying deltas

An ability after a number of steps. Deltas act in order on what the ones before have left; a delta
that finds nothing to act on changes nothing. Formulas grow by a term at the end, and numbers are
clamped to 32 bits. Two results are those of 64-bit integers that wrap around: a number and its
amount (`Upcast.bump`), and dice over several steps (`Upcast.diceTerm`).
-/

namespace Spellwork

/-- An ability after scaling. -/
structure Scaled where
  effects : Tree
  targets : Option Targets := none
  area : Option Area := none
  duration : Option Duration := none
  /-- The label of the list that was chosen. -/
  label : Option String := none
  steps : UInt32
deriving DecidableEq, Repr

/-- Why deltas cannot be applied. -/
inductive ScalingError where
  | missingChoice
  | choiceOutOfRange (index : UInt64) (available : Nat)
  | rejected (e : PlanError)
deriving DecidableEq, Repr

/-- The message. -/
def ScalingError.message : ScalingError → String
  | missingChoice => "this ability requires a scaling choice"
  | choiceOutOfRange index available =>
    "scaling choice " ++ String.ofList (Text.natText index.toNat) ++ " is out of range (" ++
      String.ofList (Text.natText available) ++ " available)"
  | rejected e => "cannot apply a rejected upcast: " ++ e.message

namespace Upcast

/-! ## Terms and numbers -/

/-- The term that an amount adds to a formula; nothing for zero. -/
def flatTerm (amount : Int64) : List Char :=
  let x := amount.toInt
  if x = 0 then [] else (if 0 < x then '+' else '-') :: Text.natText x.natAbs

/-- The term that dice add to a formula over several steps; nothing without dice or faces. The
number of dice is a product of 64 bits, and may come out below zero. -/
def diceTerm (dice : DiceDelta) (steps : UInt32) : List Char :=
  if dice.count = 0 ∨ dice.faces = 0 then []
  else
    '+' :: Text.intText (widen dice.count * widen steps).toInt ++
      'd' :: Text.natText dice.faces.toNat

/-- The amount of a delta over several steps. -/
def amountOf (delta : Delta) (steps : UInt32) : Int64 :=
  clamp64 ((delta.value.getD 0).toInt * steps.toNat)

/-- A number raised or lowered by an amount. The sum is one of 64 bits, and only what it has come to
is clamped. -/
def bump (n : UInt32) (amount : Int64) : UInt32 :=
  clamp32 (widen n + amount).toInt

/-! ## Effects -/

/-- The effect that a delta acts on: its target if that fits, or else the first that fits. -/
def locate (t : Tree) (target : Option NodeId) (fits : Effect → Bool) : Option NodeId :=
  match target with
  | some id => ((t.get? id).filter fun r => fits r.effect).map Record.id
  | none => (t.findEffect? fits).map Record.id

/-- The damage that a delta acts on, or else the healing. -/
def locateFormula (t : Tree) (target : Option NodeId) : Option NodeId :=
  (locate t target Effect.isDamage).or (locate t target Effect.isHealing)

/-- Writes a term at the end of the formula that a delta acts on. -/
def extendFormula (t : Tree) (target : Option NodeId) (term : List Char) : Tree :=
  if term.isEmpty then t
  else
    match locateFormula t target with
    | some id => t.adjust id (Effect.appendFormula (String.ofList term))
    | none => t

/-- A saving throw against a number. -/
def hasDC : Effect → Bool
  | .savingThrow s => s.dc.isSome
  | _ => false

/-- Raises the number that a save is rolled against. -/
def raiseDC (amount : Int64) : Effect → Effect
  | .savingThrow s => .savingThrow { s with dc := s.dc.map fun dc => bump dc amount }
  | e => e

/-- Raises the number of the saving throw that a delta acts on. -/
def bumpDC (t : Tree) (target : Option NodeId) (amount : Int64) : Tree :=
  match locate t target hasDC with
  | some id => t.adjust id (raiseDC amount)
  | none => t

/-- The id of a condition that a delta adds. It depends on nothing but the condition and the place
of the delta in its list. -/
def conditionId (index : Nat) (condition : String) : NodeId :=
  (Random.Mint.ofContext
    ("upcast/" ++ String.ofList (Text.natText index) ++ "/" ++ condition)).first

/-- Adds a condition as a root, unless its id is taken. -/
def addCondition (t : Tree) (index : Nat) (condition : String) : Tree :=
  match t.insert none (conditionId index condition) (.condition { condition }) with
  | .ok t => t
  | .error _ => t

/-! ## Deltas -/

/-- Applies the delta at a place of its list. -/
def applyDelta (s : Scaled) (index : Nat) (delta : Delta) : Scaled :=
  let amount := amountOf delta s.steps
  match delta.operation with
  | .addFlatDamage =>
    { s with effects := extendFormula s.effects delta.target (flatTerm amount) }
  | .addDice =>
    match delta.dice with
    | some dice =>
      { s with effects := extendFormula s.effects delta.target (diceTerm dice s.steps) }
    | none => s
  | .addDC => { s with effects := bumpDC s.effects delta.target amount }
  | .addAreaSize =>
    { s with area := s.area.map fun a =>
        { radius := a.radius.map fun n => bump n amount
          length := a.length.map fun n => bump n amount } }
  | .addDuration =>
    { s with duration := s.duration.map fun d =>
        if delta.durationType.all d.hasUnits then { d with quantity := bump d.quantity amount }
        else d }
  | .addRange | .addReach =>
    { s with targets := s.targets.map fun a => { a with distance := bump a.distance amount } }
  | .addTargets =>
    { s with targets := s.targets.map fun a => { a with count := bump a.count amount } }
  | .addCondition =>
    match delta.condition with
    | some condition => { s with effects := addCondition s.effects index condition }
    | none => s
  | .addArmor => s

/-- Applies deltas in order, the first one at the place `index` of its list. -/
def applyDeltas : (index : Nat) → List Delta → Scaled → Scaled
  | _, [], s => s
  | index, delta :: rest, s => applyDeltas (index + 1) rest (applyDelta s index delta)

/-- The deltas to apply, and the label of the list they are from if it was chosen. -/
def select (scaling : Scaling) (choice : Option UInt64) :
    Except ScalingError (List Delta × Option String) :=
  match scaling.mode with
  | .none => .ok ([], none)
  | .upcast => .ok (scaling.deltas, none)
  | .upcastChoice =>
    match choice with
    | none => .error .missingChoice
    | some index =>
      match scaling.options[index.toNat]? with
      | some picked => .ok (picked.deltas, some picked.label)
      | none => .error (.choiceOutOfRange index scaling.options.length)

/-- Scales an ability. Without steps nothing but the label changes. -/
def run (s : Scaled) (scaling : Scaling) (choice : Option UInt64) : Except ScalingError Scaled :=
  match select scaling choice with
  | .error e => .error e
  | .ok (deltas, label) =>
    let s := { s with label }
    .ok (if s.steps = 0 then s else applyDeltas 0 deltas s)

/-- An ability after a number of steps. -/
def scale (p : Profile) (steps : UInt32) (choice : Option UInt64) : Except ScalingError Scaled :=
  run { effects := p.effects, targets := p.targets, area := p.area, duration := p.duration, steps }
    p.scaling choice

/-- A tree alone after a number of steps, with the label of the list that was chosen. -/
def scaleTree (t : Tree) (scaling : Scaling) (steps : UInt32) (choice : Option UInt64) :
    Except ScalingError (Tree × Option String) :=
  (run { effects := t, steps } scaling choice).map fun s => (s.effects, s.label)

/-- An ability cast as planned. A casting that is not allowed changes nothing. -/
def cast (p : Profile) (plan : Except PlanError UpcastPlan) : Except ScalingError Scaled :=
  match plan with
  | .ok plan => scale p plan.steps plan.choice
  | .error e => .error (.rejected e)

end Upcast

end Spellwork
