import Spellwork.Activation.Basic
import Spellwork.Arena.Basic
import Spellwork.Effect.Outline
import Spellwork.Upcast.Apply

/-!
# What is done with arenas

Planting an outline, scaling and activation, each of them on an arena. They read and write it
through the lookups and the edits alone; all that they compute beside that is what they compute for
a `Tree`.
-/

namespace Spellwork

open Spellwork.Tree

namespace Arena

/-! ## Planting -/

/-- Adds drafts to an arena one after the other, each one before those below it, and mints the ids
that are missing. -/
def plantDrafts (parent : Option NodeId) : Forest Draft → Arena → Random.Mint →
    Except EditError (Arena × Random.Mint)
  | .nil, a, mint => .ok (a, mint)
  | .node d children rest, a, mint =>
    let (id, mint) := match d.id with
      | some id => (id, mint)
      | none => mint.next
    match a.insert (Outline.slotOf parent d.outcome) id d.effect with
    | .error e => .error e
    | .ok a =>
      match plantDrafts (some id) children a mint with
      | .error e => .error e
      | .ok (a, mint) => plantDrafts parent rest a mint

/-- The arena of an outline, with ids from a mint where they are missing. -/
def plant (outlines : List Outline) (mint : Random.Mint) :
    Except EditError (Arena × Random.Mint) :=
  plantDrafts none (Outline.drafts none outlines) empty mint

/-! ## Scaling -/

/-- The effect that a delta acts on: its target if that fits, or else the first that fits. -/
def locate (a : Arena) (target : Option NodeId) (fits : Effect → Bool) : Option NodeId :=
  match target with
  | some id => ((a.get? id).filter fun r => fits r.effect).map Record.id
  | none => (a.findEffect? fits).map Record.id

/-- Changes the effect that a delta acts on, if there is one. -/
def adjustAt (a : Arena) (found : Option NodeId) (change : Effect → Effect) : Arena :=
  match found with
  | some id => a.adjust id change
  | none => a

/-- Writes a term at the end of the formula that a delta acts on: that of damage, or else that of
healing. -/
def extendFormula (a : Arena) (target : Option NodeId) (term : List Char) : Arena :=
  if term.isEmpty then a
  else
    a.adjustAt ((a.locate target Effect.isDamage).or (a.locate target Effect.isHealing))
      (Effect.appendFormula (String.ofList term))

/-- Raises the number of the saving throw that a delta acts on. -/
def bumpDC (a : Arena) (target : Option NodeId) (amount : Int64) : Arena :=
  a.adjustAt (a.locate target Upcast.hasDC) (Upcast.raiseDC amount)

/-- Adds a condition as a root; where that fails the arena stays as attaching leaves it. -/
def addCondition (a : Arena) (index : Nat) (condition : String) : Arena :=
  ((attach none (Upcast.conditionId index condition) (.condition { condition })).run a).2

end Arena

/-- An ability after scaling, its effects in an arena. -/
structure ScaledArena where
  effects : Arena
  targets : Option Targets := none
  area : Option Area := none
  duration : Option Duration := none
  /-- The label of the list that was chosen. -/
  label : Option String := none
  steps : UInt32
deriving DecidableEq

namespace ScaledArena

/-- What stands beside the effects. -/
def beside (s : ScaledArena) : Scaled :=
  { effects := .nil, targets := s.targets, area := s.area, duration := s.duration,
    label := s.label, steps := s.steps }

/-- Applies the delta at a place of its list. What does not concern effects is done to what stands
beside them. -/
def applyDelta (s : ScaledArena) (index : Nat) (delta : Delta) : ScaledArena :=
  let amount := Upcast.amountOf delta s.steps
  match delta.operation with
  | .addFlatDamage =>
    { s with effects := s.effects.extendFormula delta.target (Upcast.flatTerm amount) }
  | .addDice =>
    match delta.dice with
    | some dice =>
      { s with effects := s.effects.extendFormula delta.target (Upcast.diceTerm dice s.steps) }
    | none => s
  | .addDC => { s with effects := s.effects.bumpDC delta.target amount }
  | .addCondition =>
    match delta.condition with
    | some condition => { s with effects := s.effects.addCondition index condition }
    | none => s
  | _ =>
    let b := Upcast.applyDelta s.beside index delta
    { s with targets := b.targets, area := b.area, duration := b.duration }

/-- Applies deltas in order, the first one at the place `index` of its list. -/
def applyDeltas : (index : Nat) → List Delta → ScaledArena → ScaledArena
  | _, [], s => s
  | index, delta :: rest, s => applyDeltas (index + 1) rest (s.applyDelta index delta)

/-- Scales an ability. Without steps nothing but the label changes. -/
def run (s : ScaledArena) (scaling : Scaling) (choice : Option UInt64) :
    Except ScalingError ScaledArena :=
  match Upcast.select scaling choice with
  | .error e => .error e
  | .ok (deltas, label) =>
    let s := { s with label }
    .ok (if s.steps = 0 then s else applyDeltas 0 deltas s)

end ScaledArena

/-! ## Activation -/

/-- The outcome of an activation, the effects in an arena. -/
structure ActivatedArena where
  rolls : List ResolvedRoll
  effects : Arena
  fastForward : Bool
deriving DecidableEq

namespace Arena

/-- Notes the result of every roll on its effect. -/
def annotate (a : Arena) (rolls : List ResolvedRoll) : Arena :=
  rolls.foldl (fun a r => a.adjust r.id fun e => e.withRollNote r.note) a

/-- Activates an ability: the records as they are stored are rolled, and the results noted. -/
def activate [DiceSource σ] (a : Arena) (actor : Actor) (subject : Subject)
    (options : ActivationOptions) (s : σ) : Except ActivationError ActivatedArena × σ :=
  if subject.hasRolls then
    let (rolls, s) := Activation.rollRecords actor options true a.flatten s
    (rolls.map fun rolls =>
      { rolls, effects := a.annotate rolls, fastForward := options.fastForward }, s)
  else (.ok { rolls := [], effects := a, fastForward := options.fastForward }, s)

end Arena

end Spellwork
