import Spellwork.Dice.Roll
import Spellwork.Effect.Tree

/-!
# Activation

Activating an ability rolls its damage and healing in the order of the tree. The first damage is
the primary roll, with crits and misses; later damage and all healing are plain rolls. Every result
is noted on the effect that it was rolled for.
-/

namespace Spellwork

/-- The kinds of actors. -/
inductive ActorType where
  | character
  | npc
  /-- Minions never deal critical hits and can always miss. -/
  | minion
  | solo
deriving DecidableEq, Repr

namespace ActorType

/-- Every kind of actor. -/
def all : List ActorType := [character, npc, minion, solo]

/-- The name. -/
def name : ActorType → String
  | character => "character"
  | npc => "npc"
  | minion => "minion"
  | solo => "solo"

end ActorType

/-- Who activates an ability, with the values that formulas refer to. -/
structure Actor where
  actorType : ActorType := .character
  rollData : Formula.RollData := []
deriving DecidableEq, Repr

/-- Whether the actor is a minion. -/
def Actor.isMinion (a : Actor) : Bool :=
  a.actorType = .minion

/-- What kind of thing is activated. -/
inductive Subject where
  | spell
  | feature
  | monsterAction
  | object
  /-- Only hands out other things; there is nothing to roll. -/
  | grantOnly
deriving DecidableEq, Repr

namespace Subject

/-- Every kind of subject. -/
def all : List Subject := [spell, feature, monsterAction, object, grantOnly]

/-- The name. -/
def name : Subject → String
  | spell => "spell"
  | feature => "feature"
  | monsterAction => "monsterAction"
  | object => "object"
  | grantOnly => "grantOnly"

/-- Whether there is anything to roll. -/
def hasRolls (s : Subject) : Bool :=
  s ≠ .grantOnly

end Subject

/-- Choices made for one activation. -/
structure ActivationOptions where
  rollMode : Int32 := 0
  pinned : Option UInt32 := none
  modifier : Int64 := 0
  /-- The host skipped its dialog; handed through. -/
  fastForward : Bool := false
deriving DecidableEq, Repr

/-- What a roll was made for. -/
inductive RollKind where
  | primaryDamage
  | damage
  | healing
deriving DecidableEq, Repr

/-- The name. -/
def RollKind.name : RollKind → String
  | primaryDamage => "primaryDamage"
  | damage => "damage"
  | healing => "healing"

/-- A roll that was made for an effect. -/
structure ResolvedRoll where
  id : NodeId
  kind : RollKind
  roll : Roll
  /-- How the primary die was to be rolled; only the primary roll has it. -/
  config : Option PrimaryConfig
deriving DecidableEq, Repr

/-- The natural face of the primary die. -/
def ResolvedRoll.natural (r : ResolvedRoll) : Option UInt32 :=
  r.roll.primary.map (·.natural)

/-- What is noted on the effect. -/
def ResolvedRoll.note (r : ResolvedRoll) : RollNote :=
  ⟨r.roll.total, r.roll.isCritical, r.roll.isMiss⟩

/-- The outcome of an activation. -/
structure Activation where
  rolls : List ResolvedRoll
  tree : Tree
  fastForward : Bool

/-- The primary roll, if there is one. -/
def Activation.primary? (a : Activation) : Option ResolvedRoll :=
  a.rolls.find? fun r => r.kind = .primaryDamage

/-- An effect whose formula cannot be read. -/
structure ActivationError where
  id : NodeId
  formula : String
  cause : FormulaError
deriving DecidableEq, Repr

/-- The message. -/
def ActivationError.message (e : ActivationError) : String :=
  "node `" ++ e.id ++ "` has an unreadable formula: " ++ e.cause.message e.formula

/-- How the primary die of some damage is rolled. A minion never deals a critical hit and can always
miss, whatever the damage says. -/
def primaryConfig (d : Damage) (actor : Actor) (options : ActivationOptions) : PrimaryConfig where
  canCrit := !actor.isMinion && d.critAllowed
  canMiss := actor.isMinion || d.missAllowed
  rollMode := options.rollMode
  pinned := options.pinned
  modifier := options.modifier

namespace Activation

/-- The formula to be rolled, with its references replaced. -/
def formulaFor (actor : Actor) (id : NodeId) (text : String) : Except ActivationError Formula :=
  match Formula.read text with
  | .ok f => .ok (f.resolve actor.rollData)
  | .error cause => .error ⟨id, text, cause⟩

/-- The rolls for records, one after the other, and the dice as they are left. `primary` says that
the primary roll is still to be made. -/
def rollRecords [DiceSource σ] (actor : Actor) (options : ActivationOptions) :
    (primary : Bool) → List Record → σ → Except ActivationError (List ResolvedRoll) × σ
  | _, [], s => (.ok [], s)
  | primary, r :: rest, s =>
    match r.effect with
    | .damage d =>
      match formulaFor actor r.id d.formula with
      | .error e => (.error e, s)
      | .ok f =>
        if primary then
          let config := primaryConfig d actor options
          let (roll, s) := f.rollDamage config s
          let (rolls, s) := rollRecords actor options false rest s
          (rolls.map (⟨r.id, .primaryDamage, roll, some config⟩ :: ·), s)
        else
          let (roll, s) := f.rollPlain s
          let (rolls, s) := rollRecords actor options false rest s
          (rolls.map (⟨r.id, .damage, roll, none⟩ :: ·), s)
    | .healing h =>
      match formulaFor actor r.id h.formula with
      | .error e => (.error e, s)
      | .ok f =>
        let (roll, s) := f.rollPlain s
        let (rolls, s) := rollRecords actor options primary rest s
        (rolls.map (⟨r.id, .healing, roll, none⟩ :: ·), s)
    | _ => rollRecords actor options primary rest s

/-- The tree with the result of every roll noted on its effect. -/
def annotate (t : Tree) (rolls : List ResolvedRoll) : Tree :=
  rolls.foldl (fun t r => t.map fun n =>
    if n.id = r.id then { n with effect := n.effect.withRollNote r.note } else n) t

end Activation

/-- Activates an ability. The tree given is rolled as it stands; the dice are handed back even when
a formula cannot be read, as the rolls before it left them. -/
def activate [DiceSource σ] (t : Tree) (actor : Actor) (subject : Subject)
    (options : ActivationOptions) (s : σ) : Except ActivationError Activation × σ :=
  if subject.hasRolls then
    let (rolls, s) := Activation.rollRecords actor options true t.flatten s
    (rolls.map fun rolls =>
      { rolls, tree := Activation.annotate t rolls, fastForward := options.fastForward }, s)
  else (.ok { rolls := [], tree := t, fastForward := options.fastForward }, s)

end Spellwork
