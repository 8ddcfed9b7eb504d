import Spellwork.Effect.Outline
import Spellwork.Prose.Condition
import Spellwork.Prose.Range

/-!
# Actions

An action as it is found in a bestiary, and the effects that its text describes. A saving throw
comes first if there is one, with the damage rolled once for all who save; otherwise damage comes
first; otherwise there are only conditions.
-/

namespace Spellwork

/-- An action in words. -/
structure Action where
  name : String := ""
  description : String := ""
  /-- A formula, with the damage type behind it or not. -/
  damageFormula : Option String := none
  range : Option Range := none
deriving DecidableEq, Repr

/-- What is known of an action after reading it. -/
structure ParsedAction where
  name : String
  effects : List Record
  range : Option Range
deriving DecidableEq, Repr

namespace Action

open Prose

/-- The formula of the damage: from its own field, or else from the description. -/
def formula? (a : Action) : Option String :=
  match a.damageFormula.bind fun s => leadingFormula? s.toList with
  | some f => some f
  | none => embeddedFormula? a.description.toList

/-- The type of the damage. -/
def damageType (a : Action) : DamageType :=
  damageTypeOf (a.damageFormula.map String.toList) (some a.description.toList)

/-- Effects without ids next to one another, each one without anything below it. -/
def siblings (drafts : List (Outcome × Effect)) : Forest Draft :=
  drafts.foldr (fun d rest => .node ⟨none, some d.1, d.2⟩ .nil rest) .nil

/-- The effect of a condition. -/
def conditionEffect (c : ConditionClause) : Effect :=
  .condition { condition := c.condition, escape := c.escape }

/-- Each condition once, whatever its outcome, given those kept already. -/
def distinctConditions : (kept : List String) → List ConditionClause → List ConditionClause
  | _, [] => []
  | kept, c :: rest =>
    if kept.contains c.condition then distinctConditions kept rest
    else c :: distinctConditions (c.condition :: kept) rest

/-- What stands below a saving throw: the damage as a shared roll, all of it on a failed save, half
of it on a passed one if saving halves it, and every condition on a failed save. -/
def underSave (a : Action) (save : SaveClause) (conditions : List ConditionClause) :
    List (Outcome × Effect) :=
  (match a.formula? with
    | some formula =>
      [(.sharedRolls, .damage { damageType := a.damageType, formula }),
        (.failedSave, .damageOutcome .fullDamage)] ++
        if save.halfOnSave then [(.passedSave, .damageOutcome .halfDamage)] else []
    | none => []) ++
    (distinctConditions [] conditions).map fun c => (.failedSave, conditionEffect c)

/-- What stands below damage: all of it on a hit, and the conditions for a hit or a critical hit. -/
def underDamage (conditions : List ConditionClause) : List (Outcome × Effect) :=
  (.hit, .damageOutcome .fullDamage) ::
    (conditions.filter fun c => c.outcome = .hit || c.outcome = .criticalHit).map fun c =>
      (c.outcome, conditionEffect c)

/-- The effects that the text describes, still without ids. -/
def drafts (a : Action) : Forest Draft :=
  let conditions := conditionsOf a.description.toList
  match save? a.description.toList with
  | some save =>
    .node ⟨none, none, .savingThrow { ability := save.ability, dc := some save.dc }⟩
      (siblings (a.underSave save conditions)) .nil
  | none =>
    match a.formula? with
    | some formula =>
      .node ⟨none, none, .damage { damageType := a.damageType, formula }⟩
        (siblings (underDamage conditions)) .nil
    | none =>
      conditions.foldr (fun c rest => .node ⟨none, none, conditionEffect c⟩ .nil rest) .nil

/-- The context in which ids are minted: all words of the action. -/
def context (a : Action) : String :=
  a.name ++ "\n" ++ a.description ++ "\n" ++ a.damageFormula.getD ""

/-- The records of the effects. Should two ids coincide, there are none. -/
def effects (a : Action) : List Record :=
  match Outline.plantDrafts none a.drafts .nil (Random.Mint.ofContext a.context) with
  | .ok (t, _) => Tree.flatten t
  | .error _ => []

/-- Reads an action. -/
def parse (a : Action) : ParsedAction :=
  { name := a.name, effects := a.effects, range := rangeOf a.description.toList a.range }

/-- The records of a bare description. -/
def effectsOfText (description : String) : List Record :=
  effects { description }

end Action

end Spellwork
