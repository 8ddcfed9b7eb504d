import Spellwork.Proofs.GuardedRolls
import Spellwork.Proofs.ScaledBlocks

/-!
# Scaling with sums that are checked

Two results of scaling are those of 64-bit integers: a number with its amount, and dice over several
steps. They wrap around where 64 bits do not hold them. This is scaling on a machine that checks
them and halts instead.

Every computation there is listed with the exact numbers that it computes (`Guarded.held`): it halts
if 64 bits do not hold one of them, and is otherwise the computation that wraps around. This holds
of one delta (`Guarded.applyDelta_eq`) and so of all deltas one after the other
(`Guarded.applyDeltas_eq`), whose numbers are those that each delta computes from what the ones
before have left. The numbers of a tree alone are among those of the ability that it belongs to.
-/

namespace Spellwork

/-- The difficulty of a saving throw. -/
def Effect.dc? : Effect → Option UInt32
  | .savingThrow s => s.dc
  | _ => none

namespace Upcast

open Spellwork.Tree

/-! ## What deltas compute -/

/-- The difficulty that a delta raises. -/
def dcFound (t : Tree) (target : Option NodeId) : Option UInt32 :=
  (locate t target hasDC).bind fun id => (t.get? id).bind fun r => r.effect.dc?

/-- A number with an amount, if there is a number. -/
def sumsWith (amount : Int64) (n : Option UInt32) : List Int :=
  n.toList.map fun n => n.toNat + amount.toInt

/-- The number of dice over several steps, unless there are no dice or no faces. -/
def diceComputed (dice : DiceDelta) (steps : UInt32) : List Int :=
  if dice.count = 0 ∨ dice.faces = 0 then [] else [((dice.count.toNat * steps.toNat : Nat) : Int)]

/-- The exact numbers that a delta computes in 64 bits: dice over the steps, and each number that it
raises with its amount. -/
def computed (s : Scaled) (d : Delta) : List Int :=
  let amount := amountOf d s.steps
  match d.operation with
  | .addDice => d.dice.toList.flatMap fun dice => diceComputed dice s.steps
  | .addDC => sumsWith amount (dcFound s.effects d.target)
  | .addAreaSize =>
    s.area.toList.flatMap fun a => sumsWith amount a.radius ++ sumsWith amount a.length
  | .addDuration =>
    s.duration.toList.flatMap fun a =>
      if d.durationType.all a.hasUnits then sumsWith amount a.quantity else []
  | .addRange | .addReach => s.targets.toList.flatMap fun a => sumsWith amount a.distance
  | .addTargets => s.targets.toList.flatMap fun a => sumsWith amount a.count
  | .addFlatDamage | .addCondition | .addArmor => []

/-- The numbers that deltas compute one after the other, the first one at the place `index`. -/
def computedBy : (index : Nat) → List Delta → Scaled → List Int
  | _, [], _ => []
  | index, d :: ds, s => computed s d ++ computedBy (index + 1) ds (applyDelta s index d)

/-- The numbers that scaling computes: none without steps, or where no list of deltas is chosen. -/
def computedIn (s : Scaled) (scaling : Scaling) (choice : Option UInt64) : List Int :=
  match select scaling choice with
  | .error _ => []
  | .ok (ds, label) => if s.steps = 0 then [] else computedBy 0 ds { s with label }

/-- The numbers that scaling an ability computes. -/
def computedFor (p : Profile) (steps : UInt32) (choice : Option UInt64) : List Int :=
  computedIn ⟨p.effects, p.targets, p.area, p.duration, none, steps⟩ p.scaling choice

/-- The numbers that scaling a tree alone computes. -/
def computedForTree (t : Tree) (scaling : Scaling) (steps : UInt32) (choice : Option UInt64) :
    List Int :=
  computedIn { effects := t, steps } scaling choice

end Upcast

namespace Guarded

open Spellwork.Tree
open Upcast (computed diceComputed sumsWith amountOf)

/-! ## Computations with their numbers -/

/-- The result of a computation, if 64 bits hold all numbers on its way. -/
def held {α : Type u} (xs : List Int) (a : α) : Guarded α :=
  if ∀ x ∈ xs, FitsInt64 x then .ok a else .error .overflow

section Held

variable {α β : Type u} {xs : List Int} {a : α}

theorem held_eq_ok (h : ∀ x ∈ xs, FitsInt64 x) : held xs a = .ok a :=
  if_pos h

theorem held_eq_ok_iff : held xs a = .ok a ↔ ∀ x ∈ xs, FitsInt64 x := by
  constructor
  · intro h
    by_contra hlost
    rw [held, if_neg hlost] at h
    cases h
  · exact held_eq_ok

theorem held_eq_overflow_iff : held xs a = .error .overflow ↔ ∃ x ∈ xs, ¬ FitsInt64 x := by
  unfold held
  split
  · rename_i hfit
    exact iff_of_false (fun h => by cases h) fun ⟨x, hx, hlost⟩ => hlost (hfit x hx)
  · rename_i hlost
    push Not at hlost
    exact iff_of_true rfl hlost

/-- One computation after another halts where either of them does. -/
theorem held_bind {f : α → Guarded β} {ys : List Int} {b : β} (h : f a = held ys b) :
    (held xs a >>= f) = held (xs ++ ys) b := by
  by_cases hxs : ∀ x ∈ xs, FitsInt64 x
  · have happend : (∀ x ∈ xs ++ ys, FitsInt64 x) ↔ ∀ x ∈ ys, FitsInt64 x := by
      rw [List.forall_mem_append]
      exact and_iff_right hxs
    rw [held_eq_ok hxs, ok_bind, h, held, held]
    simp only [happend]
  · have hlost : ¬ ∀ x ∈ xs ++ ys, FitsInt64 x := fun hall =>
      hxs (List.forall_mem_append.mp hall).1
    rw [held, if_neg hxs, held, if_neg hlost]
    rfl

theorem held_bind_pure (f : α → β) : (held xs a >>= fun a => pure (f a)) = held xs (f a) := by
  have hpure : (pure (f a) : Guarded β) = held [] (f a) := rfl
  rw [held_bind (f := fun a => pure (f a)) hpure, List.append_nil]

/-- Part by part, an option computes what its value computes, if it has one. -/
theorem mapM_held (o : Option α) {f : α → Guarded β} {numbers : α → List Int} {g : α → β}
    (h : ∀ a, f a = held (numbers a) (g a)) :
    o.mapM f = held (o.toList.flatMap numbers) (o.map g) := by
  cases o with
  | none => rfl
  | some a =>
      show (do return some (← f a)) = _
      rw [h, held_bind_pure]
      simp

theorem fitting_eq (exact : Int) (machine : Int64) :
    fitting exact machine = held [exact] machine := by
  simp [fitting, held]

end Held

/-! ## Scaling -/

/-- The term that dice add to a formula over several steps. -/
def scaledDice (dice : DiceDelta) (steps : UInt32) : Guarded (List Char) := do
  if dice.count = 0 ∨ dice.faces = 0 then return []
  else
    let count ← fitting (dice.count.toNat * steps.toNat : Nat) (widen dice.count * widen steps)
    return '+' :: Text.intText count.toInt ++ 'd' :: Text.natText dice.faces.toNat

/-- A number raised or lowered by an amount. -/
def bump (n : UInt32) (amount : Int64) : Guarded UInt32 := do
  return clamp32 (← fitting (n.toNat + amount.toInt) (widen n + amount)).toInt

/-- Raises the number of the saving throw that a delta acts on, once the sum has been checked. -/
def bumpDC (t : Tree) (target : Option NodeId) (amount : Int64) : Guarded Tree :=
  match Upcast.locate t target Upcast.hasDC with
  | some id => do
    let _ ← ((t.get? id).bind fun r => r.effect.dc?).mapM fun dc => bump dc amount
    return t.adjust id (Upcast.raiseDC amount)
  | none => return t

/-- Raises each dimension that an area has. -/
def enlarge (amount : Int64) (a : Area) : Guarded Area := do
  let radius ← a.radius.mapM fun n => bump n amount
  let length ← a.length.mapM fun n => bump n amount
  return { radius, length }

/-- Raises a duration, if the delta is about its unit. -/
def prolong (d : Delta) (amount : Int64) (a : Duration) : Guarded Duration := do
  if d.durationType.all a.hasUnits then return { a with quantity := ← bump a.quantity amount }
  else return a

def extendDistance (amount : Int64) (a : Targets) : Guarded Targets := do
  return { a with distance := ← bump a.distance amount }

def extendCount (amount : Int64) (a : Targets) : Guarded Targets := do
  return { a with count := ← bump a.count amount }

/-- Applies the delta at a place of its list. -/
def applyDelta (s : Scaled) (index : Nat) (delta : Delta) : Guarded Scaled := do
  let amount := amountOf delta s.steps
  match delta.operation with
  | .addFlatDamage =>
    return { s with
      effects := Upcast.extendFormula s.effects delta.target (Upcast.flatTerm amount) }
  | .addDice =>
    match delta.dice with
    | some dice =>
      let term ← scaledDice dice s.steps
      return { s with effects := Upcast.extendFormula s.effects delta.target term }
    | none => return s
  | .addDC => return { s with effects := ← bumpDC s.effects delta.target amount }
  | .addAreaSize => return { s with area := ← s.area.mapM (enlarge amount) }
  | .addDuration => return { s with duration := ← s.duration.mapM (prolong delta amount) }
  | .addRange | .addReach => return { s with targets := ← s.targets.mapM (extendDistance amount) }
  | .addTargets => return { s with targets := ← s.targets.mapM (extendCount amount) }
  | .addCondition =>
    match delta.condition with
    | some condition => return { s with effects := Upcast.addCondition s.effects index condition }
    | none => return s
  | .addArmor => return s

/-- Applies deltas in order, the first one at the place `index` of its list. -/
def applyDeltas : (index : Nat) → List Delta → Scaled → Guarded Scaled
  | _, [], s => return s
  | index, delta :: rest, s => do applyDeltas (index + 1) rest (← applyDelta s index delta)

/-- Scales an ability. -/
def run (s : Scaled) (scaling : Scaling) (choice : Option UInt64) :
    Guarded (Except ScalingError Scaled) := do
  match Upcast.select scaling choice with
  | .error e => return .error e
  | .ok (deltas, label) =>
    let s := { s with label }
    if s.steps = 0 then return .ok s
    else return .ok (← applyDeltas 0 deltas s)

/-- An ability after a number of steps. -/
def scale (p : Profile) (steps : UInt32) (choice : Option UInt64) :
    Guarded (Except ScalingError Scaled) :=
  run ⟨p.effects, p.targets, p.area, p.duration, none, steps⟩ p.scaling choice

/-- A tree alone after a number of steps. -/
def scaleTree (t : Tree) (scaling : Scaling) (steps : UInt32) (choice : Option UInt64) :
    Guarded (Except ScalingError (Tree × Option String)) := do
  return (← run { effects := t, steps } scaling choice).map fun s => (s.effects, s.label)

/-- An ability cast as planned. -/
def cast (p : Profile) (plan : Except PlanError UpcastPlan) :
    Guarded (Except ScalingError Scaled) :=
  match plan with
  | .ok plan => scale p plan.steps plan.choice
  | .error e => return .error (.rejected e)

/-! ## One delta -/

theorem bump_eq (n : UInt32) (amount : Int64) :
    bump n amount = held [n.toNat + amount.toInt] (Upcast.bump n amount) := by
  rw [bump, fitting_eq, held_bind_pure]
  rfl

theorem scaledDice_eq (dice : DiceDelta) (steps : UInt32) :
    scaledDice dice steps = held (diceComputed dice steps) (Upcast.diceTerm dice steps) := by
  unfold scaledDice diceComputed Upcast.diceTerm
  split
  · rfl
  · rw [fitting_eq, held_bind_pure]

theorem mapM_bump_eq (n : Option UInt32) (amount : Int64) :
    (n.mapM fun n => bump n amount) =
      held (sumsWith amount n) (n.map fun n => Upcast.bump n amount) := by
  rw [mapM_held n fun n => bump_eq n amount, ← List.map_eq_flatMap]
  rfl

theorem bumpDC_eq (t : Tree) (target : Option NodeId) (amount : Int64) :
    bumpDC t target amount =
      held (sumsWith amount (Upcast.dcFound t target)) (Upcast.bumpDC t target amount) := by
  unfold bumpDC Upcast.bumpDC Upcast.dcFound
  cases Upcast.locate t target Upcast.hasDC with
  | none => rfl
  | some id =>
      dsimp only [Option.bind_some]
      rw [mapM_bump_eq, held_bind_pure]

theorem enlarge_eq (amount : Int64) (a : Area) :
    enlarge amount a = held (sumsWith amount a.radius ++ sumsWith amount a.length)
      { radius := a.radius.map fun n => Upcast.bump n amount
        length := a.length.map fun n => Upcast.bump n amount } := by
  unfold enlarge
  rw [mapM_bump_eq, mapM_bump_eq]
  refine held_bind ?_
  rw [held_bind_pure]

theorem prolong_eq (d : Delta) (amount : Int64) (a : Duration) :
    prolong d amount a =
      held (if d.durationType.all a.hasUnits then sumsWith amount a.quantity else [])
        (if d.durationType.all a.hasUnits then
          { a with quantity := Upcast.bump a.quantity amount } else a) := by
  unfold prolong
  split
  · rw [bump_eq, held_bind_pure]
    rfl
  · rfl

theorem extendDistance_eq (amount : Int64) (a : Targets) :
    extendDistance amount a =
      held (sumsWith amount a.distance) { a with distance := Upcast.bump a.distance amount } := by
  rw [extendDistance, bump_eq, held_bind_pure]
  rfl

theorem extendCount_eq (amount : Int64) (a : Targets) :
    extendCount amount a =
      held (sumsWith amount a.count) { a with count := Upcast.bump a.count amount } := by
  rw [extendCount, bump_eq, held_bind_pure]
  rfl

theorem applyDelta_eq (s : Scaled) (index : Nat) (d : Delta) :
    applyDelta s index d = held (computed s d) (Upcast.applyDelta s index d) := by
  unfold applyDelta Upcast.applyDelta computed
  cases hop : d.operation with
  | addFlatDamage => rfl
  | addDice =>
      cases d.dice with
      | none => rfl
      | some dice =>
          dsimp only
          rw [scaledDice_eq, held_bind_pure]
          simp
  | addDC =>
      dsimp only
      rw [bumpDC_eq, held_bind_pure]
  | addAreaSize =>
      dsimp only
      rw [mapM_held s.area (enlarge_eq _), held_bind_pure]
  | addDuration =>
      dsimp only
      rw [mapM_held s.duration (prolong_eq d _), held_bind_pure]
  | addRange =>
      dsimp only
      rw [mapM_held s.targets (extendDistance_eq _), held_bind_pure]
  | addReach =>
      dsimp only
      rw [mapM_held s.targets (extendDistance_eq _), held_bind_pure]
  | addTargets =>
      dsimp only
      rw [mapM_held s.targets (extendCount_eq _), held_bind_pure]
  | addCondition => cases d.condition <;> rfl
  | addArmor => rfl

/-! ## One delta after the other -/

theorem applyDeltas_eq (index : Nat) (ds : List Delta) (s : Scaled) :
    applyDeltas index ds s =
      held (Upcast.computedBy index ds s) (Upcast.applyDeltas index ds s) := by
  induction ds generalizing index s with
  | nil => rfl
  | cons d ds ih =>
      rw [applyDeltas, applyDelta_eq]
      exact held_bind (ih _ _)

theorem run_eq (s : Scaled) (scaling : Scaling) (choice : Option UInt64) :
    run s scaling choice =
      held (Upcast.computedIn s scaling choice) (Upcast.run s scaling choice) := by
  unfold run Upcast.run Upcast.computedIn
  cases Upcast.select scaling choice with
  | error e => rfl
  | ok picked =>
      obtain ⟨ds, label⟩ := picked
      dsimp only
      split
      · rfl
      · rw [applyDeltas_eq, held_bind_pure]

theorem scale_eq_held (p : Profile) (steps : UInt32) (choice : Option UInt64) :
    scale p steps choice =
      held (Upcast.computedFor p steps choice) (Upcast.scale p steps choice) :=
  run_eq _ _ _

theorem scaleTree_eq_held (t : Tree) (scaling : Scaling) (steps : UInt32) (choice : Option UInt64) :
    scaleTree t scaling steps choice =
      held (Upcast.computedForTree t scaling steps choice)
        (Upcast.scaleTree t scaling steps choice) := by
  rw [scaleTree, run_eq, held_bind_pure]
  rfl

end Guarded

namespace Upcast

open Spellwork.Tree

/-! ## Trees alone -/

/-- There is nothing to scale but a tree. -/
structure TreeOnly (s : Scaled) : Prop where
  targets : s.targets = none
  area : s.area = none
  duration : s.duration = none

theorem TreeOnly.applyDelta {s : Scaled} (h : TreeOnly s) (index : Nat) (d : Delta) :
    TreeOnly (applyDelta s index d) := by
  obtain ⟨htargets, harea, hduration⟩ := h
  unfold Upcast.applyDelta
  cases d.operation with
  | addDice => cases d.dice <;> exact ⟨htargets, harea, hduration⟩
  | addCondition => cases d.condition <;> exact ⟨htargets, harea, hduration⟩
  | _ => constructor <;> simp [htargets, harea, hduration]

/-- What a tree alone computes is computed beside any blocks. -/
theorem SameTree.computed_sublist {s s' : Scaled} (h : SameTree s s') (halone : TreeOnly s')
    (d : Delta) : (computed s' d).Sublist (computed s d) := by
  unfold computed
  rw [h.effects, h.steps, halone.targets, halone.area, halone.duration]
  cases d.operation <;> simp

theorem SameTree.computedBy_sublist {s s' : Scaled} (h : SameTree s s') (halone : TreeOnly s')
    (index : Nat) (ds : List Delta) :
    (computedBy index ds s').Sublist (computedBy index ds s) := by
  induction ds generalizing index s s' with
  | nil => exact List.Sublist.refl []
  | cons d ds ih =>
      exact (h.computed_sublist halone d).append
        (ih (h.applyDelta index d) (halone.applyDelta index d) (index + 1))

theorem computedForTree_sublist (p : Profile) (steps : UInt32) (choice : Option UInt64) :
    (computedForTree p.effects p.scaling steps choice).Sublist (computedFor p steps choice) := by
  unfold computedForTree computedFor computedIn
  cases select p.scaling choice with
  | error e => exact List.Sublist.refl []
  | ok picked =>
      obtain ⟨ds, label⟩ := picked
      dsimp only
      split
      · exact List.Sublist.refl []
      · have hsame : SameTree ⟨p.effects, p.targets, p.area, p.duration, label, steps⟩
            { effects := p.effects, label, steps } := ⟨rfl, rfl, rfl⟩
        exact hsame.computedBy_sublist ⟨rfl, rfl, rfl⟩ 0 ds

/-! ## The numbers of a tree -/

variable {t : Tree} {steps : UInt32} {ds : List Delta}

/-- 64 bits hold the number of dice that a delta writes. -/
def DiceFit (steps : UInt32) (d : Delta) : Prop :=
  d.operation = .addDice → ∀ dice ∈ d.dice, dice.faces ≠ 0 →
    FitsInt64 (dice.count.toNat * steps.toNat : Nat)

/-- 64 bits hold every number that scaling a tree computes: dice, and each difficulty with the
amounts that raise it one after the other. -/
structure NumbersFit (t : Tree) (steps : UInt32) (ds : List Delta) : Prop where
  dice : ∀ d ∈ ds, DiceFit steps d
  difficulties : ∀ id r dc, t.get? id = some r → r.effect.dc? = some dc →
    SumsFit steps dc (raisers t ds id)

theorem sumsFit_raisers_cons {done : List Delta} {d : Delta} {id : NodeId} {dc : UInt32} :
    SumsFit steps (dcFor t steps done id dc) (raisers t (d :: ds) id) ↔
      (d.operation = .addDC ∧ dcAddress t d.target = some id →
        FitsInt64 ((dcFor t steps done id dc).toNat + (amountOf d steps).toInt)) ∧
      SumsFit steps (dcFor t steps (done ++ [d]) id dc) (raisers t ds id) := by
  rw [dcFor_append, dcFor_singleton]
  by_cases hraises : d.operation = .addDC ∧ dcAddress t d.target = some id
  · have hcons : raisers t (d :: ds) id = d :: raisers t ds id := by simp [raisers, hraises]
    rw [hcons, SumsFit, imp_iff_right hraises, if_pos hraises, bump_amountOf]
    refine and_congr_right fun hfits => ?_
    rw [raisedDC_eq_clampedDC_iff.mpr hfits]
  · have hcons : raisers t (d :: ds) id = raisers t ds id := by simp [raisers, hraises]
    rw [hcons, if_neg hraises]
    exact (and_iff_right fun h => absurd h hraises).symm

theorem dc?_scaledEffect (t : Tree) (steps : UInt32) (ds : List Delta) (id : NodeId) (e : Effect) :
    (scaledEffect t steps ds id e).dc? = e.dc?.map (dcFor t steps ds id) := by
  cases e <;> rfl

/-- The difficulty that a delta finds is the one that the deltas before have made of the one at its
address. -/
theorem dcFound_scaledTree (h : Valid t) (steps : UInt32) (done : List Delta)
    (target : Option NodeId) :
    dcFound (scaledTree t steps done) target =
      (dcAddress t target).bind fun id => (t.get? id).bind fun r =>
        r.effect.dc?.map (dcFor t steps done id) := by
  have haddress : locate (scaledTree t steps done) target hasDC = dcAddress t target := by
    rw [locate_scaledTree t steps done target (hasDC_scaledEffect t steps done) fun _ => rfl]
    exact (addressIn_eq h target hasDC).symm
  unfold dcFound
  rw [haddress]
  cases hfound : dcAddress t target with
  | none => rfl
  | some id =>
      -- what stands at an address is an effect of the tree, and not a condition that was added
      obtain ⟨r, hr, -⟩ := exists_of_addressIn hfound
      have hid : r.id = id := ((get?_eq_some_iff h.ids_nodup).mp hr).2
      dsimp only [Option.bind_some]
      rw [get?_scaledTree, hr]
      simp [dc?_scaledEffect, hid]

theorem fits_computed_scaledTree (h : Valid t) {s : Scaled} (halone : TreeOnly s)
    {done : List Delta} (hs : s.effects = scaledTree t s.steps done) (d : Delta) :
    (∀ x ∈ computed s d, FitsInt64 x) ↔
      DiceFit s.steps d ∧ ∀ id r dc, t.get? id = some r → r.effect.dc? = some dc →
        d.operation = .addDC ∧ dcAddress t d.target = some id →
          FitsInt64 ((dcFor t s.steps done id dc).toNat + (amountOf d s.steps).toInt) := by
  unfold computed DiceFit
  rw [halone.targets, halone.area, halone.duration]
  cases hop : d.operation with
  | addDice =>
      have hdice : ∀ dice : DiceDelta, (∀ x ∈ diceComputed dice s.steps, FitsInt64 x) ↔
          (dice.faces ≠ 0 → FitsInt64 (dice.count.toNat * s.steps.toNat : Nat)) := by
        intro dice
        unfold diceComputed
        by_cases hcount : dice.count = 0
        · simp [hcount, FitsInt64]
        · by_cases hfaces : dice.faces = 0 <;> simp [hcount, hfaces]
      cases d.dice <;> simp [hdice]
  | addDC =>
      rw [hs, dcFound_scaledTree h]
      cases hfound : dcAddress t d.target with
      | none => simp [sumsWith]
      | some id =>
          obtain ⟨r, hr, -⟩ := exists_of_addressIn hfound
          have hfits : (∀ x ∈ sumsWith (amountOf d s.steps)
              (r.effect.dc?.map (dcFor t s.steps done id)), FitsInt64 x) ↔
                ∀ dc ∈ r.effect.dc?, FitsInt64
                  ((dcFor t s.steps done id dc).toNat + (amountOf d s.steps).toInt) := by
            cases r.effect.dc? <;> simp [sumsWith]
          simp only [Option.bind_some, hr, hfits]
          constructor
          · rintro hall
            refine ⟨by simp, fun id' r' dc hr' hdc ⟨_, hid⟩ => ?_⟩
            obtain rfl := Option.some.inj hid
            obtain rfl := Option.some.inj (hr.symm.trans hr')
            exact hall dc hdc
          · intro hall dc hdc
            exact hall.2 id r dc hr hdc ⟨trivial, rfl⟩
  | _ => simp

theorem fits_computedBy_scaledTree (h : Valid t) {s : Scaled} (halone : TreeOnly s)
    {done : List Delta} (hs : s.effects = scaledTree t s.steps done) (ds : List Delta) :
    (∀ x ∈ computedBy done.length ds s, FitsInt64 x) ↔
      (∀ d ∈ ds, DiceFit s.steps d) ∧ ∀ id r dc, t.get? id = some r → r.effect.dc? = some dc →
        SumsFit s.steps (dcFor t s.steps done id dc) (raisers t ds id) := by
  induction ds generalizing s done with
  | nil => simp [computedBy, raisers, SumsFit]
  | cons d ds ih =>
      have hsteps := (kept_applyDelta s done.length d).1
      have hnext : (applyDelta s done.length d).effects =
          scaledTree t (applyDelta s done.length d).steps (done ++ [d]) := by
        rw [hsteps]
        exact applyDelta_scaledTree h hs d
      have hrest := ih (halone.applyDelta done.length d) hnext
      rw [hsteps, List.length_append, List.length_singleton] at hrest
      rw [computedBy, List.forall_mem_append, fits_computed_scaledTree h halone hs, hrest,
        List.forall_mem_cons]
      simp only [sumsFit_raisers_cons, imp_and, forall_and]
      tauto

/-- 64 bits hold all numbers of a tree's run, if and only if they hold its dice and difficulties. -/
theorem fits_computedForTree_iff (h : Valid t) {scaling : Scaling} {choice : Option UInt64}
    {label : Option String} (hselect : select scaling choice = .ok (ds, label)) :
    (∀ x ∈ computedForTree t scaling steps choice, FitsInt64 x) ↔
      steps = 0 ∨ NumbersFit t steps ds := by
  have hstart : t = scaledTree t steps [] := (scaledTree_nil t steps).symm
  unfold computedForTree computedIn
  rw [hselect]
  by_cases hzero : steps = 0
  · simp [hzero]
  · have hrun := fits_computedBy_scaledTree h (s := { effects := t, label, steps })
      ⟨rfl, rfl, rfl⟩ hstart ds
    simp only [hzero, if_false, false_or]
    exact hrun.trans ⟨fun hfit => ⟨hfit.1, hfit.2⟩, fun hfit => ⟨hfit.dice, hfit.difficulties⟩⟩

/-! ## Abilities and castings -/

/-- A tree scaled alone is the tree of the ability scaled, with the same label, and fails where that
fails and for the same reason. What an ability costs and what its blocks are has no say in it. Where
sums are checked, either of the two halts at the first of its numbers that 64 bits do not hold;
those of the tree are among those of the ability, and if that does not halt the two agree as
before. -/
theorem scaleTree_agrees (p : Profile) (steps : UInt32) (choice : Option UInt64) :
    (∀ e, scaleTree p.effects p.scaling steps choice = .error e ↔
      scale p steps choice = .error e) ∧
    (∀ t label, scaleTree p.effects p.scaling steps choice = .ok (t, label) ↔
      ∃ s, scale p steps choice = .ok s ∧ s.effects = t ∧ s.label = label) ∧
    (∀ (tier : UInt32) (targets : Option Targets) (area : Option Area)
      (duration : Option Duration),
      (scale { p with tier, targets, area, duration } steps choice).map
          (fun s => (s.effects, s.label)) =
        (scale p steps choice).map fun s => (s.effects, s.label)) ∧
    (Guarded.scale p steps choice = .error .overflow ↔
      ∃ x ∈ computedFor p steps choice, ¬ FitsInt64 x) ∧
    (Guarded.scaleTree p.effects p.scaling steps choice = .error .overflow ↔
      ∃ x ∈ computedForTree p.effects p.scaling steps choice, ¬ FitsInt64 x) ∧
    (computedForTree p.effects p.scaling steps choice).Sublist (computedFor p steps choice) ∧
    (Guarded.scale p steps choice ≠ .error .overflow →
      Guarded.scale p steps choice = .ok (scale p steps choice) ∧
        Guarded.scaleTree p.effects p.scaling steps choice =
          .ok (scaleTree p.effects p.scaling steps choice)) := by
  have hsub := computedForTree_sublist p steps choice
  refine ⟨fun e => ?_, fun t label => ?_, fun tier targets area duration => ?_, ?_, ?_, hsub, ?_⟩
  · rw [scaleTree_eq_map]
    cases scale p steps choice <;> simp [Except.map]
  · rw [scaleTree_eq_map]
    cases scale p steps choice <;> simp [Except.map]
  · rw [← scaleTree_eq_map, ← scaleTree_eq_map]
  · rw [Guarded.scale_eq_held, Guarded.held_eq_overflow_iff]
  · rw [Guarded.scaleTree_eq_held, Guarded.held_eq_overflow_iff]
  · rw [Guarded.scale_eq_held, Guarded.scaleTree_eq_held, ne_eq, Guarded.held_eq_overflow_iff]
    intro hnone
    push Not at hnone
    exact ⟨Guarded.held_eq_ok hnone, Guarded.held_eq_ok fun x hx => hnone x (hsub.subset hx)⟩

/-- A casting succeeds if and only if it is allowed and a list of deltas is chosen; it is then the
ability scaled by the mana beyond its cost. It is refused for the first reason there is, and if it
is allowed it can fail for the choice only. Where sums are checked it halts if it is allowed and 64
bits do not hold one of its numbers, and is otherwise the same. -/
theorem cast_plan (p : Profile) (r : Resources) (spend : UInt32) (choice : Option UInt64) :
    ((∃ s, cast p (plan? p r spend choice) = .ok s) ↔
      Allowed p r spend ∧ Picks p.scaling choice) ∧
    (∀ s, cast p (plan? p r spend choice) = .ok s →
      scale p (spend - p.tier) choice = .ok s ∧
      s.steps.toNat + p.tier.toNat = spend.toNat ∧
      plan? p r spend choice = .ok ⟨s.steps, p.tier, spend, choice⟩ ∧
      Labels p.scaling choice s.label) ∧
    (∀ e, cast p (plan? p r spend choice) = .error (.rejected e) ↔ PlanError.First p r spend e) ∧
    (Allowed p r spend →
      ∀ e, cast p (plan? p r spend choice) = .error e ↔ Misses p.scaling choice e) ∧
    (Guarded.cast p (plan? p r spend choice) = .error .overflow ↔
      Allowed p r spend ∧ ∃ x ∈ computedFor p (spend - p.tier) choice, ¬ FitsInt64 x) ∧
    (Guarded.cast p (plan? p r spend choice) ≠ .error .overflow →
      Guarded.cast p (plan? p r spend choice) = .ok (cast p (plan? p r spend choice))) := by
  refine ⟨exists_cast_eq_ok_iff, fun s => of_cast_eq_ok, fun e => cast_eq_rejected_iff,
    fun hallowed e => cast_eq_error_iff hallowed, ?_⟩
  rcases plan?_cases p r spend choice with ⟨e, hfirst, hplan⟩ | ⟨hallowed, hplan⟩
  · rw [hplan]
    refine ⟨iff_of_false (fun h => by cases h) fun h => h.1.not_applies e hfirst.1, fun _ => rfl⟩
  · rw [hplan]
    show (Guarded.scale p _ choice = _ ↔ _) ∧ (Guarded.scale p _ choice ≠ _ →
      Guarded.scale p _ choice = .ok (scale p _ choice))
    rw [Guarded.scale_eq_held, ne_eq, Guarded.held_eq_overflow_iff, and_iff_right hallowed]
    refine ⟨Iff.rfl, fun hnone => ?_⟩
    push Not at hnone
    exact Guarded.held_eq_ok hnone

end Upcast

open Upcast

/-- A scaled tree in closed form. Without steps, or where nothing scales, it is the tree as it was;
otherwise every effect stays in its place with its kind and gains what the deltas addressed to it
bring, and new conditions follow the roots, under ids that depend on the place of the delta and on
the condition. A difficulty is clamped each time that it is raised, as long as 64 bits hold all its
sums; a sum that they do not hold leaves nothing of it. Where sums are checked such a sum, or such a
number of dice, halts the scaling, and nothing else does. -/
theorem Tree.Reachable.scaleTree_eq {t : Tree} (h : Reachable t) {scaling : Scaling}
    {choice : Option UInt64} {ds : List Delta} {label : Option String}
    (hselect : select scaling choice = .ok (ds, label)) (steps : UInt32) :
    (steps = 0 ∨ scaling.mode = .none → scaleTree t scaling steps choice = .ok (t, label)) ∧
    (steps ≠ 0 → scaleTree t scaling steps choice = .ok (scaledTree t steps ds, label)) ∧
    (∀ id r, t.get? id = some r → (scaledTree t steps ds).get? id =
      some { r with effect := scaledEffect t steps ds id r.effect }) ∧
    (scaledTree t steps ds).roots = t.roots ++ (newConditions t.ids 0 ds).map Node.id ∧
    (∀ id, (scaledTree t steps ds).edges? id = t.edges? id) ∧
    (∀ d ∈ ds, Idle steps d → termOf steps d = []) ∧
    (∀ i j c d, conditionContext i c = conditionContext j d ↔ i = j ∧ c = d) ∧
    (∀ dc d, raisedDC steps dc d = clampedDC steps dc d ↔
      FitsInt64 (dc.toNat + (amountOf d steps).toInt)) ∧
    (∀ id dc, SumsFit steps dc (raisers t ds id) →
      dcFor t steps ds id dc = (raisers t ds id).foldl (clampedDC steps) dc) ∧
    (Guarded.scaleTree t scaling steps choice = .ok (scaleTree t scaling steps choice) ↔
      steps = 0 ∨ NumbersFit t steps ds) ∧
    (Guarded.scaleTree t scaling steps choice ≠ .error .overflow →
      Guarded.scaleTree t scaling steps choice = .ok (scaleTree t scaling steps choice)) := by
  have hvalid := h.valid
  refine ⟨scaleTree_unchanged t hselect, scaleTree_of_select hvalid hselect,
    fun _ _ => get?_scaledTree_of_some hvalid steps ds, roots_scaledTree t steps ds,
    edges?_scaledTree hvalid steps ds, fun _ _ => termOf_of_idle,
    fun _ _ _ _ => conditionContext_inj, fun _ _ => raisedDC_eq_clampedDC_iff,
    fun _ _ => foldl_raisedDC, ?_, ?_⟩
  · rw [Guarded.scaleTree_eq_held, Guarded.held_eq_ok_iff, fits_computedForTree_iff hvalid hselect]
  · rw [Guarded.scaleTree_eq_held, ne_eq, Guarded.held_eq_overflow_iff]
    intro hnone
    push Not at hnone
    exact Guarded.held_eq_ok hnone

/-- The deltas of the fireball, and one that sets what it strikes on fire. -/
def blazingDeltas : List Delta :=
  fireballDeltas ++ [Delta.newCondition "burning"]

theorem Tree.scaleTree_eq_fireball :
    select (Scaling.upcast blazingDeltas) none = .ok (blazingDeltas, none) ∧
      (scaleTree fireball (Scaling.upcast blazingDeltas) 2 none).map Prod.fst =
        .ok (.node ⟨"save", none, .savingThrow ⟨.dexterity, some 16⟩⟩
          (.leaf ⟨"fire", some .sharedRolls, .damage ⟨.fire, "3d8+2d8+4", none, none, none⟩⟩)
          (.leaf ⟨"fg3prvoJFBCnCpaF", none, .condition { condition := "burning" }⟩)) ∧
      NumbersFit fireball 2 blazingDeltas := by
  have hselect : select (Scaling.upcast blazingDeltas) none = .ok (blazingDeltas, none) := rfl
  have hreach := built_fireball.reachable
  have hsmall : ∀ x ∈ computedForTree fireball (Scaling.upcast blazingDeltas) 2 none,
      FitsInt64 x := by
    decide +kernel
  have hfits := (fits_computedForTree_iff hreach.valid hselect).mp hsmall
  obtain ⟨-, hscaled, -⟩ := Reachable.scaleTree_eq hreach hselect 2
  refine ⟨hselect, ?_, hfits.resolve_left (by decide)⟩
  rw [hscaled (by decide)]
  decide +kernel

/-- A saving throw alone. -/
def Tree.ward : Tree :=
  .leaf ⟨"save", none, .savingThrow ⟨.will, some 15⟩⟩

/-- The greatest amount that a difficulty can be raised by. -/
def greatestDC : Delta :=
  Delta.amount .addDC Int64.maxValue

/-- A difficulty that is raised by an amount within 64 bits is not always clamped: the sum may go
beyond them, and leaves nothing. -/
theorem Tree.not_forall_scaleTree_eq :
    ¬ ∀ (t : Tree) (scaling : Scaling) (choice : Option UInt64) (ds : List Delta)
      (label : Option String) (steps : UInt32), Reachable t →
        select scaling choice = .ok (ds, label) → steps ≠ 0 →
        (∀ d ∈ ds, (amountOf d steps).toInt = (d.value.getD 0).toInt * steps.toNat) →
        ∃ t', scaleTree t scaling steps choice = .ok (t', label) ∧
          ∀ id r dc, t.get? id = some r → r.effect.dc? = some dc →
            ∃ r', t'.get? id = some r' ∧
              r'.effect.dc? = some ((raisers t ds id).foldl (clampedDC steps) dc) := by
  intro hclamped
  have hreach : Reachable ward := by
    have hbuilt : Built (attach none "save" (.savingThrow ⟨.will, some 15⟩) .nil).2 :=
      .step .empty (.attach _ _ _ _)
    exact hbuilt.reachable
  obtain ⟨t', hscaled, hdcs⟩ := hclamped ward (.upcast [greatestDC]) none [greatestDC] none 1
    hreach rfl (by decide) (by decide)
  have hzero : scaleTree ward (.upcast [greatestDC]) 1 none =
      .ok (.leaf ⟨"save", none, .savingThrow ⟨.will, some 0⟩⟩, none) := by decide
  obtain rfl : t' = .leaf ⟨"save", none, .savingThrow ⟨.will, some 0⟩⟩ := by
    rw [hzero] at hscaled
    cases hscaled
    rfl
  obtain ⟨r', hr', hdc⟩ := hdcs "save" ⟨"save", none, none, .savingThrow ⟨.will, some 15⟩⟩ 15
    (by decide) rfl
  have hgreatest : (raisers ward [greatestDC] "save").foldl (clampedDC 1) 15 = 0xffffffff := by
    decide
  rw [hgreatest] at hdc
  cases hr'
  cases hdc

end Spellwork
