import Spellwork.Proofs.Reachable
import Spellwork.Proofs.WellFormed

/-!
# What scaling makes of a tree

Deltas act one after the other, and each one looks for its effect in the tree as those before have
left it. They never disturb one another, though: no delta changes the kind of an effect, and what
deltas add stands behind the rest and is never looked for. So every delta has its address in the
tree at the start (`formulaAddress`, `dcAddress`), and the scaled tree can be written down at once
(`scaledTree`): formulas with the terms addressed to them at the end, difficulties raised in order,
and new conditions behind the roots.

A difficulty is clamped each time it is raised, but not before it has been added up in 64 bits. A
sum beyond those wraps around and leaves nothing of the difficulty (`bump_eq`), where clamping alone
would leave the greatest number there is.
-/

namespace Spellwork

namespace Tree

theorem recordsBelow_leaves (q : Option NodeId) (l : List Node) :
    recordsBelow q (Forest.leaves l) = l.map (Node.record q) := by
  induction l with
  | nil => rfl
  | cons n l ih => simp [recordsBelow, ih, Node.record]

end Tree

namespace Upcast

open Spellwork.Tree

/-! ## Addresses -/

/-- Of the effects with a property, the one with the id given, or else the first in the order of the
walk. -/
def addressIn (t : Tree) (target : Option NodeId) (fits : Effect → Bool) : Option NodeId :=
  match target with
  | some id => if (t.get? id).any fun r => fits r.effect then some id else none
  | none => t.preorder.find? fun id => (t.get? id).any fun r => fits r.effect

/-- The damage that a term is for, or else the healing. -/
def formulaAddress (t : Tree) (target : Option NodeId) : Option NodeId :=
  (addressIn t target Effect.isDamage).or (addressIn t target Effect.isHealing)

/-- The saving throw whose difficulty is raised. -/
def dcAddress (t : Tree) (target : Option NodeId) : Option NodeId :=
  addressIn t target hasDC

theorem locate_target (t : Tree) (id : NodeId) (fits : Effect → Bool) :
    locate t (some id) fits =
      if (t.get? id).any (fun r => fits r.effect) then some id else none := by
  show ((t.get? id).filter fun r => fits r.effect).map Record.id = _
  cases hr : t.get? id with
  | none => rfl
  | some r =>
      have hid : r.id = id := by simpa using List.find?_some hr
      by_cases hfits : fits r.effect
      · simp [Option.filter_some, hfits, hid]
      · simp [Option.filter_some, hfits]

/-- What stands at an address has the property. -/
theorem exists_of_addressIn {t : Tree} {target : Option NodeId} {fits : Effect → Bool}
    {id : NodeId} (h : addressIn t target fits = some id) :
    ∃ r, t.get? id = some r ∧ fits r.effect = true := by
  have hany : (t.get? id).any (fun r => fits r.effect) = true := by
    unfold addressIn at h
    split at h
    · split at h
      · cases h
        assumption
      · cases h
    · simpa using List.find?_some h
  exact (Option.any_eq_true _ _).mp hany

theorem addressIn_eq {t : Tree} (h : Valid t) (target : Option NodeId) (fits : Effect → Bool) :
    addressIn t target fits = locate t target fits := by
  cases target with
  | some id => exact (locate_target t id fits).symm
  | none =>
      have hget : ∀ r ∈ t.records, (t.get? r.id).any (fun q => fits q.effect) = fits r.effect := by
        intro r hr
        rw [(get?_eq_some_iff h.ids_nodup).mpr ⟨hr, rfl⟩]
        rfl
      show t.preorder.find? _ = (t.findEffect? fits).map Record.id
      rw [h.preorder_eq, ← map_id_records, List.find?_map, findEffect?]
      congr 1
      rw [← List.head?_filter, ← List.head?_filter]
      exact congrArg List.head? (List.filter_congr hget)

/-! ## The scaled tree -/

/-- The term that a delta adds to a formula; nothing unless the delta is about damage. -/
def termOf (steps : UInt32) (d : Delta) : List Char :=
  match d.operation with
  | .addFlatDamage => flatTerm (amountOf d steps)
  | .addDice => d.dice.elim [] fun dice => diceTerm dice steps
  | _ => []

/-- The terms of the deltas addressed to an effect, in order. -/
def termsFor (t : Tree) (steps : UInt32) (ds : List Delta) (id : NodeId) : List Char :=
  (ds.filter fun d => formulaAddress t d.target = some id).flatMap (termOf steps)

/-- The deltas that raise the difficulty of an effect. -/
def raisers (t : Tree) (ds : List Delta) (id : NodeId) : List Delta :=
  ds.filter fun d => d.operation = .addDC ∧ dcAddress t d.target = some id

/-- A difficulty raised by a delta over several steps, clamped. -/
def clampedDC (steps : UInt32) (dc : UInt32) (d : Delta) : UInt32 :=
  clamp32 (dc.toNat + (d.value.getD 0).toInt * steps.toNat)

/-- A difficulty raised by a delta over several steps: nothing is left of one that goes beyond 64
bits. -/
def raisedDC (steps : UInt32) (dc : UInt32) (d : Delta) : UInt32 :=
  if FitsInt64 (dc.toNat + (amountOf d steps).toInt) then clampedDC steps dc d else 0

/-- A difficulty after the deltas that raise that of an effect, in order. -/
def dcFor (t : Tree) (steps : UInt32) (ds : List Delta) (id : NodeId) (dc : UInt32) : UInt32 :=
  (raisers t ds id).foldl (raisedDC steps) dc

/-- A difficulty that deltas raise one after the other never goes beyond 64 bits. -/
def SumsFit (steps : UInt32) : UInt32 → List Delta → Prop
  | _, [] => True
  | dc, d :: ds =>
    FitsInt64 (dc.toNat + (amountOf d steps).toInt) ∧ SumsFit steps (clampedDC steps dc d) ds

/-- An effect of a tree after deltas. -/
def scaledEffect (t : Tree) (steps : UInt32) (ds : List Delta) (id : NodeId) : Effect → Effect
  | .damage d => .damage { d with formula := d.formula ++ String.ofList (termsFor t steps ds id) }
  | .healing h => .healing { h with formula := h.formula ++ String.ofList (termsFor t steps ds id) }
  | .savingThrow s => .savingThrow { s with dc := s.dc.map (dcFor t steps ds id) }
  | e => e

/-- The context of a condition: the place of its delta, and its name. -/
def conditionContext (index : Nat) (condition : String) : String :=
  "upcast/" ++ String.ofList (Text.natText index) ++ "/" ++ condition

/-- A condition as the root that a delta at a place of its list adds. Its id is the first one minted
for its context. -/
def newcomer (index : Nat) (condition : String) : Node where
  id := (Random.Mint.ofContext (conditionContext index condition)).first
  outcome := none
  effect := .condition { condition }

/-- The root that a delta at a place of its list adds: a condition, if it brings one and the id of
that is not taken. -/
def newCondition (taken : List NodeId) (index : Nat) (d : Delta) : List Node :=
  match d.operation, d.condition with
  | .addCondition, some condition =>
    if (newcomer index condition).id ∈ taken then [] else [newcomer index condition]
  | _, _ => []

/-- The roots that deltas add one after the other, the first one at the place `index`. -/
def newConditions (taken : List NodeId) (index : Nat) : List Delta → List Node
  | [] => []
  | d :: ds =>
    newCondition taken index d ++
      newConditions (taken ++ (newCondition taken index d).map Node.id) (index + 1) ds

/-- A tree after deltas. -/
def scaledTree (t : Tree) (steps : UInt32) (ds : List Delta) : Tree :=
  t.map (fun n => { n with effect := scaledEffect t steps ds n.id n.effect }) ++
    Forest.leaves (newConditions t.ids 0 ds)

/-! ## Contexts -/

/-- Contexts are told apart by the place and by the name. -/
theorem conditionContext_inj {i j : Nat} {c d : String} :
    conditionContext i c = conditionContext j d ↔ i = j ∧ c = d := by
  have hlist : ∀ (i : Nat) (c : String), (conditionContext i c).toList =
      "upcast/".toList ++ (Text.natText i ++ '/' :: c.toList) := by
    intro i c
    simp [conditionContext]
  have hdigits : ∀ (i : Nat) (cs : List Char),
      (Text.natText i ++ '/' :: cs).takeWhile Char.isDigit = Text.natText i := by
    intro i cs
    rw [List.takeWhile_append_of_pos fun _ hc => Text.isDigit_of_mem_natText hc]
    exact List.append_nil _
  constructor
  · intro h
    have htail :=
      List.append_cancel_left ((hlist i c).symm.trans ((congrArg _ h).trans (hlist j d)))
    have htext : Text.natText i = Text.natText j := by
      rw [← hdigits i c.toList, htail, hdigits]
    have hplace := congrArg Text.nat? htext
    rw [Text.nat?_natText, Text.nat?_natText] at hplace
    rw [htext] at htail
    exact ⟨Option.some.inj hplace,
      String.toList_inj.mp (List.cons.inj (List.append_cancel_left htail)).2⟩
  · rintro ⟨rfl, rfl⟩
    rfl

/-! ## Deltas one after the other -/

theorem termsFor_append (t : Tree) (steps : UInt32) (ds es : List Delta) (id : NodeId) :
    termsFor t steps (ds ++ es) id = termsFor t steps ds id ++ termsFor t steps es id := by
  simp [termsFor]

theorem dcFor_append (t : Tree) (steps : UInt32) (ds es : List Delta) (id : NodeId) (dc : UInt32) :
    dcFor t steps (ds ++ es) id dc = dcFor t steps es id (dcFor t steps ds id dc) := by
  simp [dcFor, raisers]

theorem scaledEffect_append (t : Tree) (steps : UInt32) (ds es : List Delta) (id : NodeId)
    (e : Effect) :
    scaledEffect t steps (ds ++ es) id e =
      scaledEffect t steps es id (scaledEffect t steps ds id e) := by
  cases e with
  | damage d => simp [scaledEffect, termsFor_append, String.append_assoc, String.ofList_append]
  | healing h => simp [scaledEffect, termsFor_append, String.append_assoc, String.ofList_append]
  | savingThrow s =>
      obtain ⟨ability, dc⟩ := s
      cases dc <;> simp [scaledEffect, dcFor_append]
  | _ => rfl

theorem scaledEffect_nil (t : Tree) (steps : UInt32) (id : NodeId) (e : Effect) :
    scaledEffect t steps [] id e = e := by
  cases e with
  | savingThrow s =>
      obtain ⟨ability, dc⟩ := s
      cases dc <;> rfl
  | _ => simp [scaledEffect, termsFor]

theorem newConditions_append (taken : List NodeId) (index : Nat) (ds es : List Delta) :
    newConditions taken index (ds ++ es) = newConditions taken index ds ++
      newConditions (taken ++ (newConditions taken index ds).map Node.id)
        (index + ds.length) es := by
  induction ds generalizing taken index with
  | nil => simp [newConditions]
  | cons d ds ih =>
      have hindex : index + (d :: ds).length = index + 1 + ds.length := by
        simp only [List.length_cons]
        omega
      simp only [List.cons_append, newConditions, ih, hindex, List.map_append, List.append_assoc]

theorem scaledTree_nil (t : Tree) (steps : UInt32) : scaledTree t steps [] = t := by
  simp [scaledTree, scaledEffect_nil, newConditions, Forest.map_id]

/-! ## What one delta does -/

/-- An effect after one delta, which looks for its effect in the tree at hand. -/
def nudged (t : Tree) (steps : UInt32) (d : Delta) (id : NodeId) (e : Effect) : Effect :=
  if d.operation = .addDC then
    if locate t d.target hasDC = some id then raiseDC (amountOf d steps) e else e
  else if locateFormula t d.target = some id then
    e.appendFormula (String.ofList (termOf steps d))
  else e

theorem appendFormula_empty (e : Effect) : e.appendFormula "" = e := by
  cases e <;> simp [Effect.appendFormula]

theorem adjust_eq_map_if (id : Option NodeId) (change : Effect → Effect) (t : Tree) :
    (match id with
      | some id => t.adjust id change
      | none => t) =
      t.map fun n => { n with effect := if id = some n.id then change n.effect else n.effect } := by
  cases id with
  | none => simp [Forest.map_id]
  | some id =>
      refine Forest.map_congr fun n _ => ?_
      by_cases hid : n.id = id
      · simp [hid]
      · simp [hid, Ne.symm hid]

theorem extendFormula_eq (t : Tree) (target : Option NodeId) (term : List Char) :
    extendFormula t target term =
      t.map fun n => { n with
        effect := if locateFormula t target = some n.id then
            n.effect.appendFormula (String.ofList term)
          else n.effect } := by
  rw [← adjust_eq_map_if]
  cases term with
  | nil =>
      have hsame : ∀ id, t.adjust id (Effect.appendFormula "") = t := by
        intro id
        unfold adjust
        simp [appendFormula_empty, Forest.map_id]
      cases locateFormula t target with
      | none => rfl
      | some id => exact (hsame id).symm
  | cons c cs => rfl

theorem addCondition_eq (t : Tree) (index : Nat) (condition : String) :
    addCondition t index condition =
      t ++ Forest.leaves (if (newcomer index condition).id ∈ t.ids then []
        else [newcomer index condition]) := by
  have hid : conditionId index condition =
      (Random.Mint.ofContext (conditionContext index condition)).first := by
    rw [conditionId, conditionContext]
  rw [addCondition, hid, newcomer]
  -- how an id is minted is of no account, as long as it is not unfolded
  generalize (Random.Mint.ofContext (conditionContext index condition)).first = id
  unfold Tree.insert attach
  by_cases hmem : id ∈ t.ids
  · simp [contains_iff.mpr hmem, hmem]
  · have hfresh : t.contains id = false :=
      Bool.eq_false_iff.mpr fun h => hmem (contains_iff.mp h)
    simp [hfresh, hmem, Effect.isDamageOutcome, Forest.leaf]

/-- A delta changes the effect that it finds and adds the condition that it brings. -/
theorem effects_applyDelta (s : Scaled) (index : Nat) (d : Delta) :
    (applyDelta s index d).effects =
      s.effects.map (fun n => { n with effect := nudged s.effects s.steps d n.id n.effect }) ++
        Forest.leaves (newCondition s.effects.ids index d) := by
  have hnone : ∀ t : Tree, termOf s.steps d = [] → d.operation ≠ .addDC →
      (t.map fun n => { n with effect := nudged s.effects s.steps d n.id n.effect }) = t := by
    intro t hterm hop
    simp [nudged, hterm, hop, appendFormula_empty, Forest.map_id]
  unfold applyDelta newCondition
  cases hop : d.operation with
  | addFlatDamage => simp [extendFormula_eq, nudged, termOf, hop]
  | addDice =>
      cases hdice : d.dice with
      | none => simp [hnone, termOf, hop, hdice]
      | some dice => simp [extendFormula_eq, nudged, termOf, hop, hdice]
  | addDC =>
      simp only [nudged, hop, Forest.leaves_nil, Forest.append_nil]
      exact adjust_eq_map_if (locate s.effects d.target hasDC) (raiseDC _) s.effects
  | addCondition =>
      have hkept := hnone s.effects (by simp [termOf, hop]) (by simp [hop])
      rw [hkept]
      cases d.condition with
      | none => simp
      | some condition => simp [addCondition_eq]
  | _ => simp [hnone, termOf, hop]

theorem kept_applyDelta (s : Scaled) (index : Nat) (d : Delta) :
    (applyDelta s index d).steps = s.steps ∧ (applyDelta s index d).label = s.label := by
  unfold applyDelta
  cases d.operation with
  | addDice => cases d.dice <;> exact ⟨rfl, rfl⟩
  | addCondition => cases d.condition <;> exact ⟨rfl, rfl⟩
  | _ => exact ⟨rfl, rfl⟩

theorem label_applyDeltas (index : Nat) (ds : List Delta) (s : Scaled) :
    (applyDeltas index ds s).label = s.label := by
  induction ds generalizing index s with
  | nil => rfl
  | cons d ds ih => exact (ih _ _).trans (kept_applyDelta s index d).2

theorem steps_applyDeltas (index : Nat) (ds : List Delta) (s : Scaled) :
    (applyDeltas index ds s).steps = s.steps := by
  induction ds generalizing index s with
  | nil => rfl
  | cons d ds ih => exact (ih _ _).trans (kept_applyDelta s index d).1

/-! ## One delta in closed form -/

/-- An amount is added up in 64 bits before the sum is clamped. -/
theorem bump_eq (n : UInt32) (amount : Int64) :
    bump n amount =
      if FitsInt64 (n.toNat + amount.toInt) then clamp32 (n.toNat + amount.toInt) else 0 := by
  have hn := n.toNat_lt
  have hlow := amount.le_toInt
  have hhigh := amount.toInt_lt
  unfold bump
  rw [widen_add]
  split
  · rename_i hfits
    rw [toInt_ofInt_of_fits hfits]
  · rename_i hlost
    -- the sum cannot fall short of 64 bits, so it exceeds them, and wraps around below zero
    unfold FitsInt64 at hlost
    rw [toInt_ofInt_of_exceeds (by omega) (by omega), ← UInt32.toNat_inj, toNat_clamp32_eq]
    have hzero : (0 : UInt32).toNat = 0 := rfl
    omega

theorem clamp32_add_clamp64 (n : UInt32) (x : Int) :
    clamp32 (n.toNat + (clamp64 x).toInt) = clamp32 (n.toNat + x) := by
  have hn := n.toNat_lt
  rw [← UInt32.toNat_inj, toNat_clamp32_eq, toNat_clamp32_eq, toInt_clamp64_eq]
  omega

theorem bump_amountOf (dc : UInt32) (d : Delta) (steps : UInt32) :
    bump dc (amountOf d steps) = raisedDC steps dc d := by
  have hclamped : clamp32 (dc.toNat + (amountOf d steps).toInt) = clampedDC steps dc d :=
    clamp32_add_clamp64 dc _
  rw [bump_eq, raisedDC, hclamped]

/-- Clamping alone tells what a delta makes of a difficulty just as long as 64 bits hold the sum. -/
theorem raisedDC_eq_clampedDC_iff {steps dc : UInt32} {d : Delta} :
    raisedDC steps dc d = clampedDC steps dc d ↔
      FitsInt64 (dc.toNat + (amountOf d steps).toInt) := by
  unfold raisedDC
  split
  · rename_i hfits
    exact iff_of_true rfl hfits
  · rename_i hlost
    refine iff_of_false (fun heq => ?_) hlost
    have hdc := dc.toNat_lt
    have hamount : (amountOf d steps).toInt = _ := toInt_clamp64_eq _
    have hgreatest := congrArg UInt32.toNat heq
    rw [clampedDC, toNat_clamp32_eq] at hgreatest
    have hzero : (0 : UInt32).toNat = 0 := rfl
    unfold FitsInt64 at hlost
    omega

/-- As long as 64 bits hold all sums, a difficulty is clamped each time it is raised. -/
theorem foldl_raisedDC {steps dc : UInt32} {ds : List Delta} (h : SumsFit steps dc ds) :
    ds.foldl (raisedDC steps) dc = ds.foldl (clampedDC steps) dc := by
  induction ds generalizing dc with
  | nil => rfl
  | cons d ds ih =>
      rw [List.foldl_cons, List.foldl_cons, raisedDC_eq_clampedDC_iff.mpr h.1]
      exact ih h.2

theorem termsFor_singleton (t : Tree) (steps : UInt32) (d : Delta) (id : NodeId) :
    termsFor t steps [d] id =
      if formulaAddress t d.target = some id then termOf steps d else [] := by
  by_cases h : formulaAddress t d.target = some id <;> simp [termsFor, h]

theorem dcFor_singleton (t : Tree) (steps : UInt32) (d : Delta) (id : NodeId) (dc : UInt32) :
    dcFor t steps [d] id dc =
      if d.operation = .addDC ∧ dcAddress t d.target = some id then bump dc (amountOf d steps)
      else dc := by
  rw [bump_amountOf]
  by_cases h : d.operation = .addDC ∧ dcAddress t d.target = some id <;> simp [dcFor, raisers, h]

/-- What deltas do to the effects of a tree is, for one of them, to change what it finds there. -/
theorem scaledEffect_singleton {t : Tree} (h : Valid t) (steps : UInt32) (d : Delta) (id : NodeId)
    (e : Effect) : scaledEffect t steps [d] id e = nudged t steps d id e := by
  have hformula : formulaAddress t d.target = locateFormula t d.target := by
    unfold formulaAddress locateFormula
    rw [addressIn_eq h, addressIn_eq h]
  have hdc : dcAddress t d.target = locate t d.target hasDC := addressIn_eq h _ _
  unfold nudged
  by_cases hop : d.operation = .addDC
  · have hterms : termsFor t steps [d] id = [] := by simp [termsFor_singleton, termOf, hop]
    have hraise : dcFor t steps [d] id =
        fun dc => if dcAddress t d.target = some id then bump dc (amountOf d steps) else dc := by
      funext dc
      simp [dcFor_singleton, hop]
    rw [if_pos hop, ← hdc]
    cases e with
    | savingThrow s =>
        rw [scaledEffect, hraise]
        split <;> simp [raiseDC]
    | _ => simp [scaledEffect, hterms, raiseDC]
  · have hkept : dcFor t steps [d] id = fun dc => dc := by
      funext dc
      simp [dcFor_singleton, hop]
    rw [if_neg hop, ← hformula]
    cases e with
    | savingThrow s => simp [scaledEffect, hkept, Effect.appendFormula]
    | damage d' =>
        rw [scaledEffect, termsFor_singleton]
        split <;> simp [Effect.appendFormula]
    | healing h' =>
        rw [scaledEffect, termsFor_singleton]
        split <;> simp [Effect.appendFormula]
    | _ => simp [scaledEffect, Effect.appendFormula]

/-! ## Addresses do not move -/

theorem isDamage_scaledEffect (t : Tree) (steps : UInt32) (ds : List Delta) (id : NodeId)
    (e : Effect) : (scaledEffect t steps ds id e).isDamage = e.isDamage := by
  cases e <;> rfl

theorem isHealing_scaledEffect (t : Tree) (steps : UInt32) (ds : List Delta) (id : NodeId)
    (e : Effect) : (scaledEffect t steps ds id e).isHealing = e.isHealing := by
  cases e <;> rfl

theorem hasDC_scaledEffect (t : Tree) (steps : UInt32) (ds : List Delta) (id : NodeId)
    (e : Effect) : hasDC (scaledEffect t steps ds id e) = hasDC e := by
  cases e with
  | savingThrow s => simp [scaledEffect, hasDC]
  | _ => rfl

theorem exists_condition_of_mem_newConditions {taken : List NodeId} {index : Nat}
    {ds : List Delta} {n : Node} (h : n ∈ newConditions taken index ds) :
    ∃ c, n.effect = .condition c := by
  induction ds generalizing taken index with
  | nil => cases h
  | cons d ds ih =>
      rcases List.mem_append.mp h with h | h
      · unfold newCondition at h
        split at h
        · split at h
          · cases h
          · rw [List.mem_singleton.mp h]
            exact ⟨_, rfl⟩
        · cases h
      · exact ih h

/-- The records of a scaled tree are those of the tree, changed, and those of new conditions. -/
theorem records_scaledTree (t : Tree) (steps : UInt32) (ds : List Delta) :
    (scaledTree t steps ds).records =
      (t.records.map fun r => { r with effect := scaledEffect t steps ds r.id r.effect }) ++
        (newConditions t.ids 0 ds).map (Node.record none) := by
  have hid : ∀ n : Node,
      Node.id { n with effect := scaledEffect t steps ds n.id n.effect } = n.id := fun _ => rfl
  unfold scaledTree records
  rw [recordsBelow_append, recordsBelow_map hid, recordsBelow_leaves]
  rfl

theorem get?_scaledTree (t : Tree) (steps : UInt32) (ds : List Delta) (id : NodeId) :
    (scaledTree t steps ds).get? id =
      ((t.get? id).map fun r => { r with effect := scaledEffect t steps ds r.id r.effect }).or
        (((newConditions t.ids 0 ds).map (Node.record none)).find? fun r => r.id = id) := by
  rw [get?, records_scaledTree, List.find?_append, List.find?_map]
  rfl

/-- A search that looks at kinds finds in the scaled tree what it finds in the tree. -/
theorem locate_scaledTree (t : Tree) (steps : UInt32) (ds : List Delta) (target : Option NodeId)
    {fits : Effect → Bool} (hkept : ∀ id e, fits (scaledEffect t steps ds id e) = fits e)
    (hnew : ∀ c, fits (.condition c) = false) :
    locate (scaledTree t steps ds) target fits = locate t target fits := by
  have hconditions : ∀ r ∈ (newConditions t.ids 0 ds).map (Node.record none),
      fits r.effect = false := by
    intro r hr
    obtain ⟨n, hn, rfl⟩ := List.mem_map.mp hr
    obtain ⟨c, hc⟩ := exists_condition_of_mem_newConditions hn
    rw [← hnew c, ← hc]
    rfl
  cases target with
  | some id =>
      rw [locate_target, locate_target, get?_scaledTree]
      cases t.get? id with
      | some r => simp [hkept]
      | none =>
          cases hadded : ((newConditions t.ids 0 ds).map (Node.record none)).find?
              fun r => r.id = id with
          | none => rfl
          | some r => simp [hconditions r (List.mem_of_find?_eq_some hadded)]
  | none =>
      have hnone : List.find? (fun r => fits r.effect)
          ((newConditions t.ids 0 ds).map (Node.record none)) = none :=
        List.find?_eq_none.mpr fun r hr => by simp [hconditions r hr]
      show ((scaledTree t steps ds).findEffect? fits).map Record.id =
        (t.findEffect? fits).map Record.id
      rw [findEffect?, records_scaledTree, List.find?_append, hnone, Option.or_none,
        List.find?_map, Option.map_map]
      simp only [Function.comp_def, hkept]
      rfl

theorem nudged_scaledTree (t : Tree) (steps : UInt32) (ds : List Delta) (d : Delta) (id : NodeId)
    (e : Effect) : nudged (scaledTree t steps ds) steps d id e = nudged t steps d id e := by
  unfold nudged locateFormula
  rw [locate_scaledTree t steps ds _ (isDamage_scaledEffect t steps ds) fun _ => rfl,
    locate_scaledTree t steps ds _ (isHealing_scaledEffect t steps ds) fun _ => rfl,
    locate_scaledTree t steps ds _ (hasDC_scaledEffect t steps ds) fun _ => rfl]

/-! ## The run -/

theorem ids_scaledTree (t : Tree) (steps : UInt32) (ds : List Delta) :
    (scaledTree t steps ds).ids = t.ids ++ (newConditions t.ids 0 ds).map Node.id := by
  simp [scaledTree, ids, Forest.labels_leaves, Function.comp_def]

theorem nudged_condition (t : Tree) (steps : UInt32) (d : Delta) (id : NodeId) (c : Condition) :
    nudged t steps d id (.condition c) = .condition c := by
  unfold nudged
  split
  · split <;> rfl
  · split <;> rfl

/-- One more delta: what it does to the scaled tree at hand gives the scaled tree with it. -/
theorem applyDelta_scaledTree {t : Tree} (h : Valid t) {s : Scaled} {ds : List Delta}
    (hs : s.effects = scaledTree t s.steps ds) (d : Delta) :
    (applyDelta s ds.length d).effects = scaledTree t s.steps (ds ++ [d]) := by
  -- no delta changes a condition, so those that earlier deltas added stay as they are
  have hconditions : ((newConditions t.ids 0 ds).map fun n =>
      { n with effect := nudged t s.steps d n.id n.effect }) = newConditions t.ids 0 ds := by
    refine (List.map_congr_left (g := id) fun n hn => ?_).trans (List.map_id _)
    obtain ⟨c, hc⟩ := exists_condition_of_mem_newConditions hn
    obtain ⟨id, outcome, effect⟩ := n
    simp only at hc
    simp [hc, nudged_condition]
  rw [effects_applyDelta, hs, ids_scaledTree]
  simp only [nudged_scaledTree]
  unfold scaledTree
  rw [Forest.map_append, Forest.map_map, Forest.map_leaves, hconditions, newConditions_append,
    Forest.leaves_append, Forest.append_assoc]
  simp only [scaledEffect_append, scaledEffect_singleton h, newConditions, List.append_nil,
    Nat.zero_add]

/-- What is left after deltas from a place of their list on is the scaled tree of all of them. -/
theorem applyDeltas_scaledTree {t : Tree} (h : Valid t) {s : Scaled} {done : List Delta}
    (hs : s.effects = scaledTree t s.steps done) (ds : List Delta) :
    (applyDeltas done.length ds s).effects = scaledTree t s.steps (done ++ ds) := by
  induction ds generalizing done s with
  | nil => rw [List.append_nil, ← hs]; rfl
  | cons d ds ih =>
      have hsteps := (kept_applyDelta s done.length d).1
      have hstep : (applyDelta s done.length d).effects =
          scaledTree t (applyDelta s done.length d).steps (done ++ [d]) := by
        rw [hsteps]
        exact applyDelta_scaledTree h hs d
      have hrest := ih hstep
      rw [hsteps, List.length_append, List.append_assoc] at hrest
      exact hrest

theorem Valid.scaledTree {t : Tree} (h : Valid t) (steps : UInt32) (ds : List Delta) :
    Valid (scaledTree t steps ds) := by
  have hstart : t = Upcast.scaledTree t steps [] := (scaledTree_nil t steps).symm
  have hrun := applyDeltas_scaledTree h (s := { effects := t, steps }) hstart ds
  rw [List.nil_append] at hrun
  rw [← hrun]
  exact (edits_applyDeltas 0 ds { effects := t, steps }).valid h

/-- Scaling adds nothing below an effect. -/
theorem edges?_scaledTree {t : Tree} (h : Valid t) (steps : UInt32) (ds : List Delta)
    (id : NodeId) : (scaledTree t steps ds).edges? id = t.edges? id := by
  have hroots : ((newConditions t.ids 0 ds).map (Node.record none)).filter
      (fun r => r.parent = some id) = [] := by
    refine List.filter_eq_nil_iff.mpr fun r hr => ?_
    obtain ⟨n, -, rfl⟩ := List.mem_map.mp hr
    simp [Node.record]
  have hbranches : (scaledTree t steps ds).branches id = t.branches id := by
    rw [branches_eq (Valid.scaledTree h steps ds).ids_nodup, branches_eq h.ids_nodup,
      records_scaledTree, List.filter_append, hroots, List.append_nil, List.filter_map,
      List.filterMap_map]
    rfl
  unfold edges?
  rw [hbranches]

theorem roots_scaledTree (t : Tree) (steps : UInt32) (ds : List Delta) :
    (scaledTree t steps ds).roots = t.roots ++ (newConditions t.ids 0 ds).map Node.id := by
  simp [scaledTree, Tree.roots, Forest.rootLabels_leaves, Function.comp_def]

/-- The deltas that add no term although they are about damage. -/
def Idle (steps : UInt32) (d : Delta) : Prop :=
  (d.operation = .addFlatDamage ∧ amountOf d steps = 0) ∨
    ∃ dice, d.operation = .addDice ∧ d.dice = some dice ∧ (dice.count = 0 ∨ dice.faces = 0)

theorem termOf_of_idle {steps : UInt32} {d : Delta} (h : Idle steps d) : termOf steps d = [] := by
  rcases h with ⟨hop, hzero⟩ | ⟨dice, hop, hdice, hnone⟩
  · simp [termOf, hop, hzero, flatTerm]
  · simp [termOf, hop, hdice, diceTerm, hnone]

/-- Scaling leaves an effect where it was, with what the deltas addressed to it bring. -/
theorem get?_scaledTree_of_some {t : Tree} (h : Valid t) (steps : UInt32) (ds : List Delta)
    {id : NodeId} {r : Record} (hr : t.get? id = some r) :
    (scaledTree t steps ds).get? id =
      some { r with effect := scaledEffect t steps ds id r.effect } := by
  have hid : r.id = id := ((get?_eq_some_iff h.ids_nodup).mp hr).2
  rw [get?_scaledTree, hr, ← hid]
  rfl

/-- Scaling gives the scaled tree of the deltas chosen. -/
theorem scaleTree_of_select {t : Tree} (h : Valid t) {scaling : Scaling} {choice : Option UInt64}
    {ds : List Delta} {label : Option String} (hselect : select scaling choice = .ok (ds, label))
    {steps : UInt32} (hsteps : steps ≠ 0) :
    scaleTree t scaling steps choice = .ok (scaledTree t steps ds, label) := by
  have hstart : t = scaledTree t steps [] := (scaledTree_nil t steps).symm
  have hrun := applyDeltas_scaledTree h (s := { effects := t, label, steps }) hstart ds
  have hlabel := label_applyDeltas 0 ds { effects := t, label, steps }
  rw [List.nil_append] at hrun
  simp only [scaleTree, run, hselect, hsteps, if_false, Except.map]
  rw [← hrun, hlabel]
  rfl

theorem scaleTree_unchanged (t : Tree) {scaling : Scaling} {choice : Option UInt64}
    {ds : List Delta} {label : Option String} (hselect : select scaling choice = .ok (ds, label))
    {steps : UInt32} (hidle : steps = 0 ∨ scaling.mode = .none) :
    scaleTree t scaling steps choice = .ok (t, label) := by
  simp only [scaleTree, run, hselect, Except.map]
  rcases hidle with rfl | hmode
  · rfl
  · -- without a mode there are no deltas to choose
    have hnone : ds = [] := by
      simp only [select, hmode] at hselect
      cases hselect
      rfl
    subst hnone
    split <;> rfl

end Upcast

open Upcast

/-- A saving throw with a difficulty and damage among its shared rolls. -/
def Tree.fireball : Tree :=
  .node ⟨"save", none, .savingThrow ⟨.dexterity, some 14⟩⟩
    (.leaf ⟨"fire", some .sharedRolls, .damage ⟨.fire, "3d8", none, none, none⟩⟩) .nil

theorem Tree.built_fireball : Built fireball := by
  have hsave : Built (attach none "save" (.savingThrow ⟨.dexterity, some 14⟩) .nil).2 :=
    .step .empty (.attach _ _ _ _)
  exact .step hsave (.attach _ (some ("save", .sharedRolls)) "fire"
    (.damage ⟨.fire, "3d8", none, none, none⟩))

/-- More dice for the first damage, a constant for a certain one, and a higher difficulty. -/
def fireballDeltas : List Delta :=
  [Delta.moreDice 1 8, { Delta.flatDamage 2 with target := some "fire" }, Delta.amount .addDC 1]

end Spellwork
