import Spellwork.Proofs.ActionShape
import Spellwork.Proofs.Activation
import Spellwork.Proofs.CutFormulas

/-!
# Formulas of actions

An action has at most one formula, and all its damage carries it. It is cut out of the words of the
action as a sum; whether the sum can be read, and with it whether the effects of the action can be
activated, is up to the operands alone (`Action.readable_effects_iff`).
-/

namespace Spellwork

open Spellwork.Forest Spellwork.Tree Activation

namespace Action

open Prose

/-! ## What is rolled -/

/-- The effects of an action are those of its shape. -/
theorem exists_mem_shape {a : Action} {r : Record} (hr : r ∈ a.effects) :
    ∃ o, (o, r.effect) ∈ a.shape.labels := by
  obtain ⟨t, -, hbare, hstore, hshape, hnil⟩ := a.exists_tree
  rw [← hstore, hbare.flatten_eq] at hr
  by_cases hnd : a.mintedIds.Nodup
  · have hlabel : r.node ∈ t.labels := by
      rw [← map_node_recordsBelow none]
      exact List.mem_map_of_mem hr
    refine ⟨r.outcome, ?_⟩
    rw [← (hshape hnd).1, labels_map]
    exact List.mem_map_of_mem hlabel
  · rw [hnil hnd] at hr
    cases hr

theorem formula?_of_damage? {a : Action} {e : Effect} (he : a.damage? = some e) :
    a.formula? = e.formula? := by
  obtain ⟨formula, hformula, rfl⟩ := Option.map_eq_some_iff.mp he
  exact hformula

theorem formula?_of_mem_saveEdges {a : Action} {save : SaveClause} {cs : List ConditionClause}
    {d : Option Outcome × Effect} (hd : d ∈ a.saveEdges save cs) :
    d.2.formula? = none ∨ a.formula? = d.2.formula? := by
  simp only [saveEdges, edge, fullMarker, halfMarker, List.mem_append, List.mem_map] at hd
  rcases hd with (⟨e, he, rfl⟩ | ⟨e, he | ⟨name, -, rfl⟩, rfl⟩) | ⟨e, he, rfl⟩
  · exact Or.inr (formula?_of_damage? (Option.mem_toList.mp he))
  · left
    split at he
    · rw [List.mem_singleton.mp he]
      rfl
    · cases he
  · exact Or.inl rfl
  · left
    split at he
    · rw [List.mem_singleton.mp he]
      rfl
    · cases he

theorem formula?_of_mem_damageEdges {cs : List ConditionClause} {d : Option Outcome × Effect}
    (hd : d ∈ damageEdges cs) : d.2.formula? = none := by
  simp only [damageEdges, edge, conditionsFor, List.mem_append, List.mem_map, List.mem_cons] at hd
  rcases hd with ⟨e, rfl | ⟨c, -, rfl⟩, rfl⟩ | ⟨e, ⟨c, -, rfl⟩, rfl⟩
  all_goals rfl

/-- Nothing but the formula of the action is rolled. -/
theorem formula?_of_mem_shape {a : Action} {d : Option Outcome × Effect}
    (hd : d ∈ a.shape.labels) : d.2.formula? = none ∨ a.formula? = d.2.formula? := by
  unfold shape at hd
  dsimp only at hd
  split at hd
  · simp only [labels_node, labels_leaves, labels_nil, List.append_nil, List.mem_cons] at hd
    rcases hd with rfl | hd
    · exact Or.inl rfl
    · exact formula?_of_mem_saveEdges hd
  · rename_i damage _ hdamage
    simp only [labels_node, labels_leaves, labels_nil, List.append_nil, List.mem_cons] at hd
    rcases hd with rfl | hd
    · exact Or.inr (formula?_of_damage? hdamage)
    · exact Or.inl (formula?_of_mem_damageEdges hd)
  · rw [labels_leaves] at hd
    obtain ⟨c, -, rfl⟩ := List.mem_map.mp hd
    exact Or.inl rfl

theorem formula?_of_mem_effects {a : Action} {r : Record} (hr : r ∈ a.effects) {text : String}
    (htext : r.effect.formula? = some text) : a.formula? = some text := by
  obtain ⟨o, hmem⟩ := exists_mem_shape hr
  rcases formula?_of_mem_shape hmem with hnone | hsame
  · rw [hnone] at htext
    cases htext
  · exact hsame.trans htext

/-- What is loaded from the records of an action has these records. -/
theorem records_of_load {a : Action} {t : Tree} (ht : Tree.ofRecords? a.effects = .ok t) :
    Valid t ∧ t.records = a.effects := by
  obtain ⟨t', hvalid, hbare, hstore, -⟩ := a.exists_tree
  rw [← hstore, hvalid.ofRecords?_flatten, clearRoots_eq_iff.mpr hbare] at ht
  cases ht
  exact ⟨hvalid, hbare.flatten_eq.symm.trans hstore⟩

section Activate

variable {σ : Type u} [DiceSource σ] (actor : Actor) {subject : Subject}
  (hsubject : subject ≠ .grantOnly) (options : ActivationOptions) (s : σ)

include hsubject

/-- All formulas among the records are the one that is found in any of them. -/
theorem exists_activate_iff_read {a : Action} {r : Record} (hr : r ∈ a.effects) {text : String}
    (htext : r.effect.formula? = some text) {t : Tree}
    (ht : Tree.ofRecords? a.effects = .ok t) :
    (∃ result s', activate t actor subject options s = (.ok result, s')) ↔
      ∃ f, Formula.read text = .ok f := by
  have hformula := formula?_of_mem_effects hr htext
  obtain ⟨hvalid, hrecords⟩ := records_of_load ht
  rw [hvalid.exists_activate_iff actor hsubject, hvalid.rolled_eq, hrecords]
  constructor
  · intro hall
    have hrolled : r.effect.isRolled = true := by simp [Effect.isRolled, htext]
    obtain ⟨found, f, hfound, hf⟩ := hall r (List.mem_filter.mpr ⟨hr, hrolled⟩)
    obtain rfl : text = found := Option.some.inj (htext.symm.trans hfound)
    exact ⟨f, hf⟩
  · rintro ⟨f, hf⟩ q hq
    obtain ⟨hmem, hrolled⟩ := List.mem_filter.mp hq
    obtain ⟨found, hfound⟩ := Option.isSome_iff_exists.mp hrolled
    have hsame := (formula?_of_mem_effects hmem hfound).symm.trans hformula
    obtain rfl : found = text := Option.some.inj hsame
    exact ⟨found, f, hfound, hf⟩

end Activate

/-! ## What is cut out -/

theorem exists_sum_of_formula? {a : Action} {formula : String} (h : a.formula? = some formula) :
    ∃ s : Formula.Sum, (∀ o ∈ s.operands, o.Decimal) ∧ formula = String.ofList s.text := by
  unfold formula? at h
  split at h
  · rename_i leading hleading
    cases h
    obtain ⟨field, -, hfield⟩ := Option.bind_eq_some_iff.mp hleading
    exact exists_sum_of_leadingFormula? hfield
  · exact exists_sum_of_embeddedFormula? h

/-- The formula of damage that is read out of an action is a sum of numerals and dice. It can be
read, and the effects can be activated, if and only if every operand is sound: in ASCII digits, with
faces if it is dice, and within range. -/
theorem readable_effects_iff {σ : Type u} [DiceSource σ] (a : Action) {r : Record}
    (hr : r ∈ a.effects) {d : Damage} (hd : r.effect = .damage d) {t : Tree}
    (ht : Tree.ofRecords? a.effects = .ok t) (actor : Actor) {subject : Subject}
    (hsubject : subject ≠ .grantOnly) (options : ActivationOptions) (s : σ) :
    ∃ sum : Formula.Sum, (∀ o ∈ sum.operands, o.Decimal) ∧ d.formula = String.ofList sum.text ∧
      ((∃ f, Formula.read d.formula = .ok f) ↔ ∀ o ∈ sum.operands, o.Sound) ∧
      ((∃ result s', activate t actor subject options s = (.ok result, s')) ↔
        ∀ o ∈ sum.operands, o.Sound) := by
  have htext : r.effect.formula? = some d.formula := by rw [hd]; rfl
  obtain ⟨sum, hdecimal, hsum⟩ := exists_sum_of_formula? (formula?_of_mem_effects hr htext)
  have hread : (∃ f, Formula.read d.formula = .ok f) ↔ ∀ o ∈ sum.operands, o.Sound := by
    rw [hsum]
    exact Formula.Sum.exists_read_iff hdecimal
  exact ⟨sum, hdecimal, hsum, hread,
    (exists_activate_iff_read actor hsubject options s hr htext ht).trans hread⟩

theorem readable_effects_claw :
    ∃ t, Tree.ofRecords? claw.effects = .ok t ∧
      ∃ sum : Formula.Sum, (∀ o ∈ sum.operands, o.Decimal) ∧ "2d6+4" = String.ofList sum.text ∧
        ((∃ f, Formula.read "2d6+4" = .ok f) ↔ ∀ o ∈ sum.operands, o.Sound) ∧
        ((∃ result s', activate t {} .monsterAction {} (⟨[5, 3], 1⟩ : DiceScript) =
          (.ok result, s')) ↔ ∀ o ∈ sum.operands, o.Sound) := by
  obtain ⟨t, hload⟩ : ∃ t, Tree.ofRecords? claw.effects = .ok t := by
    rw [effects_claw]
    exact ⟨_, rfl⟩
  have hmem : (⟨"QuWLBcbmyMHysNoN", none, none,
      .damage { damageType := .slashing, formula := "2d6+4" }⟩ : Record) ∈ claw.effects := by
    rw [effects_claw]
    exact List.mem_cons_self
  have hsubject : Subject.monsterAction ≠ .grantOnly := by decide
  exact ⟨t, hload,
    readable_effects_iff claw hmem rfl hload {} hsubject {} (⟨[5, 3], 1⟩ : DiceScript)⟩

/-- An action whose damage is written with dice without faces. -/
def faceless : Action where
  damageFormula := some "1d0 fire"

/-- Dice without faces get into a formula that cannot be read. -/
theorem unreadable_effects_faceless :
    ¬ ∀ r ∈ faceless.effects, ∀ d, r.effect = .damage d → ∃ f, Formula.read d.formula = .ok f := by
  have heffects : faceless.effects =
      [⟨"lQey7TJmwr3IHq6r", none, none, .damage { damageType := .fire, formula := "1d0" }⟩,
        ⟨"ZcHbxqbMTopQfFtF", some "lQey7TJmwr3IHq6r", some .hit, .damageOutcome .fullDamage⟩] := by
    decide +kernel
  have hread : Formula.read "1d0" = .error .zeroFaces := by decide +kernel
  intro hall
  rw [heffects] at hall
  obtain ⟨f, hf⟩ := hall _ List.mem_cons_self _ rfl
  rw [hread] at hf
  cases hf

end Action

end Spellwork
