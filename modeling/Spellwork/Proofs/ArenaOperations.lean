import Spellwork.Arena.Operations
import Spellwork.Proofs.ArenaLoading
import Spellwork.Proofs.Planting

/-!
# Planting, scaling and activation of arenas

None of them touches an arena but by look-ups and edits. Since these do to the arena of a tree what
they do to the tree, the same is true of the operations made of them: planting adds drafts one after
the other, scaling acts delta by delta, and activation notes roll by roll.
-/

namespace Spellwork

open Spellwork.Tree

namespace Arena

theorem ofTree_nil : ofTree .nil = empty := rfl

theorem plantDrafts_node (parent : Option NodeId) (d : Draft) (children rest : Forest Draft)
    (a : Arena) (mint : Random.Mint) :
    plantDrafts parent (.node d children rest) a mint =
      (a.insert (Outline.slotOf parent (Outline.nodeOf d mint).outcome) (Outline.nodeOf d mint).id
          (Outline.nodeOf d mint).effect).bind fun a =>
        (plantDrafts (some (Outline.nodeOf d mint).id) children a (Outline.idOf d mint).2).bind
          fun planted => plantDrafts parent rest planted.1 planted.2 := by
  rw [plantDrafts]
  unfold Outline.nodeOf Outline.idOf
  dsimp only
  cases a.insert (Outline.slotOf parent d.outcome) _ d.effect with
  | error e => rfl
  | ok a' =>
      dsimp only [Except.bind]
      cases plantDrafts (some _) children a' _ <;> rfl

end Arena

namespace Tree

namespace Valid

open Spellwork.Arena

/-! ## Planting -/

theorem plantDrafts_ofTree {t : Tree} (h : Valid t) (parent : Option NodeId) (ds : Forest Draft)
    (mint : Random.Mint) :
    Arena.plantDrafts parent ds (ofTree t) mint =
      (Outline.plantDrafts parent ds t mint).map fun result => (ofTree result.1, result.2) := by
  induction ds generalizing parent t mint with
  | nil => rfl
  | node d children rest ihc ihr =>
      rw [plantDrafts_node, Outline.plantDrafts_node, h.insert_ofTree]
      cases hinsert : t.insert (Outline.slotOf parent (Outline.nodeOf d mint).outcome)
          (Outline.nodeOf d mint).id (Outline.nodeOf d mint).effect with
      | error e => rfl
      | ok u =>
          have hu := h.insert hinsert
          dsimp only [Except.map, Except.bind]
          rw [ihc hu]
          cases hchildren : Outline.plantDrafts (some (Outline.nodeOf d mint).id) children u
              (Outline.idOf d mint).2 with
          | error e => rfl
          | ok planted =>
              exact ihr ((Outline.edits_plantDrafts hchildren).valid hu) parent planted.2

end Valid

theorem plant_ofTree (outlines : List Outline) (mint : Random.Mint) :
    Arena.plant outlines mint =
      (Outline.plant outlines mint).map fun result => (Arena.ofTree result.1, result.2) := by
  rw [Arena.plant, ← Arena.ofTree_nil, valid_nil.plantDrafts_ofTree]
  rfl

namespace Valid

open Spellwork.Arena Spellwork.Upcast

/-! ## Scaling -/

variable {t : Tree} (h : Valid t)

include h

theorem locate_ofTree (target : Option NodeId) (fits : Effect → Bool) :
    (ofTree t).locate target fits = Upcast.locate t target fits := by
  cases target with
  | none => rw [Arena.locate, h.findEffect?_ofTree]; rfl
  | some id => rw [Arena.locate, get?_ofTree]; rfl

theorem adjustAt_ofTree {change : Effect → Effect}
    (hkind : ∀ e, (change e).typeName = e.typeName) (found : Option NodeId) :
    (ofTree t).adjustAt found change =
      ofTree (match found with | some id => t.adjust id change | none => t) := by
  cases found with
  | none => rfl
  | some id => exact h.adjust_ofTree (h.recast (recast_adjustNode hkind))

theorem extendFormula_ofTree (target : Option NodeId) (term : List Char) :
    (ofTree t).extendFormula target term = ofTree (Upcast.extendFormula t target term) := by
  unfold Arena.extendFormula Upcast.extendFormula
  rw [h.locate_ofTree, h.locate_ofTree, h.adjustAt_ofTree (typeName_appendFormula _)]
  cases term.isEmpty <;> rfl

theorem bumpDC_ofTree (target : Option NodeId) (amount : Int64) :
    (ofTree t).bumpDC target amount = ofTree (Upcast.bumpDC t target amount) := by
  rw [Arena.bumpDC, h.locate_ofTree, h.adjustAt_ofTree (typeName_raiseDC amount)]
  rfl

/-- A condition that is refused leaves the arena as it is, and so does the edit of the tree. -/
theorem addCondition_ofTree (index : Nat) (condition : String) :
    (ofTree t).addCondition index condition = ofTree (Upcast.addCondition t index condition) := by
  rw [Arena.addCondition, h.attach_ofTree, Upcast.addCondition, Tree.insert]
  rcases attach_cases none (conditionId index condition) (.condition { condition }) t with
    ⟨err, heq⟩ | ⟨-, -, -, heq⟩ | ⟨_, _, _, hslot, -⟩
  · rw [heq]
  · rw [heq]
  · cases hslot

end Valid

end Tree

namespace ScaledArena

open Spellwork.Arena

/-- A scaled ability with its tree in an arena. -/
def ofScaled (s : Scaled) : ScaledArena where
  effects := ofTree s.effects
  targets := s.targets
  area := s.area
  duration := s.duration
  label := s.label
  steps := s.steps

theorem applyDelta_ofScaled {s : Scaled} (h : Valid s.effects) (index : Nat) (delta : Delta) :
    (ofScaled s).applyDelta index delta = ofScaled (Upcast.applyDelta s index delta) := by
  cases hop : delta.operation with
  | addFlatDamage =>
      simp [applyDelta, Upcast.applyDelta, hop, ofScaled, h.extendFormula_ofTree]
  | addDice =>
      cases hdice : delta.dice <;>
        simp [applyDelta, Upcast.applyDelta, hop, hdice, ofScaled, h.extendFormula_ofTree]
  | addDC => simp [applyDelta, Upcast.applyDelta, hop, ofScaled, h.bumpDC_ofTree]
  | addCondition =>
      cases hcondition : delta.condition <;>
        simp [applyDelta, Upcast.applyDelta, hop, hcondition, ofScaled, h.addCondition_ofTree]
  | _ => simp [applyDelta, Upcast.applyDelta, hop, ofScaled, beside]

theorem applyDeltas_ofScaled {s : Scaled} (h : Valid s.effects) (index : Nat)
    (deltas : List Delta) :
    applyDeltas index deltas (ofScaled s) = ofScaled (Upcast.applyDeltas index deltas s) := by
  induction deltas generalizing index s with
  | nil => rfl
  | cons delta deltas ih =>
      have hnext := (Upcast.edits_applyDelta s index delta).valid h
      rw [applyDeltas, Upcast.applyDeltas, applyDelta_ofScaled h, ih hnext]

theorem run_ofScaled {s : Scaled} (h : Valid s.effects) (scaling : Scaling)
    (choice : Option UInt64) :
    (ofScaled s).run scaling choice = (Upcast.run s scaling choice).map ofScaled := by
  unfold run Upcast.run
  cases Upcast.select scaling choice with
  | error e => rfl
  | ok picked =>
      obtain ⟨deltas, label⟩ := picked
      have hsteps := applyDeltas_ofScaled (s := { s with label }) h 0 deltas
      by_cases hzero : s.steps = 0
      · simp [ofScaled, hzero, Except.map]
      · simpa [ofScaled, hzero, Except.map] using hsteps

end ScaledArena

namespace Tree

namespace Valid

open Spellwork.Arena

variable {t : Tree} (h : Valid t)

include h

/-! ## Activation -/

theorem annotate_ofTree (rolls : List ResolvedRoll) :
    (ofTree t).annotate rolls = ofTree (Activation.annotate t rolls) := by
  unfold Arena.annotate Activation.annotate
  induction rolls generalizing t with
  | nil => rfl
  | cons r rolls ih =>
      have hnoted : Valid (t.adjust r.id fun e => e.withRollNote r.note) :=
        h.recast (recast_adjustNode (Effect.typeName_withRollNote r.note))
      rw [List.foldl_cons, List.foldl_cons, h.adjust_ofTree hnoted]
      exact ih hnoted

theorem activate_ofTree {σ : Type u} [DiceSource σ] (actor : Actor) (subject : Subject)
    (options : ActivationOptions) (s : σ) :
    (ofTree t).activate actor subject options s =
      ((Spellwork.activate t actor subject options s).1.map fun a =>
        ⟨a.rolls, ofTree a.tree, a.fastForward⟩,
        (Spellwork.activate t actor subject options s).2) := by
  unfold Arena.activate Spellwork.activate
  rw [h.flatten_ofTree]
  cases subject.hasRolls with
  | false => rfl
  | true =>
      simp only [if_true, h.annotate_ofTree]
      cases (Activation.rollRecords actor options true t.flatten s).1 <;> rfl

end Valid

end Tree

end Spellwork
