import Mathlib.Logic.Relation
import Spellwork.Activation.Basic
import Spellwork.Effect.Outline
import Spellwork.Proofs.Valid
import Spellwork.Upcast.Apply

/-!
# What operations are made of

Planting, scaling and activation do nothing to a tree that single edits could not do: each of them
is a run of insertions and of relabellings that keep every kind (`Recast`). So a property that a
single edit keeps is kept by all operations, and no later proof opens one of them. The invariant is
the first such property.
-/

namespace Spellwork

namespace Tree

/-- A single edit. -/
inductive Edit (t : Tree) : Tree → Prop where
  | insert {t' : Tree} {slot : Slot} {id : NodeId} {e : Effect} (h : t.insert slot id e = .ok t') :
      Edit t t'
  | update {t' : Tree} {id : NodeId} {change : Effect → Effect}
      (h : t.update id change = .ok t') : Edit t t'
  | delete {t' : Tree} {id : NodeId} (h : t.delete id = .ok t') : Edit t t'
  | recast {f : Node → Node} (hf : Recast f) : Edit t (t.map f)

/-- Single edits, one after the other. -/
abbrev Edits : Tree → Tree → Prop :=
  Relation.ReflTransGen Edit

theorem Edit.valid {t t' : Tree} (h : Edit t t') (ht : Valid t) : Valid t' := by
  cases h with
  | insert hok => exact ht.insert hok
  | update hok => exact ht.update hok
  | delete hok => exact ht.delete hok
  | recast hf => exact ht.recast hf

theorem Edits.valid {t t' : Tree} (h : Edits t t') (ht : Valid t) : Valid t' := by
  induction h with
  | refl => exact ht
  | tail _ hedit ih => exact hedit.valid ih

/-- Attaching in place is an insertion, or nothing. -/
theorem edits_attach (slot : Slot) (id : NodeId) (e : Effect) (t : Tree) :
    Edits t (t.attach slot id e).2 := by
  cases hres : (t.attach slot id e).1 with
  | error err => rw [attach_eq_of_error hres]
  | ok u => exact .single (.insert (insert_eq_ok_iff.mpr (Prod.ext hres rfl)))

theorem edits_adjust {id : NodeId} {change : Effect → Effect}
    (hkind : ∀ e, (change e).typeName = e.typeName) (t : Tree) : Edits t (t.adjust id change) :=
  .single (.recast (recast_adjustNode hkind))

end Tree

open Spellwork.Tree

/-! ## Planting -/

theorem Outline.edits_plantDrafts {ds : Forest Draft} {parent : Option NodeId} {t t' : Tree}
    {mint mint' : Random.Mint} (h : plantDrafts parent ds t mint = .ok (t', mint')) :
    Edits t t' := by
  induction ds generalizing parent t t' mint mint' with
  | nil =>
      cases h
      exact .refl
  | node d children rest ihc ihr =>
      unfold plantDrafts at h
      dsimp only at h
      split at h
      · cases h
      · rename_i hinsert
        split at h
        · cases h
        · rename_i hchildren
          have hroot : Edits t _ := .single (.insert hinsert)
          exact (hroot.trans (ihc hchildren)).trans (ihr h)

theorem Outline.edits_plant {outlines : List Outline} {mint mint' : Random.Mint} {t : Tree}
    (h : plant outlines mint = .ok (t, mint')) : Edits .nil t :=
  edits_plantDrafts h

/-! ## Scaling -/

namespace Upcast

theorem typeName_appendFormula (more : String) (e : Effect) :
    (e.appendFormula more).typeName = e.typeName := by
  cases e <;> rfl

theorem typeName_raiseDC (amount : Int64) (e : Effect) :
    (raiseDC amount e).typeName = e.typeName := by
  cases e <;> rfl

theorem edits_extendFormula (t : Tree) (target : Option NodeId) (term : List Char) :
    Edits t (extendFormula t target term) := by
  unfold extendFormula
  split
  · exact .refl
  · split
    · exact edits_adjust (typeName_appendFormula _) t
    · exact .refl

theorem edits_bumpDC (t : Tree) (target : Option NodeId) (amount : Int64) :
    Edits t (bumpDC t target amount) := by
  unfold bumpDC
  split
  · exact edits_adjust (typeName_raiseDC amount) t
  · exact .refl

theorem edits_addCondition (t : Tree) (index : Nat) (condition : String) :
    Edits t (addCondition t index condition) := by
  unfold addCondition
  split
  · rename_i hinsert
    exact .single (.insert hinsert)
  · exact .refl

theorem edits_applyDelta (s : Scaled) (index : Nat) (delta : Delta) :
    Edits s.effects (applyDelta s index delta).effects := by
  unfold applyDelta
  cases delta.operation with
  | addFlatDamage => exact edits_extendFormula _ _ _
  | addDice =>
      cases delta.dice with
      | none => exact .refl
      | some dice => exact edits_extendFormula _ _ _
  | addDC => exact edits_bumpDC _ _ _
  | addCondition =>
      cases delta.condition with
      | none => exact .refl
      | some condition => exact edits_addCondition _ _ _
  | _ => exact .refl

theorem edits_applyDeltas (index : Nat) (deltas : List Delta) (s : Scaled) :
    Edits s.effects (applyDeltas index deltas s).effects := by
  induction deltas generalizing index s with
  | nil => exact .refl
  | cons delta deltas ih => exact (edits_applyDelta s index delta).trans (ih _ _)

theorem edits_run {s s' : Scaled} {scaling : Scaling} {choice : Option UInt64}
    (h : run s scaling choice = .ok s') : Edits s.effects s'.effects := by
  unfold run at h
  cases hselect : select scaling choice with
  | error e =>
      rw [hselect] at h
      cases h
  | ok picked =>
      obtain ⟨deltas, label⟩ := picked
      rw [hselect] at h
      have heq := Except.ok.inj h
      subst heq
      dsimp only
      split
      · exact .refl
      · exact edits_applyDeltas 0 deltas { s with label }

theorem edits_scale {p : Profile} {steps : UInt32} {choice : Option UInt64} {s : Scaled}
    (h : scale p steps choice = .ok s) : Edits p.effects s.effects :=
  edits_run h

theorem edits_scaleTree {t t' : Tree} {scaling : Scaling} {steps : UInt32}
    {choice : Option UInt64} {label : Option String}
    (h : scaleTree t scaling steps choice = .ok (t', label)) : Edits t t' := by
  unfold scaleTree at h
  cases hrun : run { effects := t, steps } scaling choice with
  | error e =>
      rw [hrun] at h
      cases h
  | ok s =>
      rw [hrun] at h
      cases h
      exact edits_run hrun

end Upcast

/-! ## Activation -/

theorem Effect.typeName_withRollNote (note : RollNote) (e : Effect) :
    (e.withRollNote note).typeName = e.typeName := by
  cases e <;> rfl

theorem Activation.edits_annotate (t : Tree) (rolls : List ResolvedRoll) :
    Edits t (annotate t rolls) := by
  unfold annotate
  induction rolls generalizing t with
  | nil => exact .refl
  | cons r rolls ih =>
      have hf : Recast (adjustNode r.id fun e => e.withRollNote r.note) :=
        recast_adjustNode (Effect.typeName_withRollNote r.note)
      exact .head (.recast hf) (ih _)

theorem edits_activate {σ : Type u} [DiceSource σ] {t : Tree} {actor : Actor} {subject : Subject}
    {options : ActivationOptions} {s s' : σ} {a : Activation}
    (h : activate t actor subject options s = (.ok a, s')) : Edits t a.tree := by
  unfold activate at h
  split at h
  · obtain ⟨hrolls, -⟩ := Prod.mk.inj h
    cases hres : (Activation.rollRecords actor options true t.flatten s).1 with
    | error e =>
        rw [hres] at hrolls
        cases hrolls
    | ok rolls =>
        rw [hres] at hrolls
        cases hrolls
        exact Activation.edits_annotate t rolls
  · obtain ⟨hres, -⟩ := Prod.mk.inj h
    cases hres
    exact .refl

end Spellwork
