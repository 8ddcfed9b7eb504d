import Spellwork.Proofs.Edits
import Spellwork.Proofs.Loading

/-!
# All trees there are

A tree comes into being empty, from an outline, or by loading a list of records, and changes by the
operations of `Step`. Every tree that arises so is valid, whatever the operations are and however
many. What that means for the maps in which a tree is kept is said in `Spellwork.Arena.Consistent`.
-/

namespace Spellwork

namespace Tree

/-- One operation on a tree. Attaching hands back the tree it worked on also where it fails. -/
inductive Step : Tree → Tree → Prop where
  | attach (t : Tree) (slot : Slot) (id : NodeId) (e : Effect) : Step t (t.attach slot id e).2
  | insert {t t' : Tree} {slot : Slot} {id : NodeId} {e : Effect}
      (h : t.insert slot id e = .ok t') : Step t t'
  | update {t t' : Tree} {id : NodeId} {change : Effect → Effect}
      (h : t.update id change = .ok t') : Step t t'
  | delete {t t' : Tree} {id : NodeId} (h : t.delete id = .ok t') : Step t t'
  | scale {p : Profile} {steps : UInt32} {choice : Option UInt64} {s : Scaled}
      (h : Upcast.scale p steps choice = .ok s) : Step p.effects s.effects
  | scaleTree {t t' : Tree} {scaling : Scaling} {steps : UInt32} {choice : Option UInt64}
      {label : Option String} (h : Upcast.scaleTree t scaling steps choice = .ok (t', label)) :
      Step t t'
  | activate {σ : Type} [DiceSource σ] {t : Tree} {actor : Actor} {subject : Subject}
      {options : ActivationOptions} {s s' : σ} {a : Activation}
      (h : Spellwork.activate t actor subject options s = (.ok a, s')) : Step t a.tree

/-- The trees that operations build from nothing or from an outline. -/
inductive Built : Tree → Prop where
  | empty : Built .nil
  | plant {outlines : List Outline} {mint mint' : Random.Mint} {t : Tree}
      (h : Outline.plant outlines mint = .ok (t, mint')) : Built t
  | step {t t' : Tree} (h : Built t) (hs : Step t t') : Built t'

/-- The trees that operations make of those that are built and those that are loaded. -/
inductive Reachable : Tree → Prop where
  | empty : Reachable .nil
  | plant {outlines : List Outline} {mint mint' : Random.Mint} {t : Tree}
      (h : Outline.plant outlines mint = .ok (t, mint')) : Reachable t
  | load {rs : List Record} {t : Tree} (h : ofRecords? rs = .ok t) : Reachable t
  | step {t t' : Tree} (h : Reachable t) (hs : Step t t') : Reachable t'

theorem Step.edits {t t' : Tree} (h : Step t t') : Edits t t' := by
  cases h with
  | attach t slot id e => exact edits_attach slot id e t
  | insert hok => exact .single (.insert hok)
  | update hok => exact .single (.update hok)
  | delete hok => exact .single (.delete hok)
  | scale hok => exact Upcast.edits_scale hok
  | scaleTree hok => exact Upcast.edits_scaleTree hok
  | activate hok => exact edits_activate hok

theorem Built.reachable {t : Tree} (h : Built t) : Reachable t := by
  induction h with
  | empty => exact .empty
  | plant hok => exact .plant hok
  | step _ hs ih => exact .step ih hs

theorem Reachable.valid {t : Tree} (h : Reachable t) : Valid t := by
  induction h with
  | empty => exact valid_nil
  | plant hok => exact (Outline.edits_plant hok).valid valid_nil
  | load hok =>
      obtain ⟨hacceptable, rfl⟩ := ofRecords?_eq_ok_iff.mp hok
      exact valid_grow hacceptable
  | step _ hs ih => exact hs.edits.valid ih

/-- A saving throw with damage among its shared rolls. -/
def sharedRoll : Tree :=
  .node ⟨"save", none, .savingThrow ⟨.will, none⟩⟩
    (.leaf ⟨"fire", some .sharedRolls, .damage ⟨.fire, "2d6", none, none, none⟩⟩) .nil

theorem built_sharedRoll : Built sharedRoll := by
  have hsave : Built (attach none "save" (.savingThrow ⟨.will, none⟩) .nil).2 :=
    .step .empty (.attach _ _ _ _)
  exact .step hsave (.attach _ (some ("save", .sharedRolls)) "fire"
    (.damage ⟨.fire, "2d6", none, none, none⟩))

/-- A saving throw with damage among its shared rolls and two graded failures. -/
def gradedFailures : Tree :=
  .node ⟨"save", none, .savingThrow ⟨.will, some 15⟩⟩
    (.leaf ⟨"fire", some .sharedRolls, .damage ⟨.fire, "2d6", none, none, none⟩⟩ ++
      .leaf ⟨"prone", some (.failedSaveBy 5), .condition ⟨"prone", none⟩⟩ ++
      .leaf ⟨"stunned", some (.failedSaveBy 10), .condition ⟨"stunned", none⟩⟩) .nil

theorem built_gradedFailures : Built gradedFailures := by
  have hsave : Built (attach none "save" (.savingThrow ⟨.will, some 15⟩) .nil).2 :=
    .step .empty (.attach _ _ _ _)
  have hfire := hsave.step (.attach _ (some ("save", .sharedRolls)) "fire"
    (.damage ⟨.fire, "2d6", none, none, none⟩))
  have hstunned := hfire.step (.attach _ (some ("save", .failedSaveBy 10)) "stunned"
    (.condition ⟨"stunned", none⟩))
  exact hstunned.step (.attach _ (some ("save", .failedSaveBy 5)) "prone"
    (.condition ⟨"prone", none⟩))

end Tree

end Spellwork
