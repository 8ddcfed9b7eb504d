import Spellwork.Proofs.Activation
import Spellwork.Proofs.RoundTrip
import Spellwork.Proofs.Scaling

/-!
# Activating again

The notes that an activation leaves on a tree are never looked at: what is rolled is told by ids and
formulas alone, and the note of a new roll takes the place of an older one. So an annotated tree
that is stored, loaded and activated with the dice of the first time comes out as the first time
(`Tree.Reachable.activate_again`), and so does every tree that differs from it in notes only.
-/

namespace Spellwork

open Spellwork.Tree

/-! ## Effects without notes -/

/-- The effect without the result of a roll. -/
def Effect.unnoted : Effect → Effect
  | damage d => damage { d with rollNote := none }
  | healing h => healing { h with rollNote := none }
  | e => e

namespace Effect

theorem unnoted_withRollNote (note : RollNote) (e : Effect) :
    (e.withRollNote note).unnoted = e.unnoted := by
  cases e <;> rfl

/-- A new note takes the place of an old one. -/
theorem withRollNote_unnoted (note : RollNote) (e : Effect) :
    e.unnoted.withRollNote note = e.withRollNote note := by
  cases e <;> rfl

theorem isRolled_unnoted (e : Effect) : e.unnoted.isRolled = e.isRolled := by
  cases e <;> rfl

theorem unnoted_of_not_isRolled {e : Effect} (h : e.isRolled = false) : e.unnoted = e := by
  cases e with
  | damage d => cases h
  | healing h' => cases h
  | _ => rfl

end Effect

def Node.unnoted (n : Node) : Node :=
  { n with effect := n.effect.unnoted }

def Record.unnoted (r : Record) : Record :=
  { r with effect := r.effect.unnoted }

/-- The tree without the results of rolls. -/
def Tree.unnoted (t : Tree) : Tree :=
  t.map Node.unnoted

theorem Tree.flatten_unnoted (t : Tree) : t.unnoted.flatten = t.flatten.map Record.unnoted :=
  flatten_map_effect Effect.unnoted t

theorem Tree.exists_label_of_unnoted_eq {t u : Tree} (h : u.unnoted = t.unnoted) {n : Node}
    (hn : n ∈ u.labels) :
    ∃ m ∈ t.labels, m.id = n.id ∧ m.effect.isRolled = n.effect.isRolled := by
  have hmem : n.unnoted ∈ t.unnoted.labels := by
    rw [← h, unnoted, Forest.labels_map]
    exact List.mem_map_of_mem hn
  rw [unnoted, Forest.labels_map] at hmem
  obtain ⟨m, hm, hmn⟩ := List.mem_map.mp hmem
  have hid : m.unnoted.id = n.unnoted.id := congrArg Node.id hmn
  have heffect : m.effect.unnoted = n.effect.unnoted := congrArg Node.effect hmn
  exact ⟨m, hm, hid, by rw [← Effect.isRolled_unnoted, heffect, Effect.isRolled_unnoted]⟩

/-! ## Rolls -/

namespace Activation

section Rolls

variable {σ : Type u} [DiceSource σ] (actor : Actor) (options : ActivationOptions)

/-- No roll depends on a note. -/
theorem rollRecords_unnoted (primary : Bool) (rs : List Record) (s : σ) :
    rollRecords actor options primary (rs.map Record.unnoted) s =
      rollRecords actor options primary rs s := by
  induction rs generalizing primary s with
  | nil => rfl
  | cons r rest ih =>
      obtain ⟨id, parent, outcome, effect⟩ := r
      -- the configuration of the primary die reads the damage, but not its note
      have hconfig : ∀ d : Damage,
          primaryConfig { d with rollNote := none } actor options =
            primaryConfig d actor options := fun _ => rfl
      cases effect <;> simp only [List.map_cons, Record.unnoted, Effect.unnoted, rollRecords, ih,
        hconfig]

end Rolls

/-- On an effect that a roll was made for, and on one that nothing is rolled for, older notes make
no difference. -/
theorem noted_unnoted {rolls : List ResolvedRoll} {n : Node}
    (h : n.effect.isRolled = true → n.id ∈ rolls.map ResolvedRoll.id) :
    noted rolls n.unnoted = noted rolls n := by
  unfold noted Node.unnoted
  dsimp only
  cases hfind : rolls.find? fun x => x.id = n.id with
  | some x => simp only [Effect.withRollNote_unnoted]
  | none =>
      have hidle : n.effect.isRolled = false := by
        refine Bool.eq_false_iff.mpr fun hrolled => ?_
        obtain ⟨x, hx, hid⟩ := List.mem_map.mp (h hrolled)
        exact List.find?_eq_none.mp hfind x hx (decide_eq_true hid)
      simp only [Effect.unnoted_of_not_isRolled hidle]

theorem unnoted_noted (rolls : List ResolvedRoll) (n : Node) :
    (noted rolls n).unnoted = n.unnoted := by
  unfold noted Node.unnoted
  split
  · simp only [Effect.unnoted_withRollNote]
  · rfl

theorem map_noted_unnoted {rolls : List ResolvedRoll} {t : Tree}
    (h : ∀ n ∈ t.labels, n.effect.isRolled = true → n.id ∈ rolls.map ResolvedRoll.id) :
    t.unnoted.map (noted rolls) = t.map (noted rolls) := by
  rw [Tree.unnoted, Forest.map_map]
  exact Forest.map_congr fun n hn => noted_unnoted (h n hn)

end Activation

open Activation

/-! ## Trees that differ in notes only -/

section Runs

variable {σ : Type u} [DiceSource σ] {t u : Tree} {actor : Actor} {subject : Subject}
  {options : ActivationOptions} {s s' : σ} {a : Activation}

/-- What an activation that rolls leaves behind: a roll for every effect that is rolled for, and the
tree with their notes. -/
theorem Tree.Valid.exists_rolls_of_activate (h : Valid t) (hsubject : subject ≠ .grantOnly)
    (hrun : activate t actor subject options s = (.ok a, s')) :
    ∃ rolls, RolledInOrder actor options true t.rolled s rolls s' ∧
      rollRecords actor options true t.flatten s = (.ok rolls, s') ∧
      (rolls.map ResolvedRoll.id).Nodup ∧
      (∀ n ∈ t.labels, n.effect.isRolled = true → n.id ∈ rolls.map ResolvedRoll.id) ∧
      a = ⟨rolls, t.map (noted rolls), options.fastForward⟩ := by
  have hread := (h.exists_activate_iff actor hsubject options s).mp ⟨a, s', hrun⟩
  obtain ⟨rolls, s₁, hrolls, hroll⟩ := rollRecords_of_readable actor options hread true s
  have hnd : (rolls.map ResolvedRoll.id).Nodup := by
    rw [hrolls.map_id]
    exact h.nodup_ids_rolled
  have hresult := h.activate_of_hasRolls actor hsubject options s
  rw [hrun, hroll] at hresult
  cases hresult
  refine ⟨rolls, hrolls, ?_, hnd, fun n hn hrolled => ?_, by rw [← annotate_eq hnd]⟩
  · rw [h.rollRecords_flatten, hroll]
  · obtain ⟨q, hq⟩ := exists_record_of_label hn
    rw [hrolls.map_id, h.rolled_eq]
    exact List.mem_map_of_mem (List.mem_filter.mpr ⟨hq, hrolled⟩)

/-- A tree that differs in notes only is activated with the same result. -/
theorem Tree.Valid.activate_of_unnoted_eq (h : Valid t) (hsubject : subject ≠ .grantOnly)
    (hrun : activate t actor subject options s = (.ok a, s')) (hu : u.unnoted = t.unnoted) :
    activate u actor subject options s = (.ok a, s') := by
  obtain ⟨rolls, -, hroll, hnd, hall, rfl⟩ := h.exists_rolls_of_activate hsubject hrun
  have hroll' : rollRecords actor options true u.flatten s = (.ok rolls, s') := by
    rw [← rollRecords_unnoted, ← flatten_unnoted, hu, flatten_unnoted, rollRecords_unnoted, hroll]
  have hall' : ∀ n ∈ u.labels, n.effect.isRolled = true → n.id ∈ rolls.map ResolvedRoll.id := by
    intro n hn hrolled
    obtain ⟨m, hm, hid, hkind⟩ := exists_label_of_unnoted_eq hu hn
    rw [← hid]
    exact hall m hm (hkind.trans hrolled)
  have htree : annotate u rolls = t.map (noted rolls) := by
    rw [annotate_eq hnd, ← map_noted_unnoted hall', hu, map_noted_unnoted hall]
  simp [activate, Subject.hasRolls, hsubject, hroll', htree, Except.map]

/-- An activation changes nothing but notes. -/
theorem Tree.Valid.unnoted_activate (h : Valid t)
    (hrun : activate t actor subject options s = (.ok a, s')) : a.tree.unnoted = t.unnoted := by
  by_cases hsubject : subject = .grantOnly
  · subst hsubject
    cases hrun
    rfl
  · obtain ⟨rolls, -, -, -, -, rfl⟩ := h.exists_rolls_of_activate hsubject hrun
    rw [Tree.unnoted, Forest.map_map]
    exact Forest.map_congr fun n _ => unnoted_noted rolls n

/-- Where no root carries an outcome, the tree that an activation gives back can be stored, loaded
and activated again with the same dice: the rolls, the tree and the dice left are those of the first
time. Whatever the notes on a tree are, they change nothing about what is rolled, and where anything
is rolled they change nothing about the tree that comes of it. -/
theorem Tree.Reachable.activate_again (h : Reachable t) (hbare : RootsBare t)
    (hrun : activate t actor subject options s = (.ok a, s')) :
    (∃ stored, ofRecords? a.tree.flatten = .ok stored ∧
      activate stored actor subject options s = (.ok a, s')) ∧
    ∀ u, Tree.unnoted u = t.unnoted →
      ∃ b, activate u actor subject options s = (.ok b, s') ∧ b.rolls = a.rolls ∧
        (subject ≠ .grantOnly → b = a) := by
  have hvalid := h.valid
  have hedits := edits_activate hrun
  have hload : ofRecords? a.tree.flatten = .ok a.tree := by
    rw [(hedits.valid hvalid).ofRecords?_flatten, clearRoots_eq_iff.mpr (hedits.rootsBare hbare)]
  by_cases hsubject : subject = .grantOnly
  · subst hsubject
    cases hrun
    exact ⟨⟨_, hload, rfl⟩, fun u _ => ⟨_, rfl, rfl, fun hne => absurd rfl hne⟩⟩
  · refine ⟨⟨_, hload, ?_⟩, fun u hu => ⟨a, ?_, rfl, fun _ => rfl⟩⟩
    · exact hvalid.activate_of_unnoted_eq hsubject hrun (hvalid.unnoted_activate hrun)
    · exact hvalid.activate_of_unnoted_eq hsubject hrun hu

end Runs

theorem Tree.activate_again_healingFirst :
    Reachable healingFirst ∧ RootsBare healingFirst ∧ ∃ a s',
      activate healingFirst {} .spell {} (DiceScript.mk [4, 6, 6, 2] 2) = (.ok a, s') ∧
      ∃ stored, ofRecords? a.tree.flatten = .ok stored ∧
        activate stored {} .spell {} (DiceScript.mk [4, 6, 6, 2] 2) = (.ok a, s') := by
  have hreach := built_healingFirst.reachable
  have hbare := built_healingFirst.rootsBare
  have hsubject : Subject.spell ≠ .grantOnly := by decide
  obtain ⟨a, s', hrun⟩ := (hreach.valid.exists_activate_iff {} hsubject {}
    (DiceScript.mk [4, 6, 6, 2] 2)).mpr readable_healingFirst
  exact ⟨hreach, hbare, a, s', hrun, (hreach.activate_again hbare hrun).1⟩

end Spellwork
