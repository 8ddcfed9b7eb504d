import Spellwork.Proofs.PlainDamage
import Spellwork.Proofs.Repetition

/-!
# Minions

What the damage of a tree says about crits and misses gets into an activation through the
configuration of the primary die alone, and for a minion that configuration does not depend on it.
So no roll of a minion is critical, its primary roll misses on a natural one and on nothing else,
and two trees that differ in those words only are rolled alike (`Tree.Valid.activate_minion`).
-/

namespace Spellwork

open Spellwork.Tree

/-! ## One roll -/

section Rolls

variable {σ : Type u} [DiceSource σ]

/-- A damage roll does as its primary die does; without one it is neither critical nor a miss. -/
theorem Formula.rollDamage_cases (f : Formula) (config : PrimaryConfig) (s : σ) :
    ((f.rollDamage config s).1.primary = none ∧ (f.rollDamage config s).1.isCritical = false ∧
      (f.rollDamage config s).1.isMiss = false) ∨
    ∃ (faces : UInt32) (s₁ : σ),
      (f.rollDamage config s).1.primary = some (rollPrimary config faces s₁).1.die ∧
      (f.rollDamage config s).1.isCritical = (rollPrimary config faces s₁).1.isCritical ∧
      (f.rollDamage config s).1.isMiss = (rollPrimary config faces s₁).1.isMiss := by
  rw [rollDamage_eq]
  rcases noPrimary_or_split f.terms with
    hplain | ⟨before, count, faces, after, hterms, hcount, hbefore⟩
  · rw [rollDamageTerms_of_noPrimary hplain]
    exact .inl ⟨rfl, rfl, rfl⟩
  · rw [hterms, rollDamageTerms_split hbefore hcount]
    exact .inr ⟨faces, _, rfl, rfl, rfl⟩

theorem isMiss_rollDamage (f : Formula) (config : PrimaryConfig) (s : σ) :
    (f.rollDamage config s).1.isMiss = true ↔
      config.canMiss = true ∧
        (f.rollDamage config s).1.primary.map PrimaryDie.natural = some 1 := by
  rcases f.rollDamage_cases config s with ⟨hprimary, -, hmiss⟩ | ⟨faces, s₁, hprimary, -, hmiss⟩
  · simp [hprimary, hmiss]
  · rw [hprimary, hmiss]
    simp [rollPrimary]

theorem canCrit_of_isCritical {f : Formula} {config : PrimaryConfig} {s : σ}
    (h : (f.rollDamage config s).1.isCritical = true) : config.canCrit = true := by
  rcases f.rollDamage_cases config s with ⟨-, hcritical, -⟩ | ⟨faces, s₁, -, hcritical, -⟩
  · rw [hcritical] at h
    cases h
  · rw [hcritical, isCritical_rollPrimary, Bool.and_eq_true, Bool.and_eq_true] at h
    exact h.1.1

end Rolls

/-! ## The rolls of a minion -/

namespace Activation

/-- A roll that is not critical, and a miss, which deals nothing, if and only if a natural one
fell. -/
structure Blunt (x : ResolvedRoll) : Prop where
  not_critical : x.roll.isCritical = false
  isMiss_iff : x.roll.isMiss = true ↔ x.natural = some 1
  total_of_isMiss : x.roll.isMiss = true → x.roll.total = 0

section Rolls

variable {σ : Type u} [DiceSource σ] {data : Formula.RollData} {options : ActivationOptions}

theorem blunt_rollPlain {f : Formula} {roll : Roll} {s s' : σ}
    (hroll : f.rollPlain s = (roll, s')) (id : NodeId) (kind : RollKind) :
    Blunt ⟨id, kind, roll, none⟩ := by
  obtain rfl : (f.rollPlain s).1 = roll := congrArg Prod.fst hroll
  refine ⟨rfl, ?_, fun hmiss => by cases hmiss⟩
  simp [Formula.rollPlain_eq, ResolvedRoll.natural]

theorem blunt_rollDamage {f : Formula} {config : PrimaryConfig} {roll : Roll} {s s' : σ}
    (hroll : f.rollDamage config s = (roll, s')) (hcrit : config.canCrit = false)
    (hmiss : config.canMiss = true) (id : NodeId) (kind : RollKind) :
    Blunt ⟨id, kind, roll, some config⟩ := by
  obtain rfl : (f.rollDamage config s).1 = roll := congrArg Prod.fst hroll
  refine ⟨Bool.eq_false_iff.mpr fun hcritical => ?_, ?_, (total_rollDamage f config s).1⟩
  · have hcan := canCrit_of_isCritical hcritical
    rw [hcrit] at hcan
    cases hcan
  · exact (isMiss_rollDamage f config s).trans (and_iff_right hmiss)

theorem RolledFor.blunt {opening : Prop} {r : Record} {s s' : σ} {x : ResolvedRoll}
    (h : RolledFor ⟨.minion, data⟩ options opening r s x s') : Blunt x := by
  cases h with
  | primary heffect hread hopening hroll => exact blunt_rollDamage hroll rfl rfl _ _
  | later heffect hread hlater hroll => exact blunt_rollPlain hroll _ _
  | healing heffect hread hroll => exact blunt_rollPlain hroll _ _

end Rolls

end Activation

/-! ## Trees without a word on crits and misses -/

/-- The effect without a word on whether it can be critical and can miss. -/
def Effect.unflagged : Effect → Effect
  | damage d => damage { d with canCrit := none, canMiss := none }
  | e => e

def Record.unflagged (r : Record) : Record :=
  { r with effect := r.effect.unflagged }

def Tree.unflagged (t : Tree) : Tree :=
  t.map fun n => { n with effect := n.effect.unflagged }

def Activation.unflagged (a : Activation) : Activation :=
  { a with tree := a.tree.unflagged }

theorem Tree.flatten_unflagged (t : Tree) :
    t.unflagged.flatten = t.flatten.map Record.unflagged :=
  flatten_map_effect Effect.unflagged t

theorem Effect.unflagged_withRollNote (note : RollNote) (e : Effect) :
    e.unflagged.withRollNote note = (e.withRollNote note).unflagged := by
  cases e <;> rfl

namespace Activation

section Rolls

variable {σ : Type u} [DiceSource σ] (data : Formula.RollData) (options : ActivationOptions)

/-- The primary die of a minion is rolled in one way, whatever the damage says. -/
theorem primaryConfig_minion (d : Damage) :
    primaryConfig d ⟨.minion, data⟩ options =
      ⟨false, true, options.rollMode, options.pinned, options.modifier⟩ :=
  rfl

theorem rollRecords_unflagged (primary : Bool) (rs : List Record) (s : σ) :
    rollRecords ⟨.minion, data⟩ options primary (rs.map Record.unflagged) s =
      rollRecords ⟨.minion, data⟩ options primary rs s := by
  induction rs generalizing primary s with
  | nil => rfl
  | cons r rest ih =>
      obtain ⟨id, parent, outcome, effect⟩ := r
      cases effect <;> simp only [List.map_cons, Record.unflagged, Effect.unflagged, rollRecords,
        ih, primaryConfig_minion]

theorem annotate_unflagged (t : Tree) (rolls : List ResolvedRoll) :
    annotate t.unflagged rolls = (annotate t rolls).unflagged := by
  induction rolls generalizing t with
  | nil => rfl
  | cons x rolls ih =>
      show annotate (t.unflagged.map _) rolls = (annotate (t.map _) rolls).unflagged
      rw [← ih]
      congr 1
      unfold Tree.unflagged
      rw [Forest.map_map, Forest.map_map]
      refine Forest.map_congr fun n _ => ?_
      by_cases hid : n.id = x.id <;> simp [hid, Effect.unflagged_withRollNote]

/-- A minion activates a tree without those words as it activates the tree. -/
theorem activate_unflagged (t : Tree) (subject : Subject) (s : σ) :
    activate t.unflagged ⟨.minion, data⟩ subject options s =
      ((activate t ⟨.minion, data⟩ subject options s).1.map Activation.unflagged,
        (activate t ⟨.minion, data⟩ subject options s).2) := by
  unfold activate
  by_cases hsubject : subject.hasRolls
  · simp only [hsubject, if_true, flatten_unflagged, rollRecords_unflagged]
    cases (rollRecords ⟨.minion, data⟩ options true t.flatten s).1 with
    | error e => rfl
    | ok rolls => simp [Except.map, Activation.unflagged, annotate_unflagged]
  · simp [hsubject, Except.map, Activation.unflagged]

end Rolls

end Activation

open Activation

/-- No roll of a minion is critical, and none of the notes that its activation leaves on the tree.
Its primary roll is a miss, and deals nothing, if and only if a natural one fell. A tree with other
words on crits and misses gives the same rolls, or the same error, for the same faces of the same
dice. -/
theorem Tree.Valid.activate_minion {σ : Type u} [DiceSource σ] {t : Tree} (h : Valid t)
    (data : Formula.RollData) {subject : Subject} (hsubject : subject ≠ .grantOnly)
    (options : ActivationOptions) (s : σ) :
    (∀ a s', activate t ⟨.minion, data⟩ subject options s = (.ok a, s') →
      (∀ x ∈ a.rolls, Blunt x) ∧
      ∀ n ∈ a.tree.labels, ∀ note ∈ n.effect.rollNote?, note.isCritical = false) ∧
    ∀ u, Tree.unflagged u = t.unflagged →
      (activate u ⟨.minion, data⟩ subject options s).1.map Activation.rolls =
        (activate t ⟨.minion, data⟩ subject options s).1.map Activation.rolls ∧
      (activate u ⟨.minion, data⟩ subject options s).2 =
        (activate t ⟨.minion, data⟩ subject options s).2 ∧
      (activate u ⟨.minion, data⟩ subject options (Recorded.mk s [])).2.record =
        (activate t ⟨.minion, data⟩ subject options (Recorded.mk s [])).2.record := by
  constructor
  · intro a s' hrun
    obtain ⟨rolls, hrolls, -, -, hall, rfl⟩ := h.exists_rolls_of_activate hsubject hrun
    have hblunt : ∀ x ∈ rolls, Blunt x := by
      intro x hx
      obtain ⟨i, r, s₁, s₂, -, hfor⟩ := hrolls.exists_rolledFor hx
      exact hfor.blunt
    refine ⟨hblunt, fun n hn note hnote => ?_⟩
    obtain ⟨m, hm, rfl⟩ := List.mem_map.mp (Forest.labels_map _ t ▸ hn)
    obtain ⟨x, hx, -, rfl⟩ := exists_of_rollNote?_noted (hall m hm) hnote
    exact (hblunt x hx).not_critical
  · intro u hu
    have hrolls : ∀ e : Except ActivationError Activation,
        (e.map Activation.unflagged).map Activation.rolls = e.map Activation.rolls := by
      intro e
      cases e <;> rfl
    have hrun := activate_unflagged data options u subject s
    rw [hu, activate_unflagged, Prod.mk.injEq] at hrun
    have hrecord := activate_unflagged data options u subject (Recorded.mk s [])
    rw [hu, activate_unflagged, Prod.mk.injEq] at hrecord
    refine ⟨?_, hrun.2.symm, congrArg Recorded.record hrecord.2.symm⟩
    rw [← hrolls, ← hrun.1, hrolls]

/-- A strike with a word on crits and misses, and poison behind it. -/
def Tree.strike (canCrit canMiss : Option Bool) : Tree :=
  .node ⟨"strike", none, .damage ⟨.piercing, "1d6+4", canCrit, canMiss, none⟩⟩
    (.leaf ⟨"prone", some .hit, .condition ⟨"prone", none⟩⟩)
    (.leaf ⟨"poison", none, .damage ⟨.poison, "1d4", none, none, none⟩⟩)

theorem Tree.valid_strike (canCrit canMiss : Option Bool) : Valid (strike canCrit canMiss) := by
  have hstrike : Built (attach none "strike"
      (.damage ⟨.piercing, "1d6+4", canCrit, canMiss, none⟩) .nil).2 :=
    .step .empty (.attach _ _ _ _)
  have hprone := Built.step hstrike
    (.attach _ (some ("strike", .hit)) "prone" (.condition ⟨"prone", none⟩))
  exact (Built.step hprone (.attach _ none "poison"
    (.damage ⟨.poison, "1d4", none, none, none⟩))).reachable.valid

/-- A natural one misses although the damage says that it cannot. -/
theorem Tree.activate_minion_strike :
    Valid (strike none (some false)) ∧ ∃ a s',
      activate (strike none (some false)) ⟨.minion, []⟩ .monsterAction {} (DiceScript.mk [1, 3] 2) =
        (.ok a, s') ∧
      a.rolls.map (fun x => (x.id, x.roll.isMiss, x.roll.isCritical, x.roll.total)) =
        [("strike", true, false, 0), ("poison", false, false, 3)] ∧
      (∀ x ∈ a.rolls, Blunt x) ∧
      (∀ n ∈ a.tree.labels, ∀ note ∈ n.effect.rollNote?, note.isCritical = false) ∧
      (activate (strike (some true) (some true)) ⟨.minion, []⟩ .monsterAction {}
        (DiceScript.mk [1, 3] 2)).1.map Activation.rolls = .ok a.rolls := by
  have hvalid := valid_strike none (some false)
  have hsubject : Subject.monsterAction ≠ .grantOnly := by decide
  obtain ⟨hfell, hsame⟩ :=
    hvalid.activate_minion [] hsubject {} (DiceScript.mk [1, 3] 2)
  have hrolls : (activate (strike none (some false)) ⟨.minion, []⟩ .monsterAction {}
      (DiceScript.mk [1, 3] 2)).1.map (fun a =>
        a.rolls.map fun x => (x.id, x.roll.isMiss, x.roll.isCritical, x.roll.total)) =
      .ok [("strike", true, false, 0), ("poison", false, false, 3)] := by
    decide +kernel
  obtain ⟨hsame, -, -⟩ := hsame (strike (some true) (some true)) rfl
  refine ⟨hvalid, ?_⟩
  cases hrun : activate (strike none (some false)) ⟨.minion, []⟩ .monsterAction {}
      (DiceScript.mk [1, 3] 2) with
  | mk result s' =>
      rw [hrun] at hrolls hsame
      cases result with
      | error e => cases hrolls
      | ok a =>
          obtain ⟨hblunt, hnotes⟩ := hfell a s' hrun
          exact ⟨a, s', rfl, Except.ok.inj hrolls, hblunt, hnotes, hsame⟩

end Spellwork
