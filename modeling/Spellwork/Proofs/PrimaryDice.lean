import Spellwork.Proofs.DrawnFaces
import Spellwork.Proofs.PrintedFormulas

/-!
# The primary die

The primary die of a damage roll is the first die of the first term that adds dice. One of its
candidates is kept as its natural face, or it is pinned to one (`Kept`); the natural face misses, or
with the modifier it is critical, and then it explodes; and what the die counts for is capped at its
highest face before the explosions are added (`PrimaryFell`). This holds of every formula that is
read from text, on any source that shows faces of the dice it is asked for
(`Formula.Proper.rollDamage_fell`). The 64 bits of a total do not matter to it: no modifier is so
large that stopping at their ends could be told from a sum without ends.
-/

namespace Spellwork

/-! ## Lawful sources -/

/-- A source that shows faces of the dice it is asked for. -/
class LawfulDice (σ : Type u) [DiceSource σ] : Prop where
  roll_bounds {faces : UInt32} (h : 1 ≤ faces) (s : σ) :
    1 ≤ (DiceSource.roll faces s).1 ∧ (DiceSource.roll faces s).1 ≤ faces

instance : LawfulDice Random.Stream where
  roll_bounds := Random.Stream.face_bounds

theorem DiceScript.roll_bounds {faces : UInt32} (h : 1 ≤ faces) (s : DiceScript) :
    1 ≤ (s.roll faces).1 ∧ (s.roll faces).1 ≤ faces := by
  unfold DiceScript.roll
  split <;> exact clampFace_bounds _ h

instance : LawfulDice DiceScript where
  roll_bounds := DiceScript.roll_bounds

instance : LawfulDice Dice where
  roll_bounds h
    | .random s => Random.Stream.face_bounds h s
    | .script s => DiceScript.roll_bounds h s

/-! ## Formulas with faces on their dice -/

namespace Formula

/-- A formula that is read from text, or made of such a one by naming values. -/
inductive Proper : Formula → Prop
  | read {source : String} {f : Formula} (h : read source = .ok f) : Proper f
  | resolve {f : Formula} (data : RollData) (h : Proper f) : Proper (f.resolve data)

theorem Proper.one_le_faces {f : Formula} (hf : f.Proper) :
    ∀ t ∈ f.terms, ∀ count faces, t.term = .dice count faces → 1 ≤ faces := by
  induction hf with
  | read h =>
      intro t ht count faces hterm
      have hlegible := (legible_of_read h).2 t ht
      rw [hterm] at hlegible
      have hne : faces.toNat ≠ 0 := fun hzero => hlegible (UInt32.toNat_inj.mp hzero)
      exact UInt32.le_iff_toNat_le.mpr (Nat.one_le_iff_ne_zero.mpr hne)
  | resolve data h ih =>
      intro t ht count faces hterm
      obtain ⟨u, hu, rfl⟩ := List.mem_map.mp ht
      exact ih u hu count faces (resolveTerm_eq_dice_iff.mp hterm)

theorem primaryIndex?_eq_none {f : Formula} (h : NoPrimary f.terms) : f.primaryIndex? = none :=
  List.findIdx?_eq_none_iff.mpr (noPrimary_iff.mp h)

theorem primaryIndex?_eq_some {f : Formula} {before after : List SignedTerm}
    {count faces : UInt32} (hterms : f.terms = before ++ ⟨false, .dice count faces⟩ :: after)
    (hcount : count ≠ 0) (hbefore : NoPrimary before) : f.primaryIndex? = some before.length := by
  have hnone : before.findIdx? isPrimary = none :=
    List.findIdx?_eq_none_iff.mpr (noPrimary_iff.mp hbefore)
  rw [primaryIndex?, hterms, List.findIdx?_append, hnone, List.findIdx?_cons,
    isPrimary_dice.mpr ⟨rfl, hcount⟩]
  simp

end Formula

/-! ## Explosions -/

/-- The faces of explosions of which there may be so many: each one but the last is the highest, and
the last is not, unless it is the last that there may be. -/
structure Exploded (faces : UInt32) (limit : Nat) (explosions : List UInt32) : Prop where
  length_pos : 1 ≤ explosions.length
  length_le : explosions.length ≤ limit
  eq_highest : ∀ face ∈ explosions.dropLast, face = faces
  last_lt : explosions.length ≠ limit → ∀ face ∈ explosions.getLast?, face < faces

theorem Exploded.singleton {faces face : UInt32} (limit : Nat) (h : face < faces) :
    Exploded faces (limit + 1) [face] := by
  refine ⟨Nat.le_refl 1, Nat.le_add_left 1 limit, fun x hx => absurd hx List.not_mem_nil,
    fun _ x hx => ?_⟩
  cases hx
  exact h

theorem Exploded.cons {faces : UInt32} {limit : Nat} {explosions : List UInt32}
    (h : Exploded faces limit explosions) : Exploded faces (limit + 1) (faces :: explosions) := by
  obtain ⟨face, rest, rfl⟩ := List.exists_cons_of_length_pos h.length_pos
  refine ⟨Nat.le_add_left 1 _, Nat.succ_le_succ h.length_le, fun x hx => ?_, fun hlen => ?_⟩
  · rw [List.dropLast_cons_cons] at hx
    rcases List.mem_cons.mp hx with rfl | hx
    · rfl
    · exact h.eq_highest x hx
  · rw [List.getLast?_cons_cons]
    exact h.last_lt fun heq => hlen (congrArg (· + 1) heq)

section Rolls

variable {σ : Type u} [DiceSource σ]

theorem exploded_explode [LawfulDice σ] {faces : UInt32} (h : 1 ≤ faces) (limit : Nat) (s : σ) :
    Exploded faces (limit + 1) (explode faces (limit + 1) s).1 := by
  induction limit generalizing s with
  | zero =>
      rw [explode]
      dsimp only
      split
      · exact .singleton 0 (by assumption)
      · exact ⟨Nat.le_refl 1, Nat.le_refl 1, fun x hx => absurd hx List.not_mem_nil,
          fun hlen => absurd rfl hlen⟩
  | succ limit ih =>
      rw [explode]
      dsimp only
      split
      · exact .singleton (limit + 1) (by assumption)
      · rename_i hhigh
        have heq : (DiceSource.roll faces s).1 = faces :=
          UInt32.le_antisymm (LawfulDice.roll_bounds h s).2 (UInt32.not_lt.mp hhigh)
        rw [heq]
        exact (ih _).cons

/-! ## How the die falls -/

/-- What becomes of a primary die with so many faces. -/
structure PrimaryFell (config : PrimaryConfig) (faces : UInt32) (s : σ) (p : PrimaryRoll)
    (s' : σ) : Prop where
  faces_eq : p.die.faces = faces
  drawn : ∃ candidates, Kept config faces candidates p.die.natural p.die.discarded ∧
    drawFaces (List.replicate (candidates.length + p.die.explosions.length) faces) s =
      (candidates ++ p.die.explosions, s')
  isMiss_iff : p.isMiss = true ↔ config.canMiss = true ∧ p.die.natural = 1
  isCritical_iff : p.isCritical = true ↔ config.canCrit = true ∧ p.isMiss = false ∧
    (faces.toNat : Int) ≤ p.die.natural.toNat + config.modifier.toInt
  explosions_eq_nil : p.isCritical = false → p.die.explosions = []
  exploded : p.isCritical = true → Exploded faces maxExplosions p.die.explosions
  toInt_contribution : p.contribution.toInt =
    min (p.die.natural.toNat + config.modifier.toInt) faces.toNat + faceSum p.die.explosions

theorem faceValue_le_addClamped_iff (natural faces : UInt32) (modifier : Int64) :
    faceValue faces ≤ addClamped (faceValue natural) modifier ↔
      (faces.toNat : Int) ≤ natural.toNat + modifier.toInt := by
  have hfaces : faces.toNat < 4294967296 := faces.toNat_lt
  rw [Int64.le_iff_toInt_le, toInt_addClamped, toInt_faceValue, toInt_faceValue]
  omega

theorem isCritical_rollPrimary (config : PrimaryConfig) (faces : UInt32) (s : σ) :
    (rollPrimary config faces s).1.isCritical =
      (config.canCrit && !(rollPrimary config faces s).1.isMiss && decide (faceValue faces ≤
        addClamped (faceValue (rollPrimary config faces s).1.die.natural) config.modifier)) :=
  rfl

theorem primaryFell [LawfulDice σ] {faces : UInt32} (h : 1 ≤ faces) (config : PrimaryConfig)
    (s : σ) :
    PrimaryFell config faces s (rollPrimary config faces s).1 (rollPrimary config faces s).2 where
  faces_eq := rfl
  drawn := exists_candidates config faces s
  isMiss_iff := by
    simp [rollPrimary]
  isCritical_iff := by
    rw [isCritical_rollPrimary, Bool.and_eq_true, Bool.and_eq_true, Bool.not_eq_true',
      decide_eq_true_iff, faceValue_le_addClamped_iff, and_assoc]
  explosions_eq_nil hplain := by
    unfold rollPrimary at hplain ⊢
    dsimp only at hplain ⊢
    rw [hplain]
    rfl
  exploded hcritical := by
    unfold rollPrimary at hcritical ⊢
    dsimp only at hcritical ⊢
    rw [hcritical]
    exact exploded_explode h 19 _
  toInt_contribution := toInt_contribution_rollPrimary config faces s

/-- What becomes of a damage roll: without a primary die it neither misses nor is critical, and with
one it does as the die does. -/
inductive DamageFell (config : PrimaryConfig) (f : Formula) (s : σ) (roll : Roll) : Prop
  | plain (hplain : NoPrimary f.terms) (hindex : f.primaryIndex? = none)
      (hprimary : roll.primary = none) (hcritical : roll.isCritical = false)
      (hmiss : roll.isMiss = false)
  | primary {before after : List SignedTerm} {count faces : UInt32} {p : PrimaryRoll}
      {others : List UInt32} {s₁ s₂ : σ}
      (hterms : f.terms = before ++ ⟨false, .dice count faces⟩ :: after) (hcount : count ≠ 0)
      (hbefore : NoPrimary before) (hindex : f.primaryIndex? = some before.length)
      (hfell : PrimaryFell config faces (drawFaces (drawsOf before) s).2 p s₁)
      (hothers : drawFaces (List.replicate (count.toNat - 1) faces) s₁ = (others, s₂))
      (hprimary : roll.primary = some p.die) (hcritical : roll.isCritical = p.isCritical)
      (hmiss : roll.isMiss = p.isMiss)
      (htotal : roll.isMiss = false → roll.total = max (rollTerms after (addClamped
        (rollTerms before 0 s).1.1 (addFaces p.contribution others)) s₂).1.1 0)

theorem PrimaryFell.not_both {config : PrimaryConfig} {faces : UInt32} {s s' : σ}
    {p : PrimaryRoll} (h : PrimaryFell config faces s p s') :
    ¬ (p.isMiss = true ∧ p.isCritical = true) := by
  rintro ⟨hmiss, hcritical⟩
  rw [(h.isCritical_iff.mp hcritical).2.1] at hmiss
  cases hmiss

theorem DamageFell.not_both {config : PrimaryConfig} {f : Formula} {s : σ} {roll : Roll}
    (h : DamageFell config f s roll) : ¬ (roll.isMiss = true ∧ roll.isCritical = true) := by
  cases h with
  | plain hplain hindex hprimary hcritical hmiss =>
      rw [hmiss]
      exact fun hboth => Bool.false_ne_true hboth.1
  | primary hterms hcount hbefore hindex hfell hothers hprimary hcritical hmiss htotal =>
      rw [hmiss, hcritical]
      exact hfell.not_both

theorem total_rollDamage (f : Formula) (config : PrimaryConfig) (s : σ) :
    ((f.rollDamage config s).1.isMiss = true → (f.rollDamage config s).1.total = 0) ∧
      0 ≤ (f.rollDamage config s).1.total.toInt := by
  rw [Formula.rollDamage_eq]
  dsimp only
  refine ⟨fun hmiss => if_pos hmiss, ?_⟩
  split
  · exact Int.le_refl 0
  · rw [toInt_max]
    exact Int.le_max_right _ _

theorem Formula.Proper.damageFell_rollDamage [LawfulDice σ] {f : Formula} (hf : f.Proper)
    (config : PrimaryConfig) (s : σ) : DamageFell config f s (f.rollDamage config s).1 := by
  rw [rollDamage_eq]
  rcases noPrimary_or_split f.terms with
    hplain | ⟨before, count, faces, after, hterms, hcount, hbefore⟩
  · rw [rollDamageTerms_of_noPrimary hplain]
    exact .plain hplain (primaryIndex?_eq_none hplain) rfl rfl rfl
  · have hfaces : 1 ≤ faces :=
      hf.one_le_faces ⟨false, .dice count faces⟩ (by simp [hterms]) count faces rfl
    have hstate : (drawFaces (drawsOf before) s).2 = (rollTerms before 0 s).2 :=
      congrArg Prod.snd (drawFaces_terms before 0 s)
    have hfell : PrimaryFell config faces (drawFaces (drawsOf before) s).2
        (rollPrimary config faces (rollTerms before 0 s).2).1
        (rollPrimary config faces (rollTerms before 0 s).2).2 := by
      rw [hstate]
      exact primaryFell hfaces config _
    rw [hterms, rollDamageTerms_split hbefore hcount]
    refine .primary hterms hcount hbefore (primaryIndex?_eq_some hterms hcount hbefore) hfell
      (rollDice_eq_drawFaces faces (count.toNat - 1) _).symm rfl rfl rfl fun hmiss => ?_
    exact if_neg fun hyes => Bool.false_ne_true (hmiss.symm.trans hyes)

/-- A damage roll with its primary die: never a miss and critical at once, nothing on a miss, and
never less than nothing. -/
theorem Formula.Proper.rollDamage_fell [LawfulDice σ] {f : Formula} (hf : f.Proper)
    (config : PrimaryConfig) (s : σ) :
    DamageFell config f s (f.rollDamage config s).1 ∧
      ¬ ((f.rollDamage config s).1.isMiss = true ∧ (f.rollDamage config s).1.isCritical = true) ∧
      ((f.rollDamage config s).1.isMiss = true → (f.rollDamage config s).1.total = 0) ∧
      0 ≤ (f.rollDamage config s).1.total.toInt :=
  have hfell := hf.damageFell_rollDamage config s
  ⟨hfell, hfell.not_both, total_rollDamage f config s⟩

end Rolls

theorem Formula.proper_mixed : mixed.Proper := by
  have hread : Formula.read mixed.source = .ok mixed := by decide +kernel
  exact .read hread

/-- The pinned die is critical, and its explosions end with the first face that is not the
highest. -/
theorem Formula.Proper.rollDamage_fell_mixed :
    mixed.Proper ∧ DamageFell mixedConfig mixed mixedScript mixedRoll ∧
      ¬ (mixedRoll.isMiss = true ∧ mixedRoll.isCritical = true) := by
  have hfell := proper_mixed.rollDamage_fell mixedConfig mixedScript
  rw [rollDamage_mixed] at hfell
  exact ⟨proper_mixed, hfell.1, hfell.2.1⟩

end Spellwork
