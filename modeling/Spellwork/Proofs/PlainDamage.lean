import Spellwork.Proofs.PrimaryDice

/-!
# Damage rolls that are plain rolls

Without a configuration the primary die is a die like the others: one face is drawn for it, that
face counts as it is, and it neither misses nor explodes (`rollPrimary_default`). So a damage roll
goes through its terms as a plain roll does (`rollDamageTerms_default`); only its total stops at
zero. That the two ask their source for the same faces is told by a source that writes down all it
is asked for (`Recorded`).
-/

namespace Spellwork

section Rolls

variable {σ : Type u} [DiceSource σ]

/-! ## A source that keeps a record -/

/-- A source with a record of the dice that it was asked for and the faces that it showed. -/
structure Recorded (σ : Type u) where
  source : σ
  record : List (UInt32 × UInt32) := []

instance : DiceSource (Recorded σ) where
  roll faces s :=
    let (face, source) := DiceSource.roll faces s.source
    (face, { source, record := s.record ++ [(faces, face)] })

instance [LawfulDice σ] : LawfulDice (Recorded σ) where
  roll_bounds h s := LawfulDice.roll_bounds h s.source

/-- The source shows what it would show without the record. -/
theorem roll_recorded (faces : UInt32) (s : Recorded σ) :
    DiceSource.roll faces s =
      ((DiceSource.roll faces s.source).1, ⟨(DiceSource.roll faces s.source).2,
        s.record ++ [(faces, (DiceSource.roll faces s.source).1)]⟩) :=
  rfl

theorem drawFaces_recorded (dice : List UInt32) (s : Recorded σ) :
    drawFaces dice s =
      ((drawFaces dice s.source).1, ⟨(drawFaces dice s.source).2,
        s.record ++ dice.zip (drawFaces dice s.source).1⟩) := by
  induction dice generalizing s with
  | nil =>
      show ([], s) = ([], Recorded.mk s.source (s.record ++ []))
      rw [List.append_nil]
  | cons faces dice ih =>
      rw [drawFaces_cons, ih, roll_recorded, drawFaces_cons, List.zip_cons_cons, List.append_assoc]
      rfl

/-! ## The primary die -/

theorem keep_singleton (lowest : Bool) (face : UInt32) : keep lowest [face] = (face, []) := by
  rw [keep, List.mergeSort_singleton]
  cases lowest <;> rfl

/-- One candidate is drawn, and it is the one that is kept. -/
theorem rollNatural_default (faces : UInt32) (s : σ) :
    rollNatural {} faces s =
      (((DiceSource.roll faces s).1, []), (DiceSource.roll faces s).2) := by
  have hcount : 1 + min (({} : PrimaryConfig).rollMode.toInt.natAbs) maxExtraCandidates = 1 := by
    decide
  show (keep _ (rollDice faces _ s).1, (rollDice faces _ s).2) = _
  rw [hcount, rollDice_succ, rollDice_zero, keep_singleton]

theorem rollPrimary_default [LawfulDice σ] {faces : UInt32} (h : 1 ≤ faces) (s : σ) :
    rollPrimary {} faces s =
      ({ die := { faces, natural := (DiceSource.roll faces s).1, discarded := [], explosions := [] }
         contribution := faceValue (DiceSource.roll faces s).1
         isCritical := false
         isMiss := false }, (DiceSource.roll faces s).2) := by
  have hle : faceValue (DiceSource.roll faces s).1 ≤ faceValue faces := by
    rw [Int64.le_iff_toInt_le, toInt_faceValue, toInt_faceValue]
    exact Int.ofNat_le.mpr (UInt32.le_iff_toNat_le.mp (LawfulDice.roll_bounds h s).2)
  -- the primary die counts no more than its faces, which a lawful face never goes beyond
  have hcap : min (addClamped (faceValue (DiceSource.roll faces s).1) 0) (faceValue faces) =
      faceValue (DiceSource.roll faces s).1 := by
    rw [addClamped_zero_right]
    exact if_pos hle
  rw [rollPrimary, rollNatural_default]
  show (PrimaryRoll.mk _ (addFaces (min (addClamped _ 0) _) []) false false, _) = _
  rw [hcap]
  rfl

/-- The primary die and the other dice of its term are rolled like any dice. -/
theorem rollTerm_primary {count : UInt32} (hcount : count ≠ 0) (faces : UInt32) (s : σ) :
    rollTerm (.dice count faces) s =
      let first := DiceSource.roll faces s
      let others := rollDice faces (count.toNat - 1) first.2
      ((addFaces (faceValue first.1) others.1, first.1 :: others.1), others.2) := by
  have hpos : count.toNat ≠ 0 := fun hzero => hcount (UInt32.toNat_inj.mp hzero)
  obtain ⟨n, hn⟩ := Nat.exists_eq_succ_of_ne_zero hpos
  show ((addFaces 0 (rollDice faces count.toNat s).1, (rollDice faces count.toNat s).1),
    (rollDice faces count.toNat s).2) = _
  rw [hn, rollDice_succ]
  show ((addFaces (addClamped 0 _) _, _), _) = _
  rw [addClamped_zero_left]
  rfl

/-! ## The terms -/

theorem rollDamageTerms_default [LawfulDice σ] {ts : List SignedTerm}
    (hfaces : ∀ t ∈ ts, ∀ count faces, t.term = .dice count faces → 1 ≤ faces) (total : Int64)
    (s : σ) :
    ∃ primary : Option PrimaryRoll,
      (∀ p ∈ primary, p.isCritical = false ∧ p.isMiss = false) ∧
      rollDamageTerms {} ts total s =
        (((rollTerms ts total s).1.1, (rollTerms ts total s).1.2, primary),
          (rollTerms ts total s).2) := by
  induction ts generalizing total s with
  | nil =>
      refine ⟨none, ?_, rfl⟩
      intro p hp
      cases hp
  | cons t ts ih =>
      obtain ⟨ht, hrest⟩ := List.forall_mem_cons.mp hfaces
      cases hprimary : Formula.isPrimary t with
      | true =>
          -- the terms behind the primary one are rolled as plain ones in any case
          obtain ⟨negative, count, faces, rfl⟩ := eq_dice_of_isPrimary hprimary
          obtain ⟨-, hcount⟩ := isPrimary_dice.mp hprimary
          have hdie := rollPrimary_default (ht count faces rfl) s
          refine ⟨some (rollPrimary {} faces s).1, ?_, ?_⟩
          · intro p hp
            cases hp
            rw [hdie]
            exact ⟨rfl, rfl⟩
          · rw [rollDamageTerms_primary hprimary, rollTerms_cons, rollTerm_primary hcount, hdie]
            rfl
      | false =>
          obtain ⟨primary, hflags, hrolls⟩ :=
            ih hrest (t.apply total (rollTerm t.term s).1.1) (rollTerm t.term s).2
          refine ⟨primary, hflags, ?_⟩
          rw [rollDamageTerms_plain hprimary, rollTerms_cons]
          dsimp only
          rw [hrolls]

/-! ## The roll -/

theorem Formula.rollPlain_eq (f : Formula) (s : σ) :
    f.rollPlain s =
      let out := rollTerms f.terms 0 s
      ({ formula := f.text
         total := out.1.1
         faces := out.1.2
         primary := none
         isCritical := false
         isMiss := false }, out.2) :=
  rfl

/-- Without a configuration, a damage roll is the plain roll of its formula, but for the primary die
that it tells of, and for a total that is less than nothing. -/
theorem Formula.Proper.exists_rollDamage_default [LawfulDice σ] {f : Formula} (hf : f.Proper)
    (s : σ) :
    ∃ die, f.rollDamage {} s =
      ({ (f.rollPlain s).1 with total := max (f.rollPlain s).1.total 0, primary := die },
        (f.rollPlain s).2) := by
  obtain ⟨primary, hflags, hrolls⟩ := rollDamageTerms_default hf.one_le_faces 0 s
  refine ⟨primary.map PrimaryRoll.die, ?_⟩
  rw [rollDamage_eq, hrolls, rollPlain_eq]
  cases primary with
  | none => rfl
  | some p =>
      obtain ⟨hcritical, hmiss⟩ := hflags p rfl
      simp [hcritical, hmiss]

theorem Formula.record_rollPlain (f : Formula) (s : σ) :
    (f.rollPlain (Recorded.mk s [])).2.record = f.draws.zip (f.rollPlain s).1.faces := by
  have hrecorded := drawFaces_terms f.terms 0 (Recorded.mk s [])
  have hdraw := drawFaces_terms f.terms 0 s
  rw [drawFaces_recorded, hdraw] at hrecorded
  exact (congrArg (fun out => out.2.record) hrecorded).symm

/-- Without a configuration, a damage roll agrees with the plain roll of its formula: it draws the
same faces for the same dice, shows them, and leaves the source as the plain roll does. It is
neither critical nor a miss, and its total is the plain one, or zero if that is below. -/
theorem Formula.Proper.rollDamage_default [LawfulDice σ] {f : Formula} (hf : f.Proper) (s : σ) :
    (f.rollDamage {} (Recorded.mk s [])).2.record = f.draws.zip (f.rollPlain s).1.faces ∧
      (f.rollPlain (Recorded.mk s [])).2.record = f.draws.zip (f.rollPlain s).1.faces ∧
      (f.rollDamage {} s).2 = (f.rollPlain s).2 ∧
      (f.rollDamage {} s).1.faces = (f.rollPlain s).1.faces ∧
      (f.rollDamage {} s).1.formula = (f.rollPlain s).1.formula ∧
      (f.rollDamage {} s).1.isCritical = false ∧
      (f.rollDamage {} s).1.isMiss = false ∧
      (f.rollDamage {} s).1.total.toInt = max 0 (f.rollPlain s).1.total.toInt := by
  obtain ⟨_, hroll⟩ := hf.exists_rollDamage_default s
  obtain ⟨_, hrecorded⟩ := hf.exists_rollDamage_default (Recorded.mk s [])
  have hrecord := f.record_rollPlain s
  have htotal : (max (f.rollPlain s).1.total 0).toInt = max 0 (f.rollPlain s).1.total.toInt := by
    rw [toInt_max]
    exact Int.max_comm _ _
  rw [hrecorded, hroll]
  exact ⟨hrecord, hrecord, rfl, rfl, rfl, rfl, rfl, htotal⟩

end Rolls

/-- The dice that are taken away outweigh the others, and the damage is nothing. -/
theorem Formula.Proper.rollDamage_default_mixed :
    mixed.Proper ∧
      (mixed.rollDamage {} (Recorded.mk (DiceScript.mk [4, 1, 2] 2) [])).2.record =
        [(4, 4), (6, 1), (6, 2)] ∧
      (mixed.rollPlain (DiceScript.mk [4, 1, 2] 2)).1.total.toInt = -4 ∧
      (mixed.rollDamage {} (DiceScript.mk [4, 1, 2] 2)).1.faces = [4, 1, 2] ∧
      (mixed.rollDamage {} (DiceScript.mk [4, 1, 2] 2)).1.total.toInt = 0 := by
  have hplain : (mixed.rollPlain (DiceScript.mk [4, 1, 2] 2)).1 =
      ⟨"0d8 - 1d4 + 2d6 - 3", -4, [4, 1, 2], none, false, false⟩ := by
    decide
  obtain ⟨hrecord, -, -, hfaces, -, -, -, htotal⟩ :=
    proper_mixed.rollDamage_default (DiceScript.mk [4, 1, 2] 2)
  rw [hplain] at hrecord hfaces htotal ⊢
  exact ⟨proper_mixed, hrecord, by decide, hfaces, htotal.trans (by decide)⟩

end Spellwork
