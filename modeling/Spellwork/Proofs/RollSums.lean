import Mathlib.Algebra.Ring.Int.Defs
import Spellwork.Dice.Roll

/-!
# What a roll adds up to

The total of a roll is kept in 64 bits and stops at their ends. As long as no value and no running
sum goes beyond them (`Unsaturated`), it is the sum over the integers of the values that the roll
shows (`shownValues`): the faces of dice, constants, and for the primary die its face with the
modifier, counted up to its highest face, and its explosions. One more constant behind the terms
touches nothing but the total.
-/

namespace Spellwork

/-! ## Sums within 64 bits -/

/-- A value with its sign. -/
def signed (negative : Bool) (x : Int) : Int :=
  if negative then -x else x

theorem eq_signed (x : Int) : x = signed (decide (x < 0)) x.natAbs := by
  by_cases hneg : x < 0
  · rw [decide_eq_true hneg, signed, if_pos rfl, Int.ofNat_natAbs_of_nonpos (Int.le_of_lt hneg),
      Int.neg_neg]
  · rw [decide_eq_false hneg, signed, if_neg Bool.false_ne_true,
      Int.natAbs_of_nonneg (Int.not_lt.mp hneg)]

def signedSum (values : List (Bool × Int)) : Int :=
  (values.map fun v => signed v.1 v.2).sum

/-- Neither the values nor the sums of them, taken one after the other from `total` on, leave the
64 bits of a total. -/
def Unsaturated : (total : Int) → List (Bool × Int) → Prop
  | _, [] => True
  | total, v :: values =>
    FitsInt64 v.2 ∧ FitsInt64 (total + signed v.1 v.2) ∧
      Unsaturated (total + signed v.1 v.2) values

instance : (total : Int) → (values : List (Bool × Int)) → Decidable (Unsaturated total values)
  | _, [] => isTrue trivial
  | total, v :: values =>
    have := instDecidableUnsaturated (total + signed v.1 v.2) values
    inferInstanceAs (Decidable (_ ∧ _ ∧ Unsaturated _ values))

def faceSum (faces : List UInt32) : Int :=
  (faces.map fun face => (face.toNat : Int)).sum

theorem faceSum_cons (face : UInt32) (faces : List UInt32) :
    faceSum (face :: faces) = face.toNat + faceSum faces := by
  simp [faceSum]

theorem faceSum_nonneg (faces : List UInt32) : 0 ≤ faceSum faces := by
  induction faces with
  | nil => simp [faceSum]
  | cons face faces ih =>
      rw [faceSum_cons]
      omega

theorem faceSum_le (faces : List UInt32) : faceSum faces ≤ faces.length * 0xffffffff := by
  induction faces with
  | nil => exact Int.le_refl 0
  | cons face faces ih =>
      have hface : face.toNat < 4294967296 := face.toNat_lt
      rw [faceSum_cons, List.length_cons]
      omega

theorem signedSum_cons (v : Bool × Int) (values : List (Bool × Int)) :
    signedSum (v :: values) = signed v.1 v.2 + signedSum values := by
  simp [signedSum]

theorem toInt_faceValue (face : UInt32) : (faceValue face).toInt = face.toNat := by
  have hlt : face.toNat < 4294967296 := face.toNat_lt
  exact Int64.toInt_ofInt_of_le (by omega) (by omega)

/-- Adding faces stops at the upper end of the 64 bits and nowhere else. -/
theorem toInt_addFaces_eq (start : Int64) (faces : List UInt32) :
    (addFaces start faces).toInt = min (start.toInt + faceSum faces) 0x7fffffffffffffff := by
  induction faces generalizing start with
  | nil =>
      have hhigh := start.toInt_lt
      simp only [addFaces, List.foldl_nil, faceSum, List.map_nil, List.sum_nil]
      omega
  | cons face faces ih =>
      have hrest := faceSum_nonneg faces
      have hlow : -0x8000000000000000 ≤ start.toInt := start.le_toInt
      show (addFaces (addClamped start (faceValue face)) faces).toInt = _
      rw [ih, toInt_addClamped, toInt_faceValue, faceSum_cons]
      omega

theorem toInt_addFaces {start : Int64} {faces : List UInt32}
    (h : start.toInt + faceSum faces ≤ 0x7fffffffffffffff) :
    (addFaces start faces).toInt = start.toInt + faceSum faces := by
  rw [toInt_addFaces_eq, Int.min_eq_left h]

theorem toInt_min (a b : Int64) : (min a b).toInt = min a.toInt b.toInt := by
  show (if a ≤ b then a else b).toInt = _
  by_cases h : a ≤ b
  · rw [if_pos h, Int.min_eq_left (Int64.le_iff_toInt_le.mp h)]
  · rw [if_neg h, Int.min_eq_right]
    exact Int.le_of_not_le fun h' => h (Int64.le_iff_toInt_le.mpr h')

theorem toInt_max (a b : Int64) : (max a b).toInt = max a.toInt b.toInt := by
  show (if a ≤ b then b else a).toInt = _
  by_cases h : a ≤ b
  · rw [if_pos h, Int.max_eq_right (Int64.le_iff_toInt_le.mp h)]
  · rw [if_neg h, Int.max_eq_left]
    exact Int.le_of_not_le fun h' => h (Int64.le_iff_toInt_le.mpr h')

/-! ## The values shown -/

/-- What the primary die counts: its face with the modifier, but no more than its highest face, and
its explosions. -/
def PrimaryDie.value (die : PrimaryDie) (modifier : Int64) : Int :=
  min (die.natural.toNat + modifier.toInt) die.faces.toNat + faceSum die.explosions

/-- The values of terms with their signs, told from the faces that they show one after the other.
The first term that can show the primary die does, if there is one. -/
def shownValues (modifier : Int64) :
    Option PrimaryDie → List SignedTerm → (shown : List UInt32) → List (Bool × Int)
  | _, [], _ => []
  | die?, ⟨negative, .constant n⟩ :: ts, shown =>
    (negative, n.toInt) :: shownValues modifier die? ts shown
  | die?, ⟨negative, .reference _⟩ :: ts, shown =>
    (negative, 0) :: shownValues modifier die? ts shown
  | die?, ⟨negative, .dice count faces⟩ :: ts, shown =>
    match if Formula.isPrimary ⟨negative, .dice count faces⟩ then die? else none with
    | some die =>
      let others := shown.drop (die.explosions.length + 1)
      (negative, die.value modifier + faceSum (others.take (count.toNat - 1))) ::
        shownValues modifier none ts (others.drop (count.toNat - 1))
    | none =>
      (negative, faceSum (shown.take count.toNat)) ::
        shownValues modifier die? ts (shown.drop count.toNat)

theorem shownValues_plain {modifier : Int64} {die? : Option PrimaryDie} {negative : Bool}
    {count faces : UInt32} (ts : List SignedTerm) {shown : List UInt32}
    (hlen : shown.length = count.toNat)
    (hplain : Formula.isPrimary ⟨negative, .dice count faces⟩ = true → die? = none)
    (more : List UInt32) :
    shownValues modifier die? (⟨negative, .dice count faces⟩ :: ts) (shown ++ more) =
      (negative, faceSum shown) :: shownValues modifier die? ts more := by
  have hnone : (if Formula.isPrimary ⟨negative, .dice count faces⟩ then die? else none) =
      none := by
    split
    · exact hplain (by assumption)
    · rfl
  rw [shownValues, hnone, ← hlen]
  simp

theorem shownValues_primary (modifier : Int64) (die : PrimaryDie) {negative : Bool}
    {count faces : UInt32} (ts : List SignedTerm) {others : List UInt32}
    (hlen : others.length = count.toNat - 1)
    (hprimary : Formula.isPrimary ⟨negative, .dice count faces⟩ = true) (more : List UInt32) :
    shownValues modifier (some die) (⟨negative, .dice count faces⟩ :: ts)
        (die.natural :: (die.explosions ++ others ++ more)) =
      (negative, die.value modifier + faceSum others) :: shownValues modifier none ts more := by
  rw [shownValues, if_pos hprimary, ← hlen]
  simp

/-! ## One value after the other -/

theorem toInt_apply {t : SignedTerm} {total value : Int64}
    (h : FitsInt64 (total.toInt + signed t.negative value.toInt)) :
    (t.apply total value).toInt = total.toInt + signed t.negative value.toInt := by
  obtain ⟨low, high⟩ := h
  unfold SignedTerm.apply
  cases hneg : t.negative with
  | true =>
      simp only [hneg, signed, if_true] at low high ⊢
      rw [toInt_subClamped]
      omega
  | false =>
      simp only [hneg, signed, Bool.false_eq_true, if_false] at low high ⊢
      rw [toInt_addClamped]
      omega

theorem Unsaturated.step {t : SignedTerm} {total value : Int64} {v : Int}
    {values : List (Bool × Int)} (h : Unsaturated total.toInt ((t.negative, v) :: values))
    (hvalue : FitsInt64 v → value.toInt = v) :
    (t.apply total value).toInt = total.toInt + signed t.negative v ∧
      Unsaturated (t.apply total value).toInt values := by
  obtain ⟨hfits, hsum, hrest⟩ := h
  obtain rfl := hvalue hfits
  have hexact := toInt_apply hsum
  rw [hexact]
  exact ⟨rfl, hrest⟩

section Rolls

variable {σ : Type u} [DiceSource σ]

theorem rollTerms_cons (t : SignedTerm) (ts : List SignedTerm) (total : Int64) (s : σ) :
    rollTerms (t :: ts) total s =
      (((rollTerms ts (t.apply total (rollTerm t.term s).1.1) (rollTerm t.term s).2).1.1,
          (rollTerm t.term s).1.2 ++
            (rollTerms ts (t.apply total (rollTerm t.term s).1.1) (rollTerm t.term s).2).1.2),
        (rollTerms ts (t.apply total (rollTerm t.term s).1.1) (rollTerm t.term s).2).2) :=
  rfl

theorem toInt_addFaces_zero {faces : List UInt32} (h : FitsInt64 (faceSum faces)) :
    (addFaces 0 faces).toInt = faceSum faces := by
  have hzero : (0 : Int64).toInt = 0 := rfl
  have hhigh := h.2
  rw [toInt_addFaces (by omega), hzero, Int.zero_add]

/-- What a term shows when it does not bring the primary die. -/
theorem exists_value_rollTerm (modifier : Int64) {t : SignedTerm} {die? : Option PrimaryDie}
    (hplain : Formula.isPrimary t = true → die? = none) (s : σ) :
    ∃ v, (FitsInt64 v → (rollTerm t.term s).1.1.toInt = v) ∧ ∀ ts more,
      shownValues modifier die? (t :: ts) ((rollTerm t.term s).1.2 ++ more) =
        (t.negative, v) :: shownValues modifier die? ts more := by
  obtain ⟨negative, term⟩ := t
  cases term with
  | constant n => exact ⟨n.toInt, fun _ => rfl, fun _ _ => rfl⟩
  | reference key => exact ⟨0, fun _ => rfl, fun _ _ => rfl⟩
  | dice count faces =>
      refine ⟨faceSum (rollDice faces count.toNat s).1, toInt_addFaces_zero, fun ts more => ?_⟩
      exact shownValues_plain ts (length_rollDice faces count.toNat s) hplain more

/-- Without a primary die, terms add up to the sum of the values that they show. -/
theorem toInt_rollTerms {modifier : Int64} {ts : List SignedTerm} {total : Int64} {s : σ}
    (h : Unsaturated total.toInt (shownValues modifier none ts (rollTerms ts total s).1.2)) :
    (rollTerms ts total s).1.1.toInt =
      total.toInt + signedSum (shownValues modifier none ts (rollTerms ts total s).1.2) := by
  induction ts generalizing total s with
  | nil => simp [rollTerms, shownValues, signedSum]
  | cons t ts ih =>
      obtain ⟨v, hvalue, hshown⟩ := exists_value_rollTerm modifier (fun _ => rfl) s (t := t)
      rw [rollTerms_cons, hshown] at h
      obtain ⟨hexact, hrest⟩ := h.step hvalue
      rw [rollTerms_cons, hshown, signedSum_cons, ih hrest, hexact, Int.add_assoc]

/-! ## The primary die -/

/-- A face is never so low that the modifier takes it below 64 bits, and where it takes it above,
the highest face counts anyway. -/
theorem toInt_min_addClamped (natural faces : UInt32) (modifier : Int64) :
    (min (addClamped (faceValue natural) modifier) (faceValue faces)).toInt =
      min (natural.toNat + modifier.toInt) faces.toNat := by
  have hfaces : faces.toNat < 4294967296 := faces.toNat_lt
  have hlow : -0x8000000000000000 ≤ modifier.toInt := modifier.le_toInt
  rw [toInt_min, toInt_addClamped, toInt_faceValue, toInt_faceValue]
  omega

theorem contribution_rollPrimary (config : PrimaryConfig) (faces : UInt32) (s : σ) :
    (rollPrimary config faces s).1.contribution =
      addFaces (min (addClamped (faceValue (rollPrimary config faces s).1.die.natural)
        config.modifier) (faceValue faces)) (rollPrimary config faces s).1.die.explosions :=
  rfl

theorem length_explode_le (faces : UInt32) (limit : Nat) (s : σ) :
    (explode faces limit s).1.length ≤ limit := by
  induction limit generalizing s with
  | zero => exact Nat.le_refl 0
  | succ limit ih =>
      rw [explode]
      dsimp only
      split
      · exact Nat.le_add_left 1 limit
      · exact Nat.succ_le_succ (ih _)

theorem length_explosions_le (config : PrimaryConfig) (faces : UInt32) (s : σ) :
    (rollPrimary config faces s).1.die.explosions.length ≤ maxExplosions := by
  unfold rollPrimary
  dsimp only
  split
  · exact length_explode_le faces maxExplosions _
  · exact Nat.zero_le _

/-- Without the other dice of its term, the primary die is never too much for 64 bits. -/
theorem toInt_contribution_rollPrimary (config : PrimaryConfig) (faces : UInt32) (s : σ) :
    (rollPrimary config faces s).1.contribution.toInt =
      (rollPrimary config faces s).1.die.value config.modifier := by
  have hfaces : faces.toNat < 4294967296 := faces.toNat_lt
  have hcount : (rollPrimary config faces s).1.die.explosions.length ≤ 20 :=
    length_explosions_le config faces s
  have hsum := faceSum_le (rollPrimary config faces s).1.die.explosions
  rw [contribution_rollPrimary, toInt_addFaces, toInt_min_addClamped]
  · rfl
  · rw [toInt_min_addClamped]
    omega

theorem toInt_contribution {config : PrimaryConfig} {faces : UInt32} {s : σ}
    {others : List UInt32}
    (h : FitsInt64 ((rollPrimary config faces s).1.die.value config.modifier + faceSum others)) :
    (addFaces (rollPrimary config faces s).1.contribution others).toInt =
      (rollPrimary config faces s).1.die.value config.modifier + faceSum others := by
  have hcontribution := toInt_contribution_rollPrimary config faces s
  have hhigh := h.2
  rw [toInt_addFaces (by omega), hcontribution]

theorem rollDamageTerms_plain {t : SignedTerm} (hplain : Formula.isPrimary t = false)
    (config : PrimaryConfig) (ts : List SignedTerm) (total : Int64) (s : σ) :
    rollDamageTerms config (t :: ts) total s =
      let first := rollTerm t.term s
      let rest := rollDamageTerms config ts (t.apply total first.1.1) first.2
      ((rest.1.1, first.1.2 ++ rest.1.2.1, rest.1.2.2), rest.2) := by
  rw [rollDamageTerms, hplain]

theorem rollDamageTerms_primary {negative : Bool} {count faces : UInt32}
    (hprimary : Formula.isPrimary ⟨negative, .dice count faces⟩ = true)
    (config : PrimaryConfig) (ts : List SignedTerm) (total : Int64) (s : σ) :
    rollDamageTerms config (⟨negative, .dice count faces⟩ :: ts) total s =
      let primary := rollPrimary config faces s
      let others := rollDice faces (count.toNat - 1) primary.2
      let rest := rollTerms ts (SignedTerm.apply ⟨negative, .dice count faces⟩ total
        (addFaces primary.1.contribution others.1)) others.2
      ((rest.1.1, primary.1.die.natural :: (primary.1.die.explosions ++ others.1 ++ rest.1.2),
        some primary.1), rest.2) := by
  rw [rollDamageTerms, hprimary]

theorem eq_dice_of_isPrimary {t : SignedTerm} (h : Formula.isPrimary t = true) :
    ∃ negative count faces, t = ⟨negative, .dice count faces⟩ := by
  obtain ⟨negative, term⟩ := t
  cases term with
  | dice count faces => exact ⟨negative, count, faces, rfl⟩
  | constant n => cases h
  | reference key => cases h

/-- Terms of a damage roll add up to the sum of the values that they show. -/
theorem toInt_rollDamageTerms (config : PrimaryConfig) (ts : List SignedTerm) (total : Int64)
    (s : σ) (h : Unsaturated total.toInt (shownValues config.modifier
      ((rollDamageTerms config ts total s).1.2.2.map PrimaryRoll.die) ts
      (rollDamageTerms config ts total s).1.2.1)) :
    (rollDamageTerms config ts total s).1.1.toInt =
      total.toInt + signedSum (shownValues config.modifier
        ((rollDamageTerms config ts total s).1.2.2.map PrimaryRoll.die) ts
        (rollDamageTerms config ts total s).1.2.1) := by
  induction ts generalizing total s with
  | nil => simp [rollDamageTerms, shownValues, signedSum]
  | cons t ts ih =>
      cases hprimary : Formula.isPrimary t with
      | true =>
          obtain ⟨negative, count, faces, rfl⟩ := eq_dice_of_isPrimary hprimary
          rw [rollDamageTerms_primary hprimary] at h ⊢
          have hshown := shownValues_primary config.modifier (rollPrimary config faces s).1.die ts
            (length_rollDice faces (count.toNat - 1) (rollPrimary config faces s).2) hprimary
          simp only [Option.map_some, hshown] at h ⊢
          obtain ⟨hexact, hrest⟩ :=
            Unsaturated.step (t := ⟨negative, .dice count faces⟩) h toInt_contribution
          rw [toInt_rollTerms hrest, signedSum_cons, hexact, Int.add_assoc]
      | false =>
          have hnone : Formula.isPrimary t = true →
              ((rollDamageTerms config (t :: ts) total s).1.2.2.map PrimaryRoll.die) = none := by
            rw [hprimary]
            intro hfalse
            cases hfalse
          obtain ⟨v, hvalue, hshown⟩ := exists_value_rollTerm config.modifier hnone s
          rw [rollDamageTerms_plain hprimary] at h hshown ⊢
          dsimp only at h hshown ⊢
          rw [hshown] at h ⊢
          obtain ⟨hexact, hrest⟩ := h.step hvalue
          rw [ih _ _ hrest, signedSum_cons, hexact, Int.add_assoc]

theorem Formula.rollDamage_eq (f : Formula) (config : PrimaryConfig) (s : σ) :
    f.rollDamage config s =
      let out := rollDamageTerms config f.terms 0 s
      let isMiss := out.1.2.2.any fun p => p.isMiss
      ({ formula := f.text
         total := if isMiss then 0 else max out.1.1 0
         faces := out.1.2.1
         primary := out.1.2.2.map PrimaryRoll.die
         isCritical := out.1.2.2.any fun p => p.isCritical
         isMiss }, out.2) :=
  rfl

/-! ## One more constant -/

theorem rollTerms_concat (ts : List SignedTerm) (negative : Bool) (n : Int64) (total : Int64)
    (s : σ) :
    rollTerms (ts ++ [⟨negative, .constant n⟩]) total s =
      ((SignedTerm.apply ⟨negative, .constant n⟩ (rollTerms ts total s).1.1 n,
        (rollTerms ts total s).1.2), (rollTerms ts total s).2) := by
  induction ts generalizing total s with
  | nil => rfl
  | cons t ts ih =>
      rw [List.cons_append, rollTerms_cons, ih, rollTerms_cons]

/-- One more constant changes the total and nothing else. -/
theorem rollDamageTerms_concat (config : PrimaryConfig) (ts : List SignedTerm) (negative : Bool)
    (n : Int64) (total : Int64) (s : σ) :
    rollDamageTerms config (ts ++ [⟨negative, .constant n⟩]) total s =
      ((SignedTerm.apply ⟨negative, .constant n⟩ (rollDamageTerms config ts total s).1.1 n,
        (rollDamageTerms config ts total s).1.2), (rollDamageTerms config ts total s).2) := by
  induction ts generalizing total s with
  | nil => rfl
  | cons t ts ih =>
      rw [List.cons_append]
      cases hprimary : Formula.isPrimary t with
      | true =>
          obtain ⟨negative', count, faces, rfl⟩ := eq_dice_of_isPrimary hprimary
          rw [rollDamageTerms_primary hprimary, rollDamageTerms_primary hprimary]
          dsimp only
          rw [rollTerms_concat]
      | false =>
          rw [rollDamageTerms_plain hprimary, rollDamageTerms_plain hprimary]
          dsimp only
          rw [ih]

end Rolls

end Spellwork
