/-!
# Clamped integers

Totals are 64-bit integers and ranks, sizes and distances are 32-bit naturals. Arithmetic on totals
is exact first and then clamped into the range. Arithmetic that mixes the two takes the naturals to
64 bits (`widen`) and is that of 64-bit integers, which may wrap around before anything is clamped.
-/

namespace Spellwork

/-- The nearest 64-bit integer. -/
def clamp64 (x : Int) : Int64 :=
  Int64.ofInt (max (-0x8000000000000000) (min x 0x7fffffffffffffff))

/-- The nearest 32-bit natural. -/
def clamp32 (x : Int) : UInt32 :=
  UInt32.ofNat (min x.toNat 0xffffffff)

/-- A 32-bit natural among the 64-bit integers. -/
def widen (n : UInt32) : Int64 :=
  Int64.ofNat n.toNat

/-- 64 bits hold the integer. -/
def FitsInt64 (x : Int) : Prop :=
  -0x8000000000000000 ≤ x ∧ x ≤ 0x7fffffffffffffff

instance (x : Int) : Decidable (FitsInt64 x) :=
  inferInstanceAs (Decidable (_ ∧ _))

/-- Sum, clamped. -/
def addClamped (a b : Int64) : Int64 :=
  clamp64 (a.toInt + b.toInt)

/-- Difference, clamped. -/
def subClamped (a b : Int64) : Int64 :=
  clamp64 (a.toInt - b.toInt)

/-! ## What clamping does to the number -/

theorem toInt_clamp64_eq (x : Int) :
    (clamp64 x).toInt = max (-0x8000000000000000) (min x 0x7fffffffffffffff) :=
  Int64.toInt_ofInt_of_le (Int.le_max_left ..)
    (Int.lt_add_one_of_le (Int.max_le.mpr ⟨by decide, Int.min_le_right ..⟩))

/-- Clamping does nothing to a number in range. -/
theorem toInt_clamp64 {x : Int} (low : -0x8000000000000000 ≤ x) (high : x ≤ 0x7fffffffffffffff) :
    (clamp64 x).toInt = x := by
  rw [toInt_clamp64_eq, Int.min_eq_left high, Int.max_eq_right low]

theorem clamp64_toInt (n : Int64) : clamp64 n.toInt = n :=
  Int64.toInt_inj.mp (toInt_clamp64 n.le_toInt (Int.le_of_lt_add_one n.toInt_lt))

theorem toNat_clamp32_eq (x : Int) : (clamp32 x).toNat = min x.toNat 0xffffffff := by
  have h : min x.toNat 0xffffffff < UInt32.size :=
    Nat.lt_of_le_of_lt (Nat.min_le_right ..) (by decide)
  unfold clamp32
  exact UInt32.toNat_ofNat_of_lt' h

theorem toInt_addClamped (a b : Int64) :
    (addClamped a b).toInt =
      max (-0x8000000000000000) (min (a.toInt + b.toInt) 0x7fffffffffffffff) :=
  toInt_clamp64_eq _

theorem addClamped_zero_left (n : Int64) : addClamped 0 n = n := by
  rw [addClamped, Int64.toInt_zero, Int.zero_add, clamp64_toInt]

theorem addClamped_zero_right (n : Int64) : addClamped n 0 = n := by
  rw [addClamped, Int64.toInt_zero, Int.add_zero, clamp64_toInt]

theorem toInt_subClamped (a b : Int64) :
    (subClamped a b).toInt =
      max (-0x8000000000000000) (min (a.toInt - b.toInt) 0x7fffffffffffffff) :=
  toInt_clamp64_eq _

/-! ## Naturals of 32 bits in 64 -/

theorem widen_add (n : UInt32) (x : Int64) : widen n + x = Int64.ofInt (n.toNat + x.toInt) := by
  rw [Int64.ofInt_add, Int64.ofInt_toInt]
  rfl

theorem widen_mul (m n : UInt32) : widen m * widen n = Int64.ofInt ((m.toNat * n.toNat : Nat)) :=
  calc widen m * widen n = Int64.ofInt m.toNat * Int64.ofInt n.toNat := rfl
    _ = Int64.ofInt ((m.toNat * n.toNat : Nat)) := by rw [← Int64.ofInt_mul, Int.natCast_mul]

theorem toInt_ofInt_of_fits {x : Int} (h : FitsInt64 x) : (Int64.ofInt x).toInt = x :=
  Int64.toInt_ofInt_of_le h.1 (Int.lt_add_one_of_le h.2)

/-- An integer that exceeds 64 bits by less than their number comes out below zero. -/
theorem toInt_ofInt_of_exceeds {x : Int} (hlow : 0x8000000000000000 ≤ x)
    (hhigh : x < 0x10000000000000000) : (Int64.ofInt x).toInt = x - 0x10000000000000000 := by
  have hsize : ((Int64.size : Nat) : Int) = 0x10000000000000000 := rfl
  rw [Int64.toInt_ofInt, Int.bmod_def, hsize]
  omega

/-- A product of naturals that does not fit is too great by less than 2^64, but never by little. -/
theorem toInt_widen_mul (m n : UInt32) :
    (m.toNat * n.toNat < 0x8000000000000000 ∧
      (widen m * widen n).toInt = (m.toNat * n.toNat : Nat)) ∨
    ∃ k : Nat, m.toNat * n.toNat + k = 0x10000000000000000 ∧ UInt32.size ≤ k ∧
      (widen m * widen n).toInt = -k := by
  have hmax : m.toNat * n.toNat ≤ 0xffffffff * 0xffffffff :=
    Nat.mul_le_mul (Nat.le_of_lt_succ m.toNat_lt) (Nat.le_of_lt_succ n.toNat_lt)
  have hsize : UInt32.size = 0x100000000 := rfl
  rw [widen_mul]
  generalize m.toNat * n.toNat = p at hmax ⊢
  by_cases hfits : p < 0x8000000000000000
  · exact .inl ⟨hfits, toInt_ofInt_of_fits ⟨by omega, by omega⟩⟩
  · refine .inr ⟨0x10000000000000000 - p, by omega, by omega, ?_⟩
    rw [toInt_ofInt_of_exceeds (by omega) (by omega)]
    omega

/-! ## Greater and smaller -/

theorem toNat_max (a b : UInt32) : (max a b).toNat = max a.toNat b.toNat := by
  show (if a ≤ b then b else a).toNat = _
  by_cases h : a ≤ b
  · rw [if_pos h, Nat.max_eq_right (UInt32.le_iff_toNat_le.mp h)]
  · rw [if_neg h, Nat.max_eq_left (Nat.le_of_not_le fun h' => h (UInt32.le_iff_toNat_le.mpr h'))]

theorem toNat_min (a b : UInt32) : (min a b).toNat = min a.toNat b.toNat := by
  show (if a ≤ b then a else b).toNat = _
  by_cases h : a ≤ b
  · rw [if_pos h, Nat.min_eq_left (UInt32.le_iff_toNat_le.mp h)]
  · rw [if_neg h, Nat.min_eq_right (Nat.le_of_not_le fun h' => h (UInt32.le_iff_toNat_le.mpr h'))]

end Spellwork
