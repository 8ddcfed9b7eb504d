import Spellwork.Number.Clamp

/-!
# Numerals

Integers written in decimal with ASCII digits, read and printed. Reading allows leading zeros and
one plus sign; it fails on everything else and on values out of range.
-/

namespace Spellwork.Text

/-- The value of a non-empty run of digits. -/
def nat? (cs : List Char) : Option Nat :=
  if !cs.isEmpty && cs.all Char.isDigit then some (Nat.ofDigitChars 10 cs 0) else none

/-- The value of a numeral that may start with a plus sign. -/
def unsigned? : List Char → Option Nat
  | '+' :: cs => nat? cs
  | cs => nat? cs

/-- The value of a numeral that may start with a sign. -/
def signed? : List Char → Option Int
  | '-' :: cs => (nat? cs).map fun n => -(n : Int)
  | cs => (unsigned? cs).map fun n => (n : Int)

/-- A natural of 32 bits. -/
def uint32? (cs : List Char) : Option UInt32 :=
  match unsigned? cs with
  | some n => if n < UInt32.size then some (UInt32.ofNat n) else none
  | none => none

/-- An integer of 64 bits. -/
def int64? (cs : List Char) : Option Int64 :=
  match signed? cs with
  | some x =>
    if -0x8000000000000000 ≤ x ∧ x ≤ 0x7fffffffffffffff then some (Int64.ofInt x) else none
  | none => none

/-- The numeral of a natural. -/
def natText (n : Nat) : List Char :=
  Nat.toDigits 10 n

/-- The numeral of an integer. -/
def intText : Int → List Char
  | .ofNat n => natText n
  | .negSucc n => '-' :: natText (n + 1)

/-! ## What is read -/

theorem nat?_eq_some_iff {cs : List Char} {n : Nat} :
    nat? cs = some n ↔
      cs ≠ [] ∧ (∀ c ∈ cs, c.isDigit = true) ∧ Nat.ofDigitChars 10 cs 0 = n := by
  unfold nat?
  split
  · rename_i h
    obtain ⟨hne, hall⟩ := Bool.and_eq_true_iff.mp h
    rw [Option.some.injEq]
    exact ⟨fun hn => ⟨by simpa using hne, List.all_eq_true.mp hall, hn⟩, fun hn => hn.2.2⟩
  · rename_i h
    refine iff_of_false (fun hn => by cases hn) fun hn => h ?_
    exact Bool.and_eq_true_iff.mpr ⟨by simpa using hn.1, List.all_eq_true.mpr hn.2.1⟩

theorem unsigned?_eq_some_iff {cs : List Char} {n : Nat} :
    unsigned? cs = some n ↔ ∃ ds, (cs = ds ∨ cs = '+' :: ds) ∧ nat? ds = some n := by
  unfold unsigned?
  split
  · rename_i ds
    constructor
    · exact fun h => ⟨ds, .inr rfl, h⟩
    · rintro ⟨ds', rfl | heq, h⟩
      · exact absurd ((nat?_eq_some_iff.mp h).2.1 '+' List.mem_cons_self) (by decide)
      · rwa [(List.cons.inj heq).2]
  · rename_i hplus
    constructor
    · exact fun h => ⟨cs, .inl rfl, h⟩
    · rintro ⟨ds, rfl | heq, h⟩
      · exact h
      · exact absurd heq (hplus ds)

theorem uint32?_eq_some_iff {cs : List Char} {m : UInt32} :
    uint32? cs = some m ↔ unsigned? cs = some m.toNat := by
  unfold uint32?
  cases unsigned? cs with
  | none => exact iff_of_false (fun h => by cases h) fun h => by cases h
  | some n =>
    dsimp only
    rw [Option.some.injEq]
    by_cases hn : n < UInt32.size
    · rw [if_pos hn, Option.some.injEq, ← UInt32.toNat_inj, UInt32.toNat_ofNat_of_lt' hn]
    · rw [if_neg hn]
      exact iff_of_false (fun h => by cases h) fun h => hn (h ▸ m.toNat_lt)

/-! ## What is printed reads back -/

theorem natText_ne_nil (n : Nat) : natText n ≠ [] :=
  Nat.toDigits_ne_nil

theorem isDigit_of_mem_natText {n : Nat} {c : Char} (h : c ∈ natText n) : c.isDigit = true :=
  Nat.isDigit_of_mem_toDigits (by omega) (by omega) h

theorem nat?_natText (n : Nat) : nat? (natText n) = some n := by
  have hne : (natText n).isEmpty = false := List.isEmpty_eq_false_iff.mpr (natText_ne_nil n)
  have hall : (natText n).all Char.isDigit = true :=
    List.all_eq_true.mpr fun c hc => isDigit_of_mem_natText hc
  unfold nat?
  rw [hne, hall]
  exact congrArg some Nat.ofDigitChars_ten_toDigits

/-- Text that begins with a digit has no sign to take off. -/
theorem unsigned?_of_digit {c : Char} {cs : List Char} (h : c.isDigit = true) :
    unsigned? (c :: cs) = nat? (c :: cs) := by
  unfold unsigned?
  split
  · rename_i heq
    obtain ⟨rfl, -⟩ := List.cons.inj heq
    exact absurd h (by decide)
  · rfl

theorem signed?_of_digit {c : Char} {cs : List Char} (h : c.isDigit = true) :
    signed? (c :: cs) = (nat? (c :: cs)).map fun n => (n : Int) := by
  rw [← unsigned?_of_digit h]
  unfold signed?
  split
  · rename_i heq
    obtain ⟨rfl, -⟩ := List.cons.inj heq
    exact absurd h (by decide)
  · rfl

theorem natText_eq_cons (n : Nat) : ∃ c cs, natText n = c :: cs ∧ c.isDigit = true := by
  obtain ⟨c, cs, h⟩ := List.exists_cons_of_ne_nil (natText_ne_nil n)
  exact ⟨c, cs, h, isDigit_of_mem_natText (h ▸ List.mem_cons_self)⟩

theorem unsigned?_natText (n : Nat) : unsigned? (natText n) = some n := by
  obtain ⟨c, cs, h, hc⟩ := natText_eq_cons n
  rw [h, unsigned?_of_digit hc, ← h, nat?_natText]

theorem intText_of_nonneg {x : Int} (h : 0 ≤ x) : intText x = natText x.toNat := by
  obtain ⟨n, rfl⟩ := Int.eq_ofNat_of_zero_le h
  rfl

theorem intText_of_neg {x : Int} (h : x < 0) : intText x = '-' :: natText (-x).toNat := by
  obtain ⟨n, rfl⟩ := Int.eq_negSucc_of_lt_zero h
  rfl

theorem signed?_intText (x : Int) : signed? (intText x) = some x := by
  cases x with
  | ofNat n =>
    obtain ⟨c, cs, h, hc⟩ := natText_eq_cons n
    show signed? (natText n) = _
    rw [h, signed?_of_digit hc, ← h, nat?_natText]
    rfl
  | negSucc n =>
    show (nat? (natText (n + 1))).map (fun n => -(n : Int)) = _
    rw [nat?_natText]
    rfl

theorem uint32?_natText (n : UInt32) : uint32? (natText n.toNat) = some n := by
  unfold uint32?
  rw [unsigned?_natText]
  show (if n.toNat < UInt32.size then some (UInt32.ofNat n.toNat) else none) = some n
  rw [if_pos n.toNat_lt, UInt32.ofNat_toNat]

theorem int64?_intText (x : Int64) : int64? (intText x.toInt) = some x := by
  have low : -0x8000000000000000 ≤ x.toInt := x.le_toInt
  have high : x.toInt ≤ 0x7fffffffffffffff := Int.le_of_lt_add_one x.toInt_lt
  unfold int64?
  rw [signed?_intText]
  show (if _ then some (Int64.ofInt x.toInt) else none) = some x
  rw [if_pos ⟨low, high⟩, Int64.ofInt_toInt]

end Spellwork.Text
