import Mathlib.Data.List.Forall2
import Spellwork.Proofs.ScaledFormulas

/-!
# Terms that scaling adds

Scaling takes formulas for texts: a delta writes a sign and an operand behind what is there. A sign
belongs to no term, so no term that was read before is read in another way, whatever the formula
ends with, and one delta adds one term (`read_grown`). Deltas that act one after the other add their
terms in order (`read_foldl_grown`), and so does a scaled tree (`read_scaledEffect`).
-/

namespace Spellwork

namespace Upcast

open Formula

section Texts

variable {text : String} {f : Formula}

/-! ## One operand -/

theorem read_append_operand (h : read text = .ok f) (negative : Bool) {o : Operand}
    (hwritten : o.Written) (hsound : o.Sound) :
    read (text ++ String.ofList (signOf negative :: o.text)) =
      .ok ⟨text ++ String.ofList (signOf negative :: o.text), f.terms ++ [⟨negative, o.term⟩]⟩ := by
  have hsum : sumText [(negative, o)] = signOf negative :: o.text := by
    simp [sumText]
  have hwritten' : ∀ p ∈ [(negative, o)], p.2.Written := List.forall_mem_singleton.mpr hwritten
  have hread := read_append h hwritten' (List.forall_mem_singleton.mpr hsound)
  rwa [hsum] at hread

theorem read_append_constant (h : read text = .ok f) (negative : Bool) {n : Nat}
    (hn : n ≤ 0x7fffffffffffffff) :
    read (text ++ String.ofList (signOf negative :: Text.natText n)) =
      .ok ⟨text ++ String.ofList (signOf negative :: Text.natText n),
        f.terms ++ [⟨negative, .constant (Int64.ofNat n)⟩]⟩ := by
  have hread := read_append_operand h negative (Operand.written_ofNat n)
    (Operand.sound_ofNat.mpr hn)
  rwa [Operand.term_ofNat] at hread

theorem read_append_dice (h : read text = .ok f) (count : UInt32) {faces : UInt32}
    (hfaces : 1 ≤ faces) :
    read (text ++ String.ofList
        ('+' :: (Text.natText count.toNat ++ 'd' :: Text.natText faces.toNat))) =
      .ok ⟨text ++ String.ofList
          ('+' :: (Text.natText count.toNat ++ 'd' :: Text.natText faces.toNat)),
        f.terms ++ [⟨false, .dice count faces⟩]⟩ := by
  have hpos : 0 < faces.toNat := UInt32.le_iff_toNat_le.mp hfaces
  have hread := read_append_operand h false (Operand.written_ofDice count.toNat faces.toNat)
    (Operand.sound_ofDice.mpr ⟨count.toNat_lt, hpos, faces.toNat_lt⟩)
  rwa [Operand.term_ofDice] at hread

/-! ## One delta -/

/-- A formula after a delta. -/
def grown (steps : UInt32) (text : String) (d : Delta) : String :=
  text ++ String.ofList (termOf steps d)

/-- The term that a delta adds to a formula in so many steps: a constant that is not zero, with its
sign, or dice. -/
inductive Adds (steps : UInt32) (d : Delta) : SignedTerm → Prop
  | amount {negative : Bool} {n : Nat} (hop : d.operation = .addFlatDamage)
      (hamount : (amountOf d steps).toInt = signed negative n) (hpos : 1 ≤ n)
      (hfits : n ≤ 0x7fffffffffffffff) : Adds steps d ⟨negative, .constant (Int64.ofNat n)⟩
  | dice {dice : DiceDelta} {count : UInt32} (hop : d.operation = .addDice)
      (hdice : d.dice = some dice) (hcount : dice.count.toNat * steps.toNat = count.toNat)
      (hpos : 1 ≤ count) (hfaces : 1 ≤ dice.faces) : Adds steps d ⟨false, .dice count dice.faces⟩

theorem diceTerm_of_pos {dice : DiceDelta} {steps count : UInt32}
    (hcount : dice.count.toNat * steps.toNat = count.toNat) (hpos : 1 ≤ count)
    (hfaces : 1 ≤ dice.faces) :
    diceTerm dice steps =
      '+' :: (Text.natText count.toNat ++ 'd' :: Text.natText dice.faces.toNat) := by
  have hsome : ¬ (dice.count = 0 ∨ dice.faces = 0) := by
    rintro (hzero | hzero)
    · rw [hzero, UInt32.toNat_zero, Nat.zero_mul] at hcount
      exact Nat.ne_of_lt (UInt32.le_iff_toNat_le.mp hpos) hcount
    · rw [hzero] at hfaces
      exact absurd hfaces (by decide)
  have hlt : dice.count.toNat * steps.toNat < 0x8000000000000000 := by
    rw [hcount]
    exact Nat.lt_trans count.toNat_lt (by decide)
  rw [diceTerm_of_lt hlt hsome, hcount]

/-- A delta that adds a term adds it behind those of any formula. -/
theorem read_grown (h : read text = .ok f) {steps : UInt32} {d : Delta} {t : SignedTerm}
    (hadds : Adds steps d t) :
    read (grown steps text d) = .ok ⟨grown steps text d, f.terms ++ [t]⟩ := by
  unfold grown
  cases hadds with
  | @amount negative n hop hamount hpos hfits =>
      have hterm : termOf steps d = signOf negative :: Text.natText n := by
        rw [termOf, hop]
        exact flatTerm_signed hamount hpos
      rw [hterm]
      exact read_append_constant h negative hfits
  | @dice dice count hop hdice hcount hpos hfaces =>
      have hterm : termOf steps d =
          '+' :: (Text.natText count.toNat ++ 'd' :: Text.natText dice.faces.toNat) := by
        rw [termOf, hop, hdice]
        exact diceTerm_of_pos hcount hpos hfaces
      rw [hterm]
      exact read_append_dice h count hfaces

/-! ## One delta after the other -/

theorem read_foldl_of_adds (h : read text = .ok f) {steps : UInt32} {ds : List Delta}
    {ts : List SignedTerm} (hadds : List.Forall₂ (Adds steps) ds ts) :
    read (ds.foldl (grown steps) text) =
      .ok ⟨ds.foldl (grown steps) text, f.terms ++ ts⟩ := by
  induction hadds generalizing text f with
  | nil =>
      -- without deltas the formula is the one that was read, text and all
      obtain rfl := source_of_read h
      rw [List.append_nil]
      exact h
  | @cons d t ds ts hd _ ih =>
      have hrest := ih (read_grown h hd)
      rwa [List.append_assoc, List.singleton_append] at hrest

/-- What is written behind a formula adds its term behind those of the formula: a constant with its
sign, or dice. Deltas that act one after the other add one term each, in order. -/
theorem read_foldl_grown (h : read text = .ok f) :
    (∀ (negative : Bool) (n : Nat), 1 ≤ n → n ≤ 0x7fffffffffffffff →
      read (text ++ String.ofList (signOf negative :: Text.natText n)) =
        .ok ⟨text ++ String.ofList (signOf negative :: Text.natText n),
          f.terms ++ [⟨negative, .constant (Int64.ofNat n)⟩]⟩) ∧
      (∀ count faces : UInt32, 1 ≤ count → 1 ≤ faces →
        read (text ++ String.ofList
            ('+' :: (Text.natText count.toNat ++ 'd' :: Text.natText faces.toNat))) =
          .ok ⟨text ++ String.ofList
              ('+' :: (Text.natText count.toNat ++ 'd' :: Text.natText faces.toNat)),
            f.terms ++ [⟨false, .dice count faces⟩]⟩) ∧
      ∀ (steps : UInt32) (ds : List Delta) (ts : List SignedTerm),
        List.Forall₂ (Adds steps) ds ts →
          read (ds.foldl (grown steps) text) =
            .ok ⟨ds.foldl (grown steps) text, f.terms ++ ts⟩ :=
  ⟨fun negative _ _ hfits => read_append_constant h negative hfits,
    fun count _ _ hfaces => read_append_dice h count hfaces,
    fun _ _ _ hadds => read_foldl_of_adds h hadds⟩

/-- The formula ends with a blank; dice, a loss and a gain are added in two steps. -/
theorem read_foldl_grown_key :
    ∃ f, read "3d8 + @key " = .ok f ∧
      List.Forall₂ (Adds 2) [Delta.moreDice 1 8, Delta.flatDamage (-2), Delta.flatDamage 4]
        [⟨false, .dice 2 8⟩, ⟨true, .constant 4⟩, ⟨false, .constant 8⟩] ∧
      read "3d8 + @key +2d8-4+8" = .ok ⟨"3d8 + @key +2d8-4+8",
        [⟨false, .dice 3 8⟩, ⟨false, .reference "key"⟩, ⟨false, .dice 2 8⟩,
          ⟨true, .constant 4⟩, ⟨false, .constant 8⟩]⟩ := by
  have hread : read "3d8 + @key " = .ok ⟨"3d8 + @key ",
      [⟨false, .dice 3 8⟩, ⟨false, .reference "key"⟩]⟩ := by
    decide +kernel
  have hpair : (Delta.moreDice 1 8).dice = some ⟨1, 8⟩ := rfl
  have hdice : Adds 2 (Delta.moreDice 1 8) ⟨false, .dice 2 8⟩ :=
    .dice rfl hpair (by decide) (by decide) (by decide)
  have hloss : Adds 2 (Delta.flatDamage (-2)) ⟨true, .constant (Int64.ofNat 4)⟩ :=
    .amount rfl (by decide) (by decide) (by decide)
  have hgain : Adds 2 (Delta.flatDamage 4) ⟨false, .constant (Int64.ofNat 8)⟩ :=
    .amount rfl (by decide) (by decide) (by decide)
  have hadds : List.Forall₂ (Adds 2)
      [Delta.moreDice 1 8, Delta.flatDamage (-2), Delta.flatDamage 4]
      [⟨false, .dice 2 8⟩, ⟨true, .constant 4⟩, ⟨false, .constant 8⟩] :=
    .cons hdice (.cons hloss (.cons hgain .nil))
  have htext : [Delta.moreDice 1 8, Delta.flatDamage (-2), Delta.flatDamage 4].foldl (grown 2)
      "3d8 + @key " = "3d8 + @key +2d8-4+8" := by
    decide
  have hgrown := (read_foldl_grown hread).2.2 2 _ _ hadds
  rw [htext] at hgrown
  exact ⟨_, hread, hadds, hgrown⟩

end Texts

/-! ## Scaled trees -/

theorem foldl_grown (steps : UInt32) (ds : List Delta) (text : String) :
    ds.foldl (grown steps) text = text ++ String.ofList (ds.flatMap (termOf steps)) := by
  induction ds generalizing text with
  | nil => simp
  | cons d ds ih =>
      rw [List.foldl_cons, ih, grown, List.flatMap_cons, String.ofList_append, String.append_assoc]

/-- The deltas that write a term to an effect. -/
def writers (t : Tree) (steps : UInt32) (ds : List Delta) (id : NodeId) : List Delta :=
  (ds.filter fun d => formulaAddress t d.target = some id).filter fun d => termOf steps d ≠ []

theorem termsFor_eq_writers (t : Tree) (steps : UInt32) (ds : List Delta) (id : NodeId) :
    termsFor t steps ds id = (writers t steps ds id).flatMap (termOf steps) := by
  unfold termsFor writers
  induction ds.filter fun d => formulaAddress t d.target = some id with
  | nil => rfl
  | cons d ds ih =>
      rw [List.flatMap_cons, ih, List.filter_cons]
      by_cases hnil : termOf steps d = []
      · simp [hnil]
      · simp [hnil]

/-- In a scaled tree, the formula of an effect has the terms that it had, and behind them one term
for each delta that writes to it. -/
theorem read_scaledEffect {t : Tree} {steps : UInt32} {ds : List Delta} {id : NodeId} {e : Effect}
    {text : String} {f : Formula} (htext : e.formula? = some text) (h : read text = .ok f)
    {ts : List SignedTerm} (hadds : List.Forall₂ (Adds steps) (writers t steps ds id) ts) :
    ∃ long, (scaledEffect t steps ds id e).formula? = some long ∧
      read long = .ok ⟨long, f.terms ++ ts⟩ := by
  refine ⟨(writers t steps ds id).foldl (grown steps) text, ?_, read_foldl_of_adds h hadds⟩
  rw [formula?_scaledEffect, htext, termsFor_eq_writers, foldl_grown]
  rfl

end Upcast

end Spellwork
