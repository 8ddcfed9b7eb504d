import Spellwork.Number.Clamp
import Spellwork.Random.Stream

/-!
# Sources of faces

Anything that shows a face for a die and goes on to its next state: a random stream, or a script of
faces that is played back. Rolling several dice draws them one after the other.
-/

namespace Spellwork

/-- A source of faces. `roll faces` is asked for a face of a die with that many faces. -/
class DiceSource (σ : Type u) where
  roll : (faces : UInt32) → σ → UInt32 × σ

instance : DiceSource Random.Stream where
  roll := Random.Stream.face

/-- Faces to be played back, then the same face forever. -/
structure DiceScript where
  faces : List UInt32 := []
  fallback : UInt32 := 2
deriving DecidableEq, Repr

/-- The nearest face of a die. A die without faces counts as one with a single face. -/
def clampFace (faces face : UInt32) : UInt32 :=
  max 1 (min face (max faces 1))

/-- A clamped face is a face of the die. -/
theorem clampFace_bounds {faces : UInt32} (face : UInt32) (h : 1 ≤ faces) :
    1 ≤ clampFace faces face ∧ clampFace faces face ≤ faces := by
  unfold clampFace
  rw [UInt32.le_iff_toNat_le] at h ⊢
  rw [UInt32.le_iff_toNat_le, toNat_max, toNat_min, toNat_max]
  have h1 : (1 : UInt32).toNat = 1 := rfl
  omega

/-- Plays back the next face, clamped to the die. -/
def DiceScript.roll (faces : UInt32) (s : DiceScript) : UInt32 × DiceScript :=
  match s.faces with
  | [] => (clampFace faces s.fallback, s)
  | face :: rest => (clampFace faces face, { s with faces := rest })

instance : DiceSource DiceScript where
  roll := DiceScript.roll

/-- The dice on the table: random or scripted. -/
inductive Dice where
  | random (s : Random.Stream)
  | script (s : DiceScript)

instance : DiceSource Dice where
  roll faces
    | .random s => (s.face faces).map id .random
    | .script s => (s.roll faces).map id .script

/-! ## Rolling several dice -/

/-- The faces of several dice, after those already shown, which are given last one first. -/
def rollMore [DiceSource σ] (faces : UInt32) :
    (count : Nat) → (shown : List UInt32) → σ → List UInt32 × σ
  | 0, shown, s => (shown.reverse, s)
  | count + 1, shown, s =>
    let (face, s) := DiceSource.roll faces s
    rollMore faces count (face :: shown) s

/-- The faces of several dice in the order in which they are drawn. -/
def rollDice [DiceSource σ] (faces : UInt32) (count : Nat) (s : σ) : List UInt32 × σ :=
  rollMore faces count [] s

theorem rollMore_eq [DiceSource σ] (faces : UInt32) (count : Nat) (shown : List UInt32) (s : σ) :
    rollMore faces count shown s =
      (shown.reverse ++ (rollDice faces count s).1, (rollDice faces count s).2) := by
  unfold rollDice
  induction count generalizing shown s with
  | zero => simp [rollMore]
  | succ count ih =>
    simp only [rollMore]
    rw [ih (_ :: shown), ih [_]]
    simp

@[simp] theorem rollDice_zero [DiceSource σ] (faces : UInt32) (s : σ) :
    rollDice faces 0 s = ([], s) :=
  rfl

theorem rollDice_succ [DiceSource σ] (faces : UInt32) (count : Nat) (s : σ) :
    rollDice faces (count + 1) s =
      ((DiceSource.roll faces s).1 :: (rollDice faces count (DiceSource.roll faces s).2).1,
        (rollDice faces count (DiceSource.roll faces s).2).2) :=
  rollMore_eq faces count [(DiceSource.roll faces s).1] (DiceSource.roll faces s).2

/-- As many faces as dice. -/
theorem length_rollDice [DiceSource σ] (faces : UInt32) (count : Nat) (s : σ) :
    (rollDice faces count s).1.length = count := by
  induction count generalizing s with
  | zero => rfl
  | succ count ih => rw [rollDice_succ, List.length_cons, ih]

end Spellwork
