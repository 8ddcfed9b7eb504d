import Spellwork.Dice.Formula
import Spellwork.Dice.Source
import Spellwork.Number.Clamp

/-!
# Rolls

Two ways to roll a formula. A plain roll adds up its terms. A damage roll has a primary die, the
first die of the first term that adds dice: it may be rolled several times and the best or worst
face kept, pinned to a face, or shifted by a modifier; reaching its highest face is a critical hit,
which lets it explode, and a natural one is a miss, which makes the damage nothing.
-/

namespace Spellwork

/-- The most faces that explosions of one primary die add. -/
def maxExplosions : Nat := 20

/-- The most extra candidates for the primary die. -/
def maxExtraCandidates : Nat := 10

/-- How the primary die is rolled. -/
structure PrimaryConfig where
  canCrit : Bool := false
  canMiss : Bool := false
  /-- Above zero, that many extra candidates, the highest kept; below zero, the lowest kept. -/
  rollMode : Int32 := 0
  /-- A face to take instead of rolling. -/
  pinned : Option UInt32 := none
  /-- Added to the natural face. -/
  modifier : Int64 := 0
deriving DecidableEq, Repr

/-- The primary die as it fell. -/
structure PrimaryDie where
  faces : UInt32
  /-- The face kept, before the modifier. -/
  natural : UInt32
  /-- The other candidates, in ascending order. -/
  discarded : List UInt32
  explosions : List UInt32
deriving DecidableEq, Repr

/-- A formula that was rolled. -/
structure Roll where
  formula : String
  total : Int64
  faces : List UInt32
  primary : Option PrimaryDie
  isCritical : Bool
  isMiss : Bool
deriving DecidableEq, Repr

/-- A face as a number to add. -/
def faceValue (face : UInt32) : Int64 :=
  Int64.ofInt face.toNat

/-- Faces added to a number. -/
def addFaces (start : Int64) (faces : List UInt32) : Int64 :=
  faces.foldl (fun sum face => addClamped sum (faceValue face)) start

/-- A term's value added to a total or taken away from it. -/
def SignedTerm.apply (t : SignedTerm) (total value : Int64) : Int64 :=
  if t.negative then subClamped total value else addClamped total value

/-! ## Plain rolls -/

/-- The value of a term and the faces that it shows. A reference without a value counts nothing. -/
def rollTerm [DiceSource σ] (t : Term) (s : σ) : (Int64 × List UInt32) × σ :=
  match t with
  | .dice count faces =>
    let (shown, s) := rollDice faces count.toNat s
    ((addFaces 0 shown, shown), s)
  | .constant n => ((n, []), s)
  | .reference _ => ((0, []), s)

/-- Adds terms to a total one after the other, and lists the faces shown. -/
def rollTerms [DiceSource σ] : List SignedTerm → (total : Int64) → σ → (Int64 × List UInt32) × σ
  | [], total, s => ((total, []), s)
  | t :: ts, total, s =>
    let ((value, shown), s) := rollTerm t.term s
    let ((total, more), s) := rollTerms ts (t.apply total value) s
    ((total, shown ++ more), s)

/-- A plain roll. -/
def Formula.rollPlain [DiceSource σ] (f : Formula) (s : σ) : Roll × σ :=
  let ((total, faces), s) := rollTerms f.terms 0 s
  ({ formula := f.text, total, faces, primary := none, isCritical := false, isMiss := false }, s)

/-! ## Damage rolls -/

/-- The candidates split into the one kept, the lowest or the highest, and the others. -/
def keep (lowest : Bool) (candidates : List UInt32) : UInt32 × List UInt32 :=
  let sorted := candidates.mergeSort fun a b => a ≤ b
  if lowest then (sorted.headD 1, sorted.tail) else (sorted.getLastD 1, sorted.dropLast)

/-- The natural face and the candidates not kept. -/
def rollNatural [DiceSource σ] (config : PrimaryConfig) (faces : UInt32) (s : σ) :
    (UInt32 × List UInt32) × σ :=
  match config.pinned with
  | some face => ((max 1 (min face faces), []), s)
  | none =>
    let extra := min config.rollMode.toInt.natAbs maxExtraCandidates
    let (candidates, s) := rollDice faces (1 + extra) s
    (keep (config.rollMode < 0) candidates, s)

/-- Rolls again as long as the highest face falls, at most `limit` times. -/
def explode [DiceSource σ] (faces : UInt32) : (limit : Nat) → σ → List UInt32 × σ
  | 0, s => ([], s)
  | limit + 1, s =>
    let (face, s) := DiceSource.roll faces s
    if face < faces then ([face], s)
    else
      let (more, s) := explode faces limit s
      (face :: more, s)

/-- The primary die and what comes of it. -/
structure PrimaryRoll where
  die : PrimaryDie
  contribution : Int64
  isCritical : Bool
  isMiss : Bool

/-- Rolls the primary die. A natural one misses before it can be critical; otherwise reaching the
highest face with the modifier is critical. The die counts for at most its highest face, plus its
explosions. -/
def rollPrimary [DiceSource σ] (config : PrimaryConfig) (faces : UInt32) (s : σ) :
    PrimaryRoll × σ :=
  let ((natural, discarded), s) := rollNatural config faces s
  let isMiss := config.canMiss && natural = 1
  let modified := addClamped (faceValue natural) config.modifier
  let isCritical := config.canCrit && !isMiss && faceValue faces ≤ modified
  let (explosions, s) := if isCritical then explode faces maxExplosions s else ([], s)
  let contribution := addFaces (min modified (faceValue faces)) explosions
  ({ die := { faces, natural, discarded, explosions }, contribution, isCritical, isMiss }, s)

/-- Adds terms to a total like `rollTerms`, but rolls the primary die where it stands: it shows its
natural face and its explosions before the other dice of its term. -/
def rollDamageTerms [DiceSource σ] (config : PrimaryConfig) :
    List SignedTerm → (total : Int64) → σ → (Int64 × List UInt32 × Option PrimaryRoll) × σ
  | [], total, s => ((total, [], none), s)
  | t :: ts, total, s =>
    match Formula.isPrimary t, t.term with
    | true, .dice count faces =>
      let (primary, s) := rollPrimary config faces s
      let (others, s) := rollDice faces (count.toNat - 1) s
      let total := t.apply total (addFaces primary.contribution others)
      let ((total, more), s) := rollTerms ts total s
      ((total, primary.die.natural :: (primary.die.explosions ++ others ++ more), some primary), s)
    | _, term =>
      let ((value, shown), s) := rollTerm term s
      let ((total, more, primary), s) := rollDamageTerms config ts (t.apply total value) s
      ((total, shown ++ more, primary), s)

/-- A damage roll. A miss deals nothing, and no roll deals less than nothing. -/
def Formula.rollDamage [DiceSource σ] (f : Formula) (config : PrimaryConfig) (s : σ) : Roll × σ :=
  let ((total, faces, primary), s) := rollDamageTerms config f.terms 0 s
  let isMiss := primary.any (·.isMiss)
  ({ formula := f.text
     total := if isMiss then 0 else max total 0
     faces
     primary := primary.map (·.die)
     isCritical := primary.any (·.isCritical)
     isMiss }, s)

end Spellwork
