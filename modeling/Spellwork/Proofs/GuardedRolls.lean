import Spellwork.Proofs.GuardedReading
import Spellwork.Proofs.PrimaryDice

/-!
# Rolling without a halt

The rolls of a formula as a machine makes them: terms are counted one after the other into a running
tally, each die is rolled on its own and its face added at once, and what could go wrong is checked:
a clamp needs a range, a candidate is taken out of what there is, a sum has to fit into 64 bits
unless it stops at their ends, and a die needs a face.

For a formula that was read from text none of this ever halts (`Guarded.halts_nowhere`). The dice of
such a formula have faces, which the reader checks and naming values keeps; all else holds of all
configurations, all values and all sources, and each tally is the one that rolling gives
(`Tally.foldlM_plain`, `Tally.foldlM_damage`).
-/

namespace Spellwork

namespace Guarded

/-! ## Numbers -/

/-- A number of the machine that stands for an exact one, if 64 bits hold that one. -/
def fitting (exact : Int) (machine : Int64) : Guarded Int64 :=
  if FitsInt64 exact then .ok machine else .error .overflow

/-- A number that stops at the ends of 64 bits: the machine's own is taken between them only. -/
def stopping (exact : Int) (machine : Int64) : Guarded Int64 :=
  if 0x7fffffffffffffff < exact then .ok Int64.maxValue
  else if exact < -0x8000000000000000 then .ok Int64.minValue
  else fitting exact machine

def add (a b : Int64) : Guarded Int64 :=
  stopping (a.toInt + b.toInt) (a + b)

def sub (a b : Int64) : Guarded Int64 :=
  stopping (a.toInt - b.toInt) (a - b)

theorem stopping_ofInt (exact : Int) :
    stopping exact (Int64.ofInt exact) = .ok (clamp64 exact) := by
  unfold stopping clamp64
  split
  · rw [Int.min_eq_right (by omega), Int.max_eq_right (by omega)]
    rfl
  · split
    · rw [Int.max_eq_left (by omega)]
      rfl
    · rw [fitting, if_pos ⟨by omega, by omega⟩, Int.min_eq_left (by omega),
        Int.max_eq_right (by omega)]

theorem add_eq (a b : Int64) : add a b = .ok (addClamped a b) := by
  have hsum : a + b = Int64.ofInt (a.toInt + b.toInt) := by
    rw [Int64.ofInt_add, Int64.ofInt_toInt, Int64.ofInt_toInt]
  rw [add, hsum, stopping_ofInt]
  rfl

theorem sub_eq (a b : Int64) : sub a b = .ok (subClamped a b) := by
  have hdifference : a - b = Int64.ofInt (a.toInt - b.toInt) := by
    rw [Int64.ofInt_sub, Int64.ofInt_toInt, Int64.ofInt_toInt]
  rw [sub, hdifference, stopping_ofInt]
  rfl

/-- The size of a number. The machine turns the least number into itself, and read without a sign
that is its size. -/
def magnitude (n : Int32) : UInt32 :=
  (if n < 0 then -n else n).toUInt32

theorem toNat_toUInt32 (n : Int32) :
    (n.toUInt32.toNat : Int) = if n.toInt < 0 then n.toInt + 4294967296 else n.toInt := by
  have hlt := n.toBitVec.isLt
  show ((n.toBitVec.toNat : Nat) : Int) = _
  rw [← Int32.toInt_toBitVec, BitVec.toInt_eq_toNat_cond]
  split <;> split <;> omega

theorem toNat_magnitude (n : Int32) : (magnitude n).toNat = n.toInt.natAbs := by
  have hbits := toNat_toUInt32 n
  have hlow := n.le_toInt
  have hzero : (0 : Int32).toInt = 0 := rfl
  have hsize : UInt32.size = 4294967296 := rfl
  unfold magnitude
  split <;> rename_i hneg <;> rw [Int32.lt_iff_toInt_lt] at hneg
  · rw [Int32.toUInt32_neg, UInt32.toNat_neg, hsize]
    omega
  · omega

/-- The nearest number of a range. -/
def clamp (low high x : UInt32) : Guarded UInt32 :=
  if low ≤ high then .ok (if x < low then low else if high < x then high else x)
  else .error .emptyRange

theorem clamp_eq {low high : UInt32} (h : low ≤ high) (x : UInt32) :
    clamp low high x = .ok (max low (min x high)) := by
  rw [clamp, if_pos h, Except.ok.injEq, ← UInt32.toNat_inj, toNat_max, toNat_min]
  simp only [UInt32.lt_iff_toNat_lt, UInt32.le_iff_toNat_le] at h ⊢
  split
  · omega
  · split <;> omega

/-! ## Sources -/

/-- The face of a script, clamped to the die. -/
def rollScript (faces : UInt32) (s : DiceScript) : Guarded (UInt32 × DiceScript) := do
  match s.faces with
  | [] => return (← clamp 1 (max faces 1) s.fallback, s)
  | face :: rest => return (← clamp 1 (max faces 1) face, { s with faces := rest })

/-- A random face out of the range from one to the number of faces, unless there are none. -/
def rollStream (faces : UInt32) (s : Random.Stream) : Guarded (UInt32 × Random.Stream) :=
  if faces = 0 then .ok (0, s)
  else if 1 ≤ faces then .ok (s.face faces)
  else .error .emptyRange

def rollSource (faces : UInt32) : Dice → Guarded (UInt32 × Dice)
  | .random s => (rollStream faces s).map fun rolled => rolled.map id .random
  | .script s => (rollScript faces s).map fun rolled => rolled.map id .script

theorem one_le_max_one (faces : UInt32) : 1 ≤ max faces 1 := by
  rw [UInt32.le_iff_toNat_le, toNat_max]
  exact Nat.le_max_right _ _

theorem one_le_of_ne_zero {faces : UInt32} (h : faces ≠ 0) : 1 ≤ faces := by
  rw [UInt32.le_iff_toNat_le]
  exact Nat.one_le_iff_ne_zero.mpr fun hzero => h (UInt32.toNat_inj.mp hzero)

theorem rollScript_eq (faces : UInt32) (s : DiceScript) :
    rollScript faces s = .ok (s.roll faces) := by
  obtain ⟨shown, fallback⟩ := s
  cases shown with
  | nil =>
      dsimp only [rollScript]
      rw [clamp_eq (one_le_max_one faces)]
      rfl
  | cons face rest =>
      dsimp only [rollScript]
      rw [clamp_eq (one_le_max_one faces)]
      rfl

theorem rollStream_eq (faces : UInt32) (s : Random.Stream) :
    rollStream faces s = .ok (s.face faces) := by
  unfold rollStream
  split
  · rename_i hzero
    rw [Random.Stream.face, if_pos hzero]
  · rename_i hne
    exact if_pos (one_le_of_ne_zero hne)

/-- The sources themselves halt at no die, not even at one without faces. -/
theorem rollSource_eq (faces : UInt32) (dice : Dice) :
    rollSource faces dice = .ok (DiceSource.roll faces dice) := by
  cases dice with
  | random s =>
      rw [rollSource, rollStream_eq]
      rfl
  | script s =>
      rw [rollSource, rollScript_eq]
      rfl

/-! ## Dice -/

section Rolls

variable {σ : Type u} [DiceSource σ]

/-- Asks a source for a face of a die that has one. -/
def rollDie (faces : UInt32) (s : σ) : Guarded (UInt32 × σ) :=
  if 1 ≤ faces then .ok (DiceSource.roll faces s) else .error .noFaces

/-- Rolls several dice, and shows their faces behind those already shown. -/
def rollDice (faces : UInt32) :
    (count : Nat) → (shown : List UInt32) → σ → Guarded (List UInt32 × σ)
  | 0, shown, s => return (shown, s)
  | count + 1, shown, s => do
    let (face, s) ← rollDie faces s
    rollDice faces count (shown ++ [face]) s

/-- Rolls several dice, shows their faces and adds each of them to a sum at once. -/
def rollSum (faces : UInt32) :
    (count : Nat) → (sum : Int64) → (shown : List UInt32) → σ →
      Guarded ((Int64 × List UInt32) × σ)
  | 0, sum, shown, s => return ((sum, shown), s)
  | count + 1, sum, shown, s => do
    let (face, s) ← rollDie faces s
    (add sum (faceValue face)).bind fun sum => rollSum faces count sum (shown ++ [face]) s

variable {faces : UInt32}

theorem rollDie_eq (h : 1 ≤ faces) (s : σ) : rollDie faces s = .ok (DiceSource.roll faces s) :=
  if_pos h

theorem rollDice_eq (h : 1 ≤ faces) (count : Nat) (shown : List UInt32) (s : σ) :
    rollDice faces count shown s =
      .ok (shown ++ (Spellwork.rollDice faces count s).1,
        (Spellwork.rollDice faces count s).2) := by
  induction count generalizing shown s with
  | zero =>
      rw [rollDice, rollDice_zero, List.append_nil]
      rfl
  | succ count ih =>
      rw [rollDice, rollDie_eq h, ok_bind]
      dsimp only
      rw [ih, rollDice_succ, List.append_assoc]
      rfl

theorem rollSum_eq (h : 1 ≤ faces) (count : Nat) (sum : Int64) (shown : List UInt32) (s : σ) :
    rollSum faces count sum shown s =
      .ok ((addFaces sum (Spellwork.rollDice faces count s).1,
        shown ++ (Spellwork.rollDice faces count s).1), (Spellwork.rollDice faces count s).2) := by
  induction count generalizing sum shown s with
  | zero =>
      rw [rollSum, rollDice_zero, List.append_nil]
      rfl
  | succ count ih =>
      rw [rollSum, rollDie_eq h, ok_bind]
      dsimp only
      rw [add_eq, Except.bind, ih, rollDice_succ, List.append_assoc]
      rfl

/-! ## The primary die -/

/-- The first of a list, and the others. -/
def takeFirst : List UInt32 → Guarded (UInt32 × List UInt32)
  | [] => .error .nothingLeft
  | face :: faces => .ok (face, faces)

/-- The natural face and the candidates not kept. The highest candidate stands last; where there is
none it counts as a one. -/
def rollNatural (config : PrimaryConfig) (faces : UInt32) (s : σ) :
    Guarded ((UInt32 × List UInt32) × σ) := do
  match config.pinned with
  | some face => (clamp 1 faces face).map fun natural => ((natural, []), s)
  | none =>
    let extra := min (magnitude config.rollMode).toNat maxExtraCandidates
    let (candidates, s) ← rollDice faces (extra + 1) [] s
    let sorted := candidates.mergeSort fun a b => a ≤ b
    if config.rollMode < 0 then (takeFirst sorted).map fun kept => (kept, s)
    else return ((sorted.getLastD 1, sorted.dropLast), s)

/-- Rolls on behind the explosions so far, until a face is not the highest. -/
def explode (faces : UInt32) (explosions : List UInt32) (s : σ) : Guarded (List UInt32 × σ) := do
  if explosions.length < maxExplosions then
    let (face, s) ← rollDie faces s
    if face < faces then return (explosions ++ [face], s)
    else explode faces (explosions ++ [face]) s
  else return (explosions, s)
termination_by maxExplosions - explosions.length

def rollPrimary (config : PrimaryConfig) (faces : UInt32) (s : σ) : Guarded (PrimaryRoll × σ) := do
  let ((natural, discarded), s) ← rollNatural config faces s
  let isMiss := config.canMiss && natural = 1
  (add (faceValue natural) config.modifier).bind fun modified => do
    let isCritical := config.canCrit && !isMiss && faceValue faces ≤ modified
    let (explosions, s) ← if isCritical then explode faces [] s else pure ([], s)
    (explosions.foldlM (fun sum face => add sum (faceValue face))
      (min modified (faceValue faces))).map fun contribution =>
        ({ die := { faces, natural, discarded, explosions }, contribution, isCritical, isMiss }, s)

theorem takeFirst_eq {candidates : List UInt32} (h : candidates ≠ []) :
    takeFirst candidates = .ok (candidates.headD 1, candidates.tail) := by
  obtain ⟨face, rest, rfl⟩ := List.exists_cons_of_ne_nil h
  rfl

theorem mergeSort_rollDice_ne_nil (faces : UInt32) (extra : Nat) (s : σ) :
    ((Spellwork.rollDice faces (1 + extra) s).1.mergeSort fun a b => a ≤ b) ≠ [] := by
  intro hnil
  have hlen := congrArg List.length hnil
  rw [List.length_mergeSort, length_rollDice, List.length_nil] at hlen
  omega

/-- There is always a candidate to keep. -/
theorem rollNatural_eq (h : 1 ≤ faces) (config : PrimaryConfig) (s : σ) :
    rollNatural config faces s = .ok (Spellwork.rollNatural config faces s) := by
  unfold rollNatural Spellwork.rollNatural
  cases config.pinned with
  | some face =>
      dsimp only
      rw [clamp_eq h]
      rfl
  | none =>
      dsimp only
      rw [rollDice_eq h, ok_bind, toNat_magnitude, Nat.add_comm _ 1, List.nil_append, keep]
      dsimp only
      by_cases hlow : config.rollMode < 0
      · rw [if_pos hlow, takeFirst_eq (mergeSort_rollDice_ne_nil faces _ s), decide_eq_true hlow]
        rfl
      · rw [if_neg hlow, decide_eq_false hlow]
        rfl

theorem explode_eq (h : 1 ≤ faces) {explosions : List UInt32} (limit : Nat)
    (hlimit : explosions.length + limit = maxExplosions) (s : σ) :
    explode faces explosions s =
      .ok (explosions ++ (Spellwork.explode faces limit s).1,
        (Spellwork.explode faces limit s).2) := by
  induction limit generalizing explosions s with
  | zero =>
      rw [explode, if_neg (by omega), Spellwork.explode, List.append_nil]
      rfl
  | succ limit ih =>
      rw [explode, if_pos (by omega), rollDie_eq h, ok_bind, Spellwork.explode]
      dsimp only
      by_cases hlow : (DiceSource.roll faces s).1 < faces
      · rw [if_pos hlow, if_pos hlow]
        rfl
      · rw [if_neg hlow, if_neg hlow, ih (by rw [List.length_append, List.length_singleton]; omega),
          List.append_assoc]
        rfl

theorem foldlM_add_eq (shown : List UInt32) (sum : Int64) :
    shown.foldlM (fun sum face => add sum (faceValue face)) sum = .ok (addFaces sum shown) := by
  induction shown generalizing sum with
  | nil => rfl
  | cons face shown ih =>
      rw [List.foldlM_cons, add_eq, ok_bind, ih]
      rfl

theorem rollPrimary_eq (h : 1 ≤ faces) (config : PrimaryConfig) (s : σ) :
    rollPrimary config faces s = .ok (Spellwork.rollPrimary config faces s) := by
  rw [rollPrimary, rollNatural_eq h, ok_bind, Spellwork.rollPrimary]
  dsimp only
  rw [add_eq, Except.bind]
  split
  · rw [explode_eq h maxExplosions (Nat.zero_add _), ok_bind]
    dsimp only
    rw [foldlM_add_eq]
    rfl
  · rw [pure_bind]
    dsimp only
    rw [foldlM_add_eq]
    rfl

/-! ## The tally -/

/-- All dice have faces. -/
def Faced (ts : List SignedTerm) : Prop :=
  ∀ t ∈ ts, ∀ count faces, t.term = .dice count faces → 1 ≤ faces

/-- What has been counted of a formula. -/
structure Tally (σ : Type u) where
  total : Int64
  shown : List UInt32
  primary : Option PrimaryRoll
  source : σ

namespace Tally

/-- Counts the value of a term. -/
def count (t : SignedTerm) (value : Int64) (tally : Tally σ) : Guarded (Tally σ) :=
  (if t.negative then sub tally.total value else add tally.total value).map fun total =>
    { tally with total }

/-- Rolls a term and counts it. -/
def plain (tally : Tally σ) (t : SignedTerm) : Guarded (Tally σ) := do
  match t.term with
  | .dice count faces =>
    let ((value, shown), source) ← rollSum faces count.toNat 0 tally.shown tally.source
    { tally with shown, source }.count t value
  | .constant n => tally.count t n
  | .reference _ => tally.count t 0

/-- Rolls a term and counts it. The term stands at a place in its formula, and at one place the
primary die is rolled before the other dice. -/
def damage (config : PrimaryConfig) (primaryIndex? : Option Nat) (tally : Tally σ)
    (t : SignedTerm × Nat) : Guarded (Tally σ) := do
  match t.1.term with
  | .dice count faces =>
    if some t.2 = primaryIndex? then
      let (primary, source) ← rollPrimary config faces tally.source
      let ((value, shown), source) ← rollSum faces (count.toNat - 1) primary.contribution
        (tally.shown ++ primary.die.natural :: primary.die.explosions) source
      { tally with shown, primary := some primary, source }.count t.1 value
    else tally.plain t.1
  | _ => tally.plain t.1

omit [DiceSource σ] in
theorem count_eq (t : SignedTerm) (value : Int64) (tally : Tally σ) :
    tally.count t value = .ok { tally with total := t.apply tally.total value } := by
  unfold count SignedTerm.apply
  cases t.negative with
  | true =>
      rw [if_pos rfl, sub_eq]
      rfl
  | false =>
      rw [if_neg Bool.false_ne_true, add_eq]
      rfl

/-- The tally behind a term that is rolled. -/
def rolled (tally : Tally σ) (t : SignedTerm) : Tally σ :=
  { tally with
    total := t.apply tally.total (rollTerm t.term tally.source).1.1
    shown := tally.shown ++ (rollTerm t.term tally.source).1.2
    source := (rollTerm t.term tally.source).2 }

theorem plain_eq {t : SignedTerm} (h : ∀ count faces, t.term = .dice count faces → 1 ≤ faces)
    (tally : Tally σ) : tally.plain t = .ok (tally.rolled t) := by
  obtain ⟨negative, term⟩ := t
  cases term with
  | dice count faces =>
      dsimp only [plain]
      rw [rollSum_eq (h count faces rfl), ok_bind]
      dsimp only
      rw [count_eq]
      rfl
  | constant n =>
      dsimp only [plain]
      rw [count_eq, rolled, rollTerm, List.append_nil]
  | reference key =>
      dsimp only [plain]
      rw [count_eq, rolled, rollTerm, List.append_nil]

/-- The tally behind terms that are rolled. -/
def rolledAll (tally : Tally σ) (ts : List SignedTerm) : Tally σ :=
  { tally with
    total := (rollTerms ts tally.total tally.source).1.1
    shown := tally.shown ++ (rollTerms ts tally.total tally.source).1.2
    source := (rollTerms ts tally.total tally.source).2 }

theorem rolledAll_nil (tally : Tally σ) : tally.rolledAll [] = tally := by
  rw [rolledAll, rollTerms, List.append_nil]

theorem rolledAll_cons (tally : Tally σ) (t : SignedTerm) (ts : List SignedTerm) :
    tally.rolledAll (t :: ts) = (tally.rolled t).rolledAll ts := by
  rw [rolledAll, rolledAll, rollTerms_cons, ← List.append_assoc]
  rfl

/-- Terms are counted as they are rolled. -/
theorem foldlM_plain {ts : List SignedTerm} (h : Faced ts) (tally : Tally σ) :
    ts.foldlM plain tally = .ok (tally.rolledAll ts) := by
  induction ts generalizing tally with
  | nil =>
      rw [rolledAll_nil]
      rfl
  | cons t ts ih =>
      obtain ⟨ht, hrest⟩ := List.forall_mem_cons.mp h
      rw [List.foldlM_cons, plain_eq ht, ok_bind, ih hrest, rolledAll_cons]

/-- Away from the place of the primary die, a damage roll counts terms as a plain roll does. -/
theorem damage_of_ne (config : PrimaryConfig) {primaryIndex? : Option Nat} {t : SignedTerm × Nat}
    (h : some t.2 ≠ primaryIndex?) (tally : Tally σ) :
    tally.damage config primaryIndex? t = tally.plain t.1 := by
  obtain ⟨⟨negative, term⟩, i⟩ := t
  cases term with
  | dice count faces => exact if_neg h
  | constant n => rfl
  | reference key => rfl

theorem foldlM_damage_of_ne (config : PrimaryConfig) {primaryIndex? : Option Nat}
    {ts : List SignedTerm} {k : Nat} (h : ∀ i, k ≤ i → i < k + ts.length → some i ≠ primaryIndex?)
    (tally : Tally σ) :
    (ts.zipIdx k).foldlM (damage config primaryIndex?) tally = ts.foldlM plain tally := by
  induction ts generalizing k tally with
  | nil => rfl
  | cons t ts ih =>
      rw [List.length_cons] at h
      rw [List.zipIdx_cons, List.foldlM_cons, List.foldlM_cons,
        damage_of_ne config (h k (Nat.le_refl k) (by omega))]
      congr 1
      funext tally
      exact ih (fun i hlow hhigh => h i (by omega) (by omega)) tally

/-- The primary die is rolled at its place, and the other dice of its term behind it. -/
theorem damage_primary {count faces : UInt32} (h : 1 ≤ faces) (config : PrimaryConfig) (i : Nat)
    (tally : Tally σ) :
    tally.damage config (some i) (⟨false, .dice count faces⟩, i) =
      let primary := Spellwork.rollPrimary config faces tally.source
      let others := Spellwork.rollDice faces (count.toNat - 1) primary.2
      .ok { total := addClamped tally.total (addFaces primary.1.contribution others.1)
            shown := tally.shown ++ primary.1.die.natural :: primary.1.die.explosions ++ others.1
            primary := some primary.1
            source := others.2 } := by
  dsimp only [damage]
  rw [if_pos rfl, rollPrimary_eq h, ok_bind, rollSum_eq h, ok_bind, count_eq]
  rfl

theorem foldlM_damage_split {before after : List SignedTerm} {count faces : UInt32}
    (h : Faced (before ++ ⟨false, .dice count faces⟩ :: after)) (hcount : count ≠ 0)
    (hbefore : NoPrimary before) (config : PrimaryConfig) (total : Int64) (s : σ) :
    (before ++ ⟨false, .dice count faces⟩ :: after).zipIdx.foldlM
        (damage config (some before.length)) ⟨total, [], none, s⟩ =
      let out := rollDamageTerms config (before ++ ⟨false, .dice count faces⟩ :: after) total s
      .ok ⟨out.1.1, out.1.2.1, out.1.2.2, out.2⟩ := by
  have hfront : Faced before := fun t ht => h t (List.mem_append_left _ ht)
  have hterm : 1 ≤ faces := h ⟨false, .dice count faces⟩ (by simp) count faces rfl
  have hback : Faced after := fun t ht =>
    h t (List.mem_append_right before (List.mem_cons_of_mem _ ht))
  -- neither a term in front of the primary die nor one behind it stands at its place
  have hnot : ∀ i, 0 ≤ i → i < 0 + before.length → some i ≠ some before.length := by
    intro i _ hi heq
    cases heq
    omega
  have hpast : ∀ i, before.length + 1 ≤ i → i < before.length + 1 + after.length →
      some i ≠ some before.length := by
    intro i hi _ heq
    cases heq
    omega
  rw [List.zipIdx_append, Nat.zero_add, List.zipIdx_cons, List.foldlM_append,
    foldlM_damage_of_ne config hnot, foldlM_plain hfront, ok_bind, List.foldlM_cons,
    damage_primary hterm, ok_bind, foldlM_damage_of_ne config hpast, foldlM_plain hback,
    rollDamageTerms_split hbefore hcount]
  simp [rolledAll]

/-- Terms are counted as a damage roll counts them. -/
theorem foldlM_damage {f : Formula} (h : Faced f.terms) (config : PrimaryConfig) (s : σ) :
    f.terms.zipIdx.foldlM (damage config f.primaryIndex?) ⟨0, [], none, s⟩ =
      let out := rollDamageTerms config f.terms 0 s
      .ok ⟨out.1.1, out.1.2.1, out.1.2.2, out.2⟩ := by
  rcases noPrimary_or_split f.terms with
    hplain | ⟨before, count, faces, after, hterms, hcount, hbefore⟩
  · rw [Formula.primaryIndex?_eq_none hplain,
      foldlM_damage_of_ne config fun i _ _ => Option.some_ne_none i, foldlM_plain h,
      rollDamageTerms_of_noPrimary hplain]
    rfl
  · rw [Formula.primaryIndex?_eq_some hterms hcount hbefore, hterms]
    exact foldlM_damage_split (hterms ▸ h) hcount hbefore config 0 s

end Tally

/-! ## Rolls -/

def rollPlain (f : Formula) (s : σ) : Guarded (Roll × σ) := do
  let tally ← f.terms.foldlM Tally.plain ⟨0, [], none, s⟩
  return ({ formula := f.text
            total := tally.total
            faces := tally.shown
            primary := none
            isCritical := false
            isMiss := false }, tally.source)

def rollDamage (config : PrimaryConfig) (f : Formula) (s : σ) : Guarded (Roll × σ) := do
  let tally ← f.terms.zipIdx.foldlM (Tally.damage config f.primaryIndex?) ⟨0, [], none, s⟩
  let isMiss := tally.primary.any (·.isMiss)
  return ({ formula := f.text
            total := if isMiss then 0 else max tally.total 0
            faces := tally.shown
            primary := tally.primary.map (·.die)
            isCritical := tally.primary.any (·.isCritical)
            isMiss }, tally.source)

theorem rollPlain_eq {f : Formula} (h : Faced f.terms) (s : σ) :
    rollPlain f s = .ok (f.rollPlain s) := by
  rw [rollPlain, Tally.foldlM_plain h]
  rfl

theorem rollDamage_eq {f : Formula} (h : Faced f.terms) (config : PrimaryConfig) (s : σ) :
    rollDamage config f s = .ok (f.rollDamage config s) := by
  rw [rollDamage, Tally.foldlM_damage h]
  rfl

/-- A die without faces, which no text brings about, is not rolled, and no face is pinned on it. -/
example : rollPlain ⟨"", [⟨false, .dice 1 0⟩]⟩ (DiceScript.mk [] 2) = .error .noFaces ∧
    rollDamage { pinned := some 3 } ⟨"", [⟨false, .dice 1 0⟩]⟩ (DiceScript.mk [] 2) =
      .error .emptyRange :=
  ⟨rfl, rfl⟩

/-- Nothing halts a formula on its way from the text to a roll: reading gives an answer to each
text, dice of what is read have faces, which naming values does not touch, and both rolls go through
on every source, for every configuration. The sources of the library halt at no die at all. -/
theorem halts_nowhere (source : String) (data : Formula.RollData) (config : PrimaryConfig) (s : σ) :
    read source = .ok (Formula.read source) ∧
      (∀ f, Formula.read source = .ok f → ∀ g ∈ [f, f.resolve data],
        (∀ t ∈ g.terms, ∀ count faces, t.term = .dice count faces → 1 ≤ faces) ∧
          rollDamage config g s = .ok (g.rollDamage config s) ∧
          rollPlain g s = .ok (g.rollPlain s)) ∧
      ∀ faces (dice : Dice), rollSource faces dice = .ok (DiceSource.roll faces dice) := by
  refine ⟨read_eq source, fun f hread g hg => ?_, rollSource_eq⟩
  have hproper : g.Proper := by
    rcases List.mem_pair.mp hg with rfl | rfl
    · exact .read hread
    · exact .resolve data (.read hread)
  have hfaced : Faced g.terms := hproper.one_le_faces
  exact ⟨hfaced, rollDamage_eq hfaced config s, rollPlain_eq hfaced s⟩

end Rolls

/-! ## The ends of the numbers -/

/-- The value that is taken away has no counterpart above zero. -/
def least : Formula where
  source := "1d4 - @low"
  terms := [⟨false, .dice 1 4⟩, ⟨true, .reference "low"⟩]

def leastConfig : PrimaryConfig where
  canCrit := true
  canMiss := true
  rollMode := Int32.minValue
  pinned := some 0xffffffff
  modifier := Int64.maxValue

/-- The die is pinned beyond its faces, and the modified face and the total both stop at the
greatest integer. -/
theorem halts_nowhere_least :
    read least.source = .ok (.ok least) ∧
      rollDamage leastConfig (least.resolve [("low", Int64.minValue)]) (DiceScript.mk [4, 1, 3] 2) =
        .ok ({ formula := "1d4 - -9223372036854775808"
               total := Int64.maxValue
               faces := [4, 4, 1]
               primary := some ⟨4, 4, [], [4, 1]⟩
               isCritical := true
               isMiss := false }, DiceScript.mk [3] 2) := by
  have hread : Formula.read least.source = .ok least := by decide +kernel
  obtain ⟨hguarded, hrolls, -⟩ := halts_nowhere least.source [("low", Int64.minValue)] leastConfig
    (DiceScript.mk [4, 1, 3] 2)
  obtain ⟨-, hdamage, -⟩ := hrolls least hread (least.resolve [("low", Int64.minValue)])
    (List.mem_cons_of_mem _ List.mem_cons_self)
  refine ⟨hguarded.trans (congrArg Except.ok hread), hdamage.trans (congrArg Except.ok ?_)⟩
  decide

end Guarded

end Spellwork
