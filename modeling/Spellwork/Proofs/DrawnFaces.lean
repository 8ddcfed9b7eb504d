import Mathlib.Algebra.GroupWithZero.Nat
import Mathlib.Data.List.Sort
import Spellwork.Proofs.RollSums

/-!
# The faces that a roll draws

A roll asks its source for one face after the other. For which dice it asks is told by the formula,
and around the primary die by the configuration and by what falls: there may be further candidates,
or none when the face is pinned, and the explosions come before the other dice of the term
(`DamageAccount`). A roll shows what it draws, but for the candidates that are not kept, and leaves
the source where the next face is one that nobody has seen (`Formula.rolls_account`).
-/

namespace Spellwork

/-! ## Faces in a row -/

section Draws

variable {σ : Type u} [DiceSource σ]

/-- The faces of dice that are asked for one after the other, and the source behind them. -/
def drawFaces : (dice : List UInt32) → σ → List UInt32 × σ
  | [], s => ([], s)
  | faces :: dice, s =>
    let (face, s) := DiceSource.roll faces s
    let (more, s) := drawFaces dice s
    (face :: more, s)

theorem drawFaces_cons (faces : UInt32) (dice : List UInt32) (s : σ) :
    drawFaces (faces :: dice) s =
      ((DiceSource.roll faces s).1 :: (drawFaces dice (DiceSource.roll faces s).2).1,
        (drawFaces dice (DiceSource.roll faces s).2).2) :=
  rfl

/-- What is asked for later is answered by the source that was left. -/
theorem drawFaces_append (dice more : List UInt32) (s : σ) :
    drawFaces (dice ++ more) s =
      ((drawFaces dice s).1 ++ (drawFaces more (drawFaces dice s).2).1,
        (drawFaces more (drawFaces dice s).2).2) := by
  induction dice generalizing s with
  | nil => rfl
  | cons faces dice ih =>
      rw [List.cons_append, drawFaces_cons, ih, drawFaces_cons, List.cons_append]

theorem drawFaces_append_of_eq {dice shown : List UInt32} {s s' : σ}
    (h : drawFaces dice s = (shown, s')) (more : List UInt32) :
    drawFaces (dice ++ more) s = (shown ++ (drawFaces more s').1, (drawFaces more s').2) := by
  rw [drawFaces_append, h]

theorem drawFaces_trans {dice more shown later : List UInt32} {s s' s'' : σ}
    (h : drawFaces dice s = (shown, s')) (hmore : drawFaces more s' = (later, s'')) :
    drawFaces (dice ++ more) s = (shown ++ later, s'') := by
  rw [drawFaces_append_of_eq h, hmore]

theorem length_drawFaces (dice : List UInt32) (s : σ) :
    (drawFaces dice s).1.length = dice.length := by
  induction dice generalizing s with
  | nil => rfl
  | cons faces dice ih => rw [drawFaces_cons, List.length_cons, ih, List.length_cons]

theorem length_eq_of_drawFaces {dice shown : List UInt32} {s s' : σ}
    (h : drawFaces dice s = (shown, s')) : shown.length = dice.length := by
  have hlen := length_drawFaces dice s
  rwa [h] at hlen

theorem rollDice_eq_drawFaces (faces : UInt32) (count : Nat) (s : σ) :
    rollDice faces count s = drawFaces (List.replicate count faces) s := by
  induction count generalizing s with
  | zero => rfl
  | succ count ih => rw [rollDice_succ, List.replicate_succ, drawFaces_cons, ih]

end Draws

theorem drawFaces_script (dice : List UInt32) (s : DiceScript) :
    (drawFaces dice s).2 = { s with faces := s.faces.drop dice.length } := by
  induction dice generalizing s with
  | nil => rfl
  | cons faces dice ih =>
      obtain ⟨script, fallback⟩ := s
      rw [drawFaces_cons, ih]
      cases script with
      | nil => exact congrArg (DiceScript.mk · fallback) List.drop_nil
      | cons face script => rfl

/-- A script is played back from its beginning: what is left are the faces not yet drawn. -/
theorem eq_drop_of_drawFaces {dice shown : List UInt32} {s s' : DiceScript}
    (h : drawFaces dice s = (shown, s')) :
    s' = { s with faces := s.faces.drop shown.length } := by
  rw [length_eq_of_drawFaces h, ← drawFaces_script dice s, h]

/-! ## The dice of a formula -/

/-- The dice that a term asks for. -/
def Term.draws : Term → List UInt32
  | .dice count faces => List.replicate count.toNat faces
  | _ => []

/-- How many dice a term has. -/
def Term.diceCount : Term → Nat
  | .dice count _ => count.toNat
  | _ => 0

def drawsOf (ts : List SignedTerm) : List UInt32 :=
  ts.flatMap fun t => t.term.draws

def diceCountOf (ts : List SignedTerm) : Nat :=
  (ts.map fun t => t.term.diceCount).sum

theorem Term.length_draws (t : Term) : t.draws.length = t.diceCount := by
  cases t with
  | dice count faces => exact List.length_replicate
  | _ => rfl

theorem drawsOf_cons (t : SignedTerm) (ts : List SignedTerm) :
    drawsOf (t :: ts) = t.term.draws ++ drawsOf ts :=
  List.flatMap_cons

theorem length_drawsOf (ts : List SignedTerm) : (drawsOf ts).length = diceCountOf ts := by
  induction ts with
  | nil => rfl
  | cons t ts ih =>
      rw [drawsOf_cons, List.length_append, ih, Term.length_draws, diceCountOf, diceCountOf,
        List.map_cons, List.sum_cons]

theorem diceCountOf_split (before after : List SignedTerm) (t : SignedTerm) :
    diceCountOf (before ++ t :: after) =
      diceCountOf before + t.term.diceCount + diceCountOf after := by
  simp only [diceCountOf, List.map_append, List.map_cons, List.sum_append, List.sum_cons]
  omega

/-- None of the terms adds dice, so there is no primary die. -/
def NoPrimary (ts : List SignedTerm) : Prop :=
  ∀ count faces, ⟨false, .dice count faces⟩ ∈ ts → count = 0

theorem isPrimary_dice {negative : Bool} {count faces : UInt32} :
    Formula.isPrimary ⟨negative, .dice count faces⟩ = true ↔ negative = false ∧ count ≠ 0 := by
  simp [Formula.isPrimary]

theorem noPrimary_iff {ts : List SignedTerm} :
    NoPrimary ts ↔ ∀ t ∈ ts, Formula.isPrimary t = false := by
  constructor
  · intro h t ht
    by_contra hne
    have hprimary : Formula.isPrimary t = true := by simpa using hne
    obtain ⟨negative, count, faces, rfl⟩ := eq_dice_of_isPrimary hprimary
    obtain ⟨rfl, hcount⟩ := isPrimary_dice.mp hprimary
    exact hcount (h count faces ht)
  · intro h count faces ht
    by_contra hcount
    have hplain := h _ ht
    rw [isPrimary_dice.mpr ⟨rfl, hcount⟩] at hplain
    cases hplain

/-- Either no term adds dice, or there is a first one that does. -/
theorem noPrimary_or_split (ts : List SignedTerm) :
    NoPrimary ts ∨ ∃ before count faces after,
      ts = before ++ ⟨false, .dice count faces⟩ :: after ∧ count ≠ 0 ∧ NoPrimary before := by
  cases hfind : ts.find? Formula.isPrimary with
  | none =>
      refine .inl (noPrimary_iff.mpr fun t ht => ?_)
      simpa using List.find?_eq_none.mp hfind t ht
  | some t =>
      obtain ⟨hprimary, before, after, rfl, hbefore⟩ := List.find?_eq_some_iff_append.mp hfind
      obtain ⟨negative, count, faces, rfl⟩ := eq_dice_of_isPrimary hprimary
      obtain ⟨rfl, hcount⟩ := isPrimary_dice.mp hprimary
      refine .inr ⟨before, count, faces, after, rfl, hcount, noPrimary_iff.mpr fun t ht => ?_⟩
      simpa using hbefore t ht

/-! ## Terms -/

section Rolls

variable {σ : Type u} [DiceSource σ]

theorem drawFaces_term (t : Term) (s : σ) :
    drawFaces t.draws s = ((rollTerm t s).1.2, (rollTerm t s).2) := by
  cases t with
  | dice count faces => exact (rollDice_eq_drawFaces faces count.toNat s).symm
  | _ => rfl

/-- Terms show the faces of their dice, one term after the other. -/
theorem drawFaces_terms (ts : List SignedTerm) (total : Int64) (s : σ) :
    drawFaces (drawsOf ts) s = ((rollTerms ts total s).1.2, (rollTerms ts total s).2) := by
  induction ts generalizing total s with
  | nil => rfl
  | cons t ts ih =>
      rw [drawsOf_cons, drawFaces_append_of_eq (drawFaces_term t.term s), ih, rollTerms_cons]

theorem rollDamageTerms_of_noPrimary {ts : List SignedTerm} (h : NoPrimary ts)
    (config : PrimaryConfig) (total : Int64) (s : σ) :
    rollDamageTerms config ts total s =
      (((rollTerms ts total s).1.1, (rollTerms ts total s).1.2, none),
        (rollTerms ts total s).2) := by
  rw [noPrimary_iff] at h
  induction ts generalizing total s with
  | nil => rfl
  | cons t ts ih =>
      obtain ⟨hplain, hrest⟩ := List.forall_mem_cons.mp h
      rw [rollDamageTerms_plain hplain, rollTerms_cons]
      dsimp only
      rw [ih hrest]

/-- A damage roll is a plain one up to the primary die and behind the other dice of its term. -/
theorem rollDamageTerms_split {before : List SignedTerm} (hbefore : NoPrimary before)
    {count : UInt32} (hcount : count ≠ 0) (config : PrimaryConfig) (faces : UInt32)
    (after : List SignedTerm) (total : Int64) (s : σ) :
    rollDamageTerms config (before ++ ⟨false, .dice count faces⟩ :: after) total s =
      let front := rollTerms before total s
      let primary := rollPrimary config faces front.2
      let others := rollDice faces (count.toNat - 1) primary.2
      let back := rollTerms after
        (addClamped front.1.1 (addFaces primary.1.contribution others.1)) others.2
      ((back.1.1, front.1.2 ++ (primary.1.die.natural ::
          (primary.1.die.explosions ++ others.1 ++ back.1.2)), some primary.1), back.2) := by
  rw [noPrimary_iff] at hbefore
  induction before generalizing total s with
  | nil =>
      rw [List.nil_append, rollDamageTerms_primary (isPrimary_dice.mpr ⟨rfl, hcount⟩)]
      rfl
  | cons t ts ih =>
      obtain ⟨hplain, hrest⟩ := List.forall_mem_cons.mp hbefore
      rw [List.cons_append, rollDamageTerms_plain hplain, rollTerms_cons]
      dsimp only
      rw [ih hrest]
      simp only [List.append_assoc]

/-! ## The primary die -/

/-- The further candidates for the primary die. -/
def PrimaryConfig.extraCandidates (config : PrimaryConfig) : Nat :=
  min config.rollMode.toInt.natAbs maxExtraCandidates

/-- Where the natural face of a die with so many faces comes from: it is the face the die is pinned
to, for which nothing is drawn, or one of the candidates, and the others are told from the lowest to
the highest. -/
inductive Kept (config : PrimaryConfig) (faces : UInt32) :
    (candidates : List UInt32) → (natural : UInt32) → (discarded : List UInt32) → Prop
  | pinned {face : UInt32} (hpinned : config.pinned = some face) :
      Kept config faces [] (max 1 (min face faces)) []
  | lowest {candidates discarded : List UInt32} {natural : UInt32} (hpinned : config.pinned = none)
      (hmode : config.rollMode < 0) (hlen : candidates.length = 1 + config.extraCandidates)
      (hperm : candidates.Perm (natural :: discarded)) (hsorted : discarded.Pairwise (· ≤ ·))
      (hleast : ∀ face ∈ candidates, natural ≤ face) :
      Kept config faces candidates natural discarded
  | highest {candidates discarded : List UInt32} {natural : UInt32} (hpinned : config.pinned = none)
      (hmode : 0 ≤ config.rollMode) (hlen : candidates.length = 1 + config.extraCandidates)
      (hperm : candidates.Perm (natural :: discarded)) (hsorted : discarded.Pairwise (· ≤ ·))
      (hgreatest : ∀ face ∈ candidates, face ≤ natural) :
      Kept config faces candidates natural discarded

theorem Kept.length_eq {config : PrimaryConfig} {faces natural : UInt32}
    {candidates discarded : List UInt32} (h : Kept config faces candidates natural discarded) :
    (config.pinned = none → candidates.length = 1 + config.extraCandidates) ∧
      (config.pinned ≠ none → candidates.length = 0) := by
  cases h with
  | pinned hpinned =>
      refine ⟨fun hnone => ?_, fun _ => rfl⟩
      rw [hpinned] at hnone
      cases hnone
  | lowest hpinned hmode hlen => exact ⟨fun _ => hlen, fun hsome => absurd hpinned hsome⟩
  | highest hpinned hmode hlen => exact ⟨fun _ => hlen, fun hsome => absurd hpinned hsome⟩

theorem pairwise_mergeSort_faces (candidates : List UInt32) :
    (candidates.mergeSort fun a b => decide (a ≤ b)).Pairwise (· ≤ ·) :=
  List.pairwise_mergeSort' (· ≤ ·) candidates

theorem keep_lowest {candidates : List UInt32} (h : candidates ≠ []) :
    candidates.Perm ((keep true candidates).1 :: (keep true candidates).2) ∧
      ((keep true candidates).1 :: (keep true candidates).2).Pairwise (· ≤ ·) := by
  have hperm := List.mergeSort_perm candidates fun a b => decide (a ≤ b)
  have hsorted := pairwise_mergeSort_faces candidates
  unfold keep
  cases hsort : candidates.mergeSort fun a b => decide (a ≤ b) with
  | nil => exact absurd (hsort ▸ hperm).symm.eq_nil h
  | cons face rest =>
      rw [hsort] at hperm hsorted
      exact ⟨hperm.symm, hsorted⟩

theorem keep_highest {candidates : List UInt32} (h : candidates ≠ []) :
    candidates.Perm ((keep false candidates).1 :: (keep false candidates).2) ∧
      ((keep false candidates).2 ++ [(keep false candidates).1]).Pairwise (· ≤ ·) := by
  have hperm := List.mergeSort_perm candidates fun a b => decide (a ≤ b)
  have hsorted := pairwise_mergeSort_faces candidates
  have hne : (candidates.mergeSort fun a b => decide (a ≤ b)) ≠ [] := fun hnil =>
    h (hnil ▸ hperm).symm.eq_nil
  have hlast : (keep false candidates).2 ++ [(keep false candidates).1] =
      candidates.mergeSort fun a b => decide (a ≤ b) := by
    unfold keep
    rw [if_neg Bool.false_ne_true, List.getLastD_eq_getLast?, List.getLast?_eq_some_getLast hne]
    exact List.dropLast_concat_getLast hne
  rw [← hlast] at hperm hsorted
  exact ⟨hperm.symm.trans List.perm_append_comm, hsorted⟩

/-- The natural face is kept of the candidates that are drawn for it. -/
theorem kept_rollNatural (config : PrimaryConfig) (faces : UInt32) (s : σ) :
    ∃ candidates, drawFaces (List.replicate candidates.length faces) s =
        (candidates, (rollNatural config faces s).2) ∧
      Kept config faces candidates (rollNatural config faces s).1.1
        (rollNatural config faces s).1.2 := by
  unfold rollNatural
  cases hpinned : config.pinned with
  | some face => exact ⟨[], rfl, .pinned hpinned⟩
  | none =>
      dsimp only
      rw [rollDice_eq_drawFaces]
      obtain ⟨⟨candidates, s'⟩, hdraw⟩ : ∃ out, drawFaces (List.replicate
        (1 + min config.rollMode.toInt.natAbs maxExtraCandidates) faces) s = out := ⟨_, rfl⟩
      have hlen : candidates.length = 1 + config.extraCandidates :=
        (length_eq_of_drawFaces hdraw).trans List.length_replicate
      have hne : candidates ≠ [] := by
        rintro rfl
        rw [List.length_nil] at hlen
        omega
      rw [hdraw]
      refine ⟨candidates, ?_, ?_⟩
      · rw [hlen]
        exact hdraw
      · by_cases hmode : config.rollMode < 0
        · rw [decide_eq_true hmode]
          obtain ⟨hperm, hsorted⟩ := keep_lowest hne
          obtain ⟨hleast, hrest⟩ := List.pairwise_cons.mp hsorted
          refine .lowest hpinned hmode hlen hperm hrest fun face hface => ?_
          rcases List.mem_cons.mp (hperm.mem_iff.mp hface) with rfl | hface
          · exact UInt32.le_refl _
          · exact hleast face hface
        · rw [decide_eq_false hmode]
          obtain ⟨hperm, hsorted⟩ := keep_highest hne
          obtain ⟨hrest, -, hgreatest⟩ := List.pairwise_append.mp hsorted
          refine .highest hpinned (Int32.not_lt.mp hmode) hlen hperm hrest fun face hface => ?_
          rcases List.mem_cons.mp (hperm.mem_iff.mp hface) with rfl | hface
          · exact UInt32.le_refl _
          · exact hgreatest face hface _ (List.mem_singleton_self _)

theorem drawFaces_explode (faces : UInt32) (limit : Nat) (s : σ) :
    drawFaces (List.replicate (explode faces limit s).1.length faces) s =
      explode faces limit s := by
  induction limit generalizing s with
  | zero => rfl
  | succ limit ih =>
      rw [explode]
      dsimp only
      split
      · rfl
      · rw [List.length_cons, List.replicate_succ, drawFaces_cons, ih]

theorem drawFaces_explosions (config : PrimaryConfig) (faces : UInt32) (s : σ) :
    drawFaces (List.replicate (rollPrimary config faces s).1.die.explosions.length faces)
        (rollNatural config faces s).2 =
      ((rollPrimary config faces s).1.die.explosions, (rollPrimary config faces s).2) := by
  unfold rollPrimary
  dsimp only
  split
  · exact drawFaces_explode faces maxExplosions _
  · rfl

/-- A primary die draws its candidates and behind them its explosions. -/
theorem exists_candidates (config : PrimaryConfig) (faces : UInt32) (s : σ) :
    ∃ candidates, Kept config faces candidates (rollPrimary config faces s).1.die.natural
        (rollPrimary config faces s).1.die.discarded ∧
      drawFaces (List.replicate
          (candidates.length + (rollPrimary config faces s).1.die.explosions.length) faces) s =
        (candidates ++ (rollPrimary config faces s).1.die.explosions,
          (rollPrimary config faces s).2) := by
  obtain ⟨candidates, hcandidates, hkept⟩ := kept_rollNatural config faces s
  refine ⟨candidates, hkept, ?_⟩
  rw [← List.replicate_append_replicate]
  exact drawFaces_trans hcandidates (drawFaces_explosions config faces s)

/-! ## What a roll accounts for -/

/-- The sum of values without their signs. -/
def absSum (values : List (Bool × Int)) : Nat :=
  (values.map fun v => v.2.natAbs).sum

theorem absSum_cons (v : Bool × Int) (values : List (Bool × Int)) :
    absSum (v :: values) = v.2.natAbs + absSum values := by
  simp [absSum]

/-- No sum of values in between is farther from zero than all of them without their signs. -/
theorem unsaturated_of_absSum {total : Int} {values : List (Bool × Int)}
    (h : total.natAbs + absSum values ≤ 0x7fffffffffffffff) : Unsaturated total values := by
  induction values generalizing total with
  | nil => trivial
  | cons v values ih =>
      rw [absSum_cons] at h
      have hstep : (total + signed v.1 v.2).natAbs ≤ total.natAbs + v.2.natAbs := by
        unfold signed
        split <;> omega
      exact ⟨⟨by omega, by omega⟩, ⟨by omega, by omega⟩, ih (by omega)⟩

/-- The dice that a formula asks for, but for what comes and goes with the primary die. -/
def Formula.draws (f : Formula) : List UInt32 :=
  drawsOf f.terms

/-- How many dice a formula has. -/
def Formula.diceCount (f : Formula) : Nat :=
  diceCountOf f.terms

/-- A plain roll shows the face of each die, in order, and leaves the source behind them. If nothing
can leave 64 bits, its total is the sum over the integers. -/
structure PlainAccount (f : Formula) (s : σ) (roll : Roll) (s' : σ) : Prop where
  draw_eq : drawFaces f.draws s = (roll.faces, s')
  length_faces : roll.faces.length = f.diceCount
  next_eq : ∀ more, drawFaces (f.draws ++ more) s =
    (roll.faces ++ (drawFaces more s').1, (drawFaces more s').2)
  total_eq : absSum (shownValues 0 none f.terms roll.faces) ≤ 0x7fffffffffffffff →
    roll.total.toInt = signedSum (shownValues 0 none f.terms roll.faces)

/-- The dice that a damage roll asks for, the faces drawn, and which of them it shows. The primary
die shows one face for its candidates, in front of its explosions and the other dice of its term. -/
inductive Shows (config : PrimaryConfig) (f : Formula) (roll : Roll) :
    (dice drawn : List UInt32) → Prop
  | plain (hplain : NoPrimary f.terms) (hprimary : roll.primary = none) :
      Shows config f roll f.draws roll.faces
  | primary {before after : List SignedTerm} {count faces : UInt32} {die : PrimaryDie}
      {front candidates others back : List UInt32}
      (hterms : f.terms = before ++ ⟨false, .dice count faces⟩ :: after) (hcount : count ≠ 0)
      (hbefore : NoPrimary before) (hprimary : roll.primary = some die)
      (hkept : Kept config faces candidates die.natural die.discarded)
      (hfront : front.length = diceCountOf before) (hothers : others.length = count.toNat - 1)
      (hback : back.length = diceCountOf after)
      (hfaces : roll.faces = front ++ (die.natural :: (die.explosions ++ others)) ++ back) :
      Shows config f roll
        (drawsOf before ++ List.replicate
          (candidates.length + die.explosions.length + (count.toNat - 1)) faces ++ drawsOf after)
        (front ++ (candidates ++ die.explosions ++ others) ++ back)

/-- A damage roll draws some faces for some dice, in order, and leaves the source behind them: those
of a plain roll, but the explosions as well, and for the primary die itself further candidates or no
face at all. If nothing can leave 64 bits, the total of a hit is the sum over the integers, the
primary die counted for what it contributes, or zero if the sum is below. -/
structure DamageAccount (config : PrimaryConfig) (f : Formula) (s : σ) (dice drawn : List UInt32)
    (roll : Roll) (s' : σ) : Prop where
  draw_eq : drawFaces dice s = (drawn, s')
  shows : Shows config f roll dice drawn
  length_plain : roll.primary = none → drawn.length = f.diceCount
  length_rolled : ∀ die, roll.primary = some die → config.pinned = none →
    drawn.length = f.diceCount + die.explosions.length + config.extraCandidates
  length_pinned : ∀ die, roll.primary = some die → config.pinned ≠ none →
    drawn.length + 1 = f.diceCount + die.explosions.length
  next_eq : ∀ more, drawFaces (dice ++ more) s =
    (drawn ++ (drawFaces more s').1, (drawFaces more s').2)
  total_eq : roll.isMiss = false →
    absSum (shownValues config.modifier roll.primary f.terms roll.faces) ≤ 0x7fffffffffffffff →
      roll.total.toInt =
        max 0 (signedSum (shownValues config.modifier roll.primary f.terms roll.faces))

theorem Formula.plainAccount (f : Formula) (s : σ) :
    PlainAccount f s (f.rollPlain s).1 (f.rollPlain s).2 := by
  have hdraw : drawFaces f.draws s = ((f.rollPlain s).1.faces, (f.rollPlain s).2) :=
    drawFaces_terms f.terms 0 s
  refine ⟨hdraw, ?_, drawFaces_append_of_eq hdraw, fun hsum => ?_⟩
  · rw [length_eq_of_drawFaces hdraw]
    exact length_drawsOf f.terms
  · have hzero : (0 : Int64).toInt = 0 := rfl
    have hvalues : absSum (shownValues 0 none f.terms (rollTerms f.terms 0 s).1.2) ≤
      0x7fffffffffffffff := hsum
    have hunsaturated : Unsaturated (0 : Int64).toInt
        (shownValues 0 none f.terms (rollTerms f.terms 0 s).1.2) :=
      unsaturated_of_absSum (by rw [hzero]; omega)
    have hexact := toInt_rollTerms hunsaturated
    rwa [hzero, Int.zero_add] at hexact

theorem Shows.length_eq {config : PrimaryConfig} {f : Formula} {roll : Roll}
    {dice drawn : List UInt32} (h : Shows config f roll dice drawn) :
    (roll.primary = none → dice.length = f.diceCount) ∧
      ∀ die, roll.primary = some die →
        (config.pinned = none →
          dice.length = f.diceCount + die.explosions.length + config.extraCandidates) ∧
        (config.pinned ≠ none → dice.length + 1 = f.diceCount + die.explosions.length) := by
  cases h with
  | plain hplain hprimary =>
      refine ⟨fun _ => length_drawsOf f.terms, fun die hdie => ?_⟩
      rw [hprimary] at hdie
      cases hdie
  | @primary before after count faces die front candidates others back hterms hcount hbefore
      hprimary hkept hfront hothers hback hfaces =>
      have hpos : count.toNat ≠ 0 := fun hzero => hcount (UInt32.toNat_inj.mp hzero)
      have hdice : f.diceCount = diceCountOf before + count.toNat + diceCountOf after := by
        rw [Formula.diceCount, hterms, diceCountOf_split]
        rfl
      rw [hprimary, List.length_append, List.length_append, List.length_replicate, length_drawsOf,
        length_drawsOf]
      refine ⟨fun hnone => (nomatch hnone), fun die' hdie => ?_⟩
      cases hdie
      obtain ⟨hrolled, hpinned⟩ := hkept.length_eq
      refine ⟨fun hnone => ?_, fun hsome => ?_⟩
      · have hlen := hrolled hnone
        omega
      · have hlen := hpinned hsome
        omega

/-- What a damage roll draws and shows. -/
theorem Formula.exists_shows (f : Formula) (config : PrimaryConfig) (s : σ) :
    ∃ dice drawn, drawFaces dice s = (drawn, (f.rollDamage config s).2) ∧
      Shows config f (f.rollDamage config s).1 dice drawn := by
  rw [rollDamage_eq]
  rcases noPrimary_or_split f.terms with
    hplain | ⟨before, count, faces, after, hterms, hcount, hbefore⟩
  · rw [rollDamageTerms_of_noPrimary hplain]
    exact ⟨_, _, drawFaces_terms f.terms 0 s, .plain hplain rfl⟩
  · rw [hterms, rollDamageTerms_split hbefore hcount]
    dsimp only
    obtain ⟨⟨⟨subtotal, front⟩, s₁⟩, hfrontRun⟩ : ∃ out, rollTerms before 0 s = out := ⟨_, rfl⟩
    have hfront := drawFaces_terms before 0 s
    rw [hfrontRun] at hfront ⊢
    obtain ⟨candidates, hkept, hprimary⟩ := exists_candidates config faces s₁
    obtain ⟨⟨p, s₂⟩, hprimaryRun⟩ : ∃ out, rollPrimary config faces s₁ = out := ⟨_, rfl⟩
    rw [hprimaryRun] at hkept hprimary ⊢
    dsimp only at hkept hprimary ⊢
    have hothers := rollDice_eq_drawFaces faces (count.toNat - 1) s₂
    obtain ⟨⟨others, s₃⟩, hothersRun⟩ : ∃ out, rollDice faces (count.toNat - 1) s₂ = out :=
      ⟨_, rfl⟩
    rw [hothersRun] at hothers ⊢
    have hback := drawFaces_terms after (addClamped subtotal (addFaces p.contribution others)) s₃
    have hterm := drawFaces_trans hprimary hothers.symm
    rw [List.replicate_append_replicate] at hterm
    refine ⟨_, _, drawFaces_trans (drawFaces_trans hfront hterm) hback,
      .primary hterms hcount hbefore rfl hkept ?_ ?_ ?_ ?_⟩
    · rw [length_eq_of_drawFaces hfront, length_drawsOf]
    · rw [length_eq_of_drawFaces hothers.symm, List.length_replicate]
    · rw [length_eq_of_drawFaces hback, length_drawsOf]
    · simp only [List.append_assoc, List.cons_append]

theorem Formula.exists_damageAccount (f : Formula) (config : PrimaryConfig) (s : σ) :
    ∃ dice drawn, DamageAccount config f s dice drawn (f.rollDamage config s).1
      (f.rollDamage config s).2 := by
  obtain ⟨dice, drawn, hdraw, hshows⟩ := f.exists_shows config s
  obtain ⟨hplain, hprimary⟩ := hshows.length_eq
  rw [← length_eq_of_drawFaces hdraw] at hplain hprimary
  refine ⟨dice, drawn, hdraw, hshows, hplain, fun die hdie => (hprimary die hdie).1,
    fun die hdie => (hprimary die hdie).2, drawFaces_append_of_eq hdraw, fun hmiss hsum => ?_⟩
  rw [rollDamage_eq] at hmiss hsum ⊢
  dsimp only at hmiss hsum ⊢
  have hzero : (0 : Int64).toInt = 0 := rfl
  have hexact := toInt_rollDamageTerms config f.terms 0 s
    (unsaturated_of_absSum (by rw [hzero]; omega))
  rw [hzero, Int.zero_add] at hexact
  rw [hmiss, if_neg Bool.false_ne_true, toInt_max, hexact, hzero]
  exact Int.max_comm _ _

/-- Rolls of a formula account for the faces that they draw. -/
theorem Formula.rolls_account (f : Formula) (config : PrimaryConfig) (s : σ) :
    PlainAccount f s (f.rollPlain s).1 (f.rollPlain s).2 ∧
      ∃ dice drawn, DamageAccount config f s dice drawn (f.rollDamage config s).1
        (f.rollDamage config s).2 :=
  ⟨f.plainAccount s, f.exists_damageAccount config s⟩

end Rolls

/-! ## One roll -/

namespace Formula

/-- The d6 bring the primary die, since no d8 is rolled and the d4 is taken away. -/
def mixed : Formula where
  source := "0d8 - 1d4 + 2d6 - 3"
  terms := [⟨false, .dice 0 8⟩, ⟨true, .dice 1 4⟩, ⟨false, .dice 2 6⟩, ⟨true, .constant 3⟩]

/-- The primary die is pinned beyond its highest face. -/
def mixedConfig : PrimaryConfig where
  canCrit := true
  canMiss := true
  pinned := some 9

def mixedScript : DiceScript where
  faces := [3, 6, 4, 5, 1]

def mixedRoll : Roll where
  formula := "0d8 - 1d4 + 2d6 - 3"
  total := 15
  faces := [3, 6, 6, 4, 5]
  primary := some { faces := 6, natural := 6, discarded := [], explosions := [6, 4] }
  isCritical := true
  isMiss := false

theorem rollDamage_mixed : (mixed.rollDamage mixedConfig mixedScript).1 = mixedRoll := by
  decide

/-- Four faces are drawn for three dice: none for the pinned one, but two for explosions. The fifth
face of the script is left. -/
theorem rolls_account_mixed :
    ∃ dice drawn, DamageAccount mixedConfig mixed mixedScript dice drawn mixedRoll
        { mixedScript with faces := [1] } ∧
      drawn.length = 4 ∧ mixedRoll.total.toInt = max 0 (-3 + (6 + 6 + 4 + 5) - 3) := by
  obtain ⟨-, dice, drawn, h⟩ := rolls_account mixed mixedConfig mixedScript
  rw [rollDamage_mixed] at h
  have hlen : drawn.length = 4 := Nat.succ_inj.mp (h.length_pinned _ rfl (by decide))
  have hrest := eq_drop_of_drawFaces h.draw_eq
  rw [hlen] at hrest
  rw [hrest] at h
  exact ⟨dice, drawn, h, hlen, (h.total_eq rfl (by decide)).trans (by decide)⟩

end Formula

end Spellwork
