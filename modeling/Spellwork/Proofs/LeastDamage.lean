import Spellwork.Proofs.PrimaryDice
import Spellwork.Proofs.Repetition

/-!
# Damage below zero

Only the primary roll of an activation stops at zero. Later damage is a plain roll, whose least
total is the one where every die that is added shows a one and every die that is taken away shows
its highest face (`Formula.least`). Some dice do fall that way, whatever is rolled before
(`Playable`), so damage stays at zero or above on all of them if and only if the least total of all
later damage does (`Tree.Valid.damage_nonneg_iff`).
-/

namespace Spellwork

/-! ## The least total of a plain roll -/

/-- The face that makes a term count for least. -/
def SignedTerm.worstFace (t : SignedTerm) (faces : UInt32) : UInt32 :=
  if t.negative then faces else 1

/-- The faces that make a term count for least. -/
def SignedTerm.worstFaces (t : SignedTerm) : List UInt32 :=
  match t.term with
  | .dice count faces => List.replicate count.toNat (t.worstFace faces)
  | _ => []

/-- The value of a term whose faces make it count for least. -/
def SignedTerm.worst (t : SignedTerm) : Int64 :=
  match t.term with
  | .dice count faces => clamp64 (count.toNat * (t.worstFace faces).toNat)
  | .constant n => n
  | .reference _ => 0

/-- The least total of terms that are added to a total one after the other. -/
def leastFrom (ts : List SignedTerm) (total : Int64) : Int64 :=
  ts.foldl (fun total t => t.apply total t.worst) total

/-- The least total of a plain roll. -/
def Formula.least (f : Formula) : Int64 :=
  leastFrom f.terms 0

/-- No die of the terms is without faces. -/
def Faced (ts : List SignedTerm) : Prop :=
  ∀ t ∈ ts, ∀ count faces, t.term = .dice count faces → 1 ≤ faces

/-- A total grows with the total before it and with the value, or shrinks with a value that is taken
away. -/
theorem apply_le_apply {t : SignedTerm} {a b v w : Int64} (htotal : a.toInt ≤ b.toInt)
    (hvalue : if t.negative then w.toInt ≤ v.toInt else v.toInt ≤ w.toInt) :
    (t.apply a v).toInt ≤ (t.apply b w).toInt := by
  unfold SignedTerm.apply
  cases hneg : t.negative with
  | true =>
      simp only [hneg, if_true] at hvalue ⊢
      rw [toInt_subClamped, toInt_subClamped]
      omega
  | false =>
      simp only [hneg, Bool.false_eq_true, if_false] at hvalue ⊢
      rw [toInt_addClamped, toInt_addClamped]
      omega

section Lawful

variable {σ : Type u} [DiceSource σ] [LawfulDice σ]

/-- Dice show at least a one each and at most their highest faces. -/
theorem faceSum_rollDice_bounds {faces : UInt32} (h : 1 ≤ faces) (count : Nat) (s : σ) :
    (count : Int) ≤ faceSum (rollDice faces count s).1 ∧
      faceSum (rollDice faces count s).1 ≤ count * faces.toNat := by
  induction count generalizing s with
  | zero => simp [faceSum]
  | succ count ih =>
      obtain ⟨hlow, hhigh⟩ := LawfulDice.roll_bounds h s
      obtain ⟨ihlow, ihhigh⟩ := ih (DiceSource.roll faces s).2
      have hone : 1 ≤ (DiceSource.roll faces s).1.toNat := UInt32.le_iff_toNat_le.mp hlow
      have hmost := UInt32.le_iff_toNat_le.mp hhigh
      have hproduct : ((count + 1 : Nat) : Int) * faces.toNat =
          count * faces.toNat + faces.toNat := by
        rw [Int.natCast_add, Int.add_mul]
        omega
      rw [rollDice_succ, faceSum_cons, hproduct]
      omega

theorem worst_bounds {t : SignedTerm}
    (hfaces : ∀ count faces, t.term = .dice count faces → 1 ≤ faces) (s : σ) :
    if t.negative then (rollTerm t.term s).1.1.toInt ≤ t.worst.toInt
    else t.worst.toInt ≤ (rollTerm t.term s).1.1.toInt := by
  obtain ⟨negative, term⟩ := t
  cases term with
  | dice count faces =>
      obtain ⟨hlow, hhigh⟩ := faceSum_rollDice_bounds (hfaces count faces rfl) count.toNat s
      have hvalue : (rollTerm (.dice count faces) s).1.1.toInt =
          min (faceSum (rollDice faces count.toNat s).1) 0x7fffffffffffffff := by
        show (addFaces 0 (rollDice faces count.toNat s).1).toInt = _
        rw [toInt_addFaces_eq, Int64.toInt_zero, Int.zero_add]
      have hone : (1 : UInt32).toNat = 1 := rfl
      cases negative with
      | true =>
          simp only [SignedTerm.worst, SignedTerm.worstFace, if_true, toInt_clamp64_eq, hvalue]
          omega
      | false =>
          simp only [SignedTerm.worst, SignedTerm.worstFace, Bool.false_eq_true, if_false,
            toInt_clamp64_eq, hvalue, hone]
          omega
  | constant n => cases negative <;> exact Int.le_refl _
  | reference key => cases negative <;> exact Int.le_refl _

theorem leastFrom_le {ts : List SignedTerm} (hts : Faced ts) {least total : Int64}
    (htotal : least.toInt ≤ total.toInt) (s : σ) :
    (leastFrom ts least).toInt ≤ (rollTerms ts total s).1.1.toInt := by
  induction ts generalizing least total s with
  | nil => exact htotal
  | cons t ts ih =>
      obtain ⟨ht, hrest⟩ := List.forall_mem_cons.mp hts
      rw [rollTerms_cons]
      exact ih hrest (apply_le_apply htotal (worst_bounds ht s)) _

/-- No plain roll comes below the least total. -/
theorem Formula.Proper.least_le {f : Formula} (hf : f.Proper) (s : σ) :
    f.least.toInt ≤ (f.rollPlain s).1.total.toInt :=
  leastFrom_le hf.one_le_faces (Int.le_refl _) s

end Lawful

/-! ## Runs on scripts -/

section Scripts

variable {α : Type u} {β : Type v}

/-- On a script that begins with these faces, a run plays them and no others, with this result. -/
def Plays (run : DiceScript → α × DiceScript) (faces : List UInt32) (a : α) : Prop :=
  ∀ rest fallback, run ⟨faces ++ rest, fallback⟩ = (a, ⟨rest, fallback⟩)

/-- There is a script that a run plays to its end. -/
def Playable (run : DiceScript → α × DiceScript) : Prop :=
  ∃ faces a, Plays run faces a

theorem Plays.pure (a : α) : Plays (fun s => (a, s)) [] a :=
  fun _ _ => rfl

theorem Plays.bind {run : DiceScript → α × DiceScript} {faces more : List UInt32} {a : α}
    {k : α → DiceScript → β × DiceScript} {b : β} (h : Plays run faces a)
    (hk : Plays (k a) more b) : Plays (fun s => k (run s).1 (run s).2) (faces ++ more) b := by
  intro rest fallback
  rw [List.append_assoc]
  simp only [h (more ++ rest) fallback]
  exact hk rest fallback

theorem Plays.map {run : DiceScript → α × DiceScript} {faces : List UInt32} {a : α}
    (h : Plays run faces a) (f : α → β) :
    Plays (fun s => (f (run s).1, (run s).2)) faces (f a) := by
  intro rest fallback
  simp only [h rest fallback]

theorem Playable.pure (a : α) : Playable fun s => (a, s) :=
  ⟨[], a, .pure a⟩

theorem Playable.bind {run : DiceScript → α × DiceScript} {whole : DiceScript → β × DiceScript}
    (h : Playable run) (k : α → DiceScript → β × DiceScript) (hk : ∀ a, Playable (k a))
    (hwhole : ∀ s, whole s = k (run s).1 (run s).2) : Playable whole := by
  obtain ⟨faces, a, hrun⟩ := h
  obtain ⟨more, b, hnext⟩ := hk a
  rw [funext hwhole]
  exact ⟨faces ++ more, b, hrun.bind hnext⟩

theorem Playable.map {run : DiceScript → α × DiceScript} (h : Playable run) (f : α → β) :
    Playable fun s => (f (run s).1, (run s).2) :=
  h.bind (fun a s => (f a, s)) (fun a => .pure (f a)) fun _ => rfl

end Scripts

/-! ## The worst faces -/

theorem clampFace_eq_self {faces face : UInt32} (low : 1 ≤ face) (high : face ≤ faces) :
    clampFace faces face = face := by
  rw [UInt32.le_iff_toNat_le] at low high
  have hone : (1 : UInt32).toNat = 1 := rfl
  unfold clampFace
  rw [← UInt32.toNat_inj, toNat_max, toNat_min, toNat_max]
  omega

theorem plays_rollDice {faces face : UInt32} (low : 1 ≤ face) (high : face ≤ faces)
    (count : Nat) :
    Plays (rollDice faces count) (List.replicate count face) (List.replicate count face) := by
  induction count with
  | zero => exact .pure []
  | succ count ih =>
      have hroll : Plays (DiceSource.roll faces) [face] face := by
        intro rest fallback
        show (clampFace faces face, _) = _
        rw [clampFace_eq_self low high]
        rfl
      have hstep : rollDice faces (count + 1) = fun s : DiceScript =>
          ((DiceSource.roll faces s).1 :: (rollDice faces count (DiceSource.roll faces s).2).1,
            (rollDice faces count (DiceSource.roll faces s).2).2) :=
        funext (rollDice_succ faces count)
      rw [hstep, List.replicate_succ]
      exact hroll.bind (k := fun face s =>
        (face :: (rollDice faces count s).1, (rollDice faces count s).2)) (ih.map (face :: ·))

theorem faceSum_replicate (count : Nat) (face : UInt32) :
    faceSum (List.replicate count face) = count * face.toNat := by
  simp [faceSum]

theorem plays_rollTerm_worst {t : SignedTerm}
    (hfaces : ∀ count faces, t.term = .dice count faces → 1 ≤ faces) :
    Plays (rollTerm t.term) t.worstFaces (t.worst, t.worstFaces) := by
  obtain ⟨negative, term⟩ := t
  cases term with
  | dice count faces =>
      have hface := hfaces count faces rfl
      have hplays : Plays (rollDice faces count.toNat)
          (SignedTerm.worstFaces ⟨negative, .dice count faces⟩)
          (SignedTerm.worstFaces ⟨negative, .dice count faces⟩) := by
        cases negative with
        | true => exact plays_rollDice hface (UInt32.le_refl _) _
        | false => exact plays_rollDice (UInt32.le_refl _) hface _
      have hworst : addFaces 0 (SignedTerm.worstFaces ⟨negative, .dice count faces⟩) =
          SignedTerm.worst ⟨negative, .dice count faces⟩ := by
        have hsum := faceSum_replicate count.toNat
          (SignedTerm.worstFace ⟨negative, .dice count faces⟩ faces)
        have hnonneg := faceSum_nonneg
          (SignedTerm.worstFaces ⟨negative, .dice count faces⟩)
        simp only [SignedTerm.worstFaces, SignedTerm.worst] at hnonneg ⊢
        rw [← Int64.toInt_inj, toInt_addFaces_eq, toInt_clamp64_eq, ← hsum, Int64.toInt_zero]
        omega
      rw [← hworst]
      exact hplays.map fun shown => (addFaces 0 shown, shown)
  | constant n => exact .pure (n, [])
  | reference key => exact .pure (0, [])

theorem plays_rollTerms_least {ts : List SignedTerm} (hts : Faced ts) (total : Int64) :
    Plays (rollTerms ts total) (ts.flatMap SignedTerm.worstFaces)
      (leastFrom ts total, ts.flatMap SignedTerm.worstFaces) := by
  induction ts generalizing total with
  | nil => exact .pure (total, [])
  | cons t ts ih =>
      obtain ⟨ht, hrest⟩ := List.forall_mem_cons.mp hts
      intro rest fallback
      rw [List.flatMap_cons, List.append_assoc, rollTerms_cons, plays_rollTerm_worst ht,
        ih hrest]
      rfl

/-- Some dice fall so that a plain roll comes to its least total. -/
theorem Formula.Proper.exists_plays_least {f : Formula} (hf : f.Proper) :
    ∃ faces roll, Plays f.rollPlain faces roll ∧ roll.total = f.least := by
  have hplays := plays_rollTerms_least hf.one_le_faces 0
  exact ⟨_, _, hplays.map fun out => Roll.mk f.text out.1 out.2 none false false, rfl⟩

/-! ## Runs of activations -/

theorem playable_roll (faces : UInt32) : Playable (DiceSource.roll faces) :=
  ⟨[1], clampFace faces 1, fun _ _ => rfl⟩

theorem playable_rollDice (faces : UInt32) (count : Nat) : Playable (rollDice faces count) := by
  induction count with
  | zero => exact .pure []
  | succ count ih =>
      exact (playable_roll faces).bind
        (fun face s => (face :: (rollDice faces count s).1, (rollDice faces count s).2))
        (fun face => ih.map (face :: ·)) (rollDice_succ faces count)

theorem playable_explode (faces : UInt32) (limit : Nat) : Playable (explode faces limit) := by
  induction limit with
  | zero => exact .pure []
  | succ limit ih =>
      refine (playable_roll faces).bind (fun face s => if face < faces then ([face], s) else
        (face :: (explode faces limit s).1, (explode faces limit s).2)) (fun face => ?_)
        fun s => by rw [explode]
      by_cases hlow : face < faces
      · simp only [hlow, if_true]
        exact .pure [face]
      · simp only [hlow, if_false]
        exact ih.map (face :: ·)

theorem playable_rollTerm (t : Term) : Playable (rollTerm t) := by
  cases t with
  | dice count faces =>
      exact (playable_rollDice faces count.toNat).map fun shown => (addFaces 0 shown, shown)
  | constant n => exact .pure (n, [])
  | reference key => exact .pure (0, [])

theorem playable_rollTerms (ts : List SignedTerm) (total : Int64) :
    Playable (rollTerms ts total) := by
  induction ts generalizing total with
  | nil => exact .pure (total, [])
  | cons t ts ih =>
      exact (playable_rollTerm t.term).bind (fun value s =>
          (((rollTerms ts (t.apply total value.1) s).1.1,
            value.2 ++ (rollTerms ts (t.apply total value.1) s).1.2),
            (rollTerms ts (t.apply total value.1) s).2))
        (fun value => (ih (t.apply total value.1)).map fun rest => (rest.1, value.2 ++ rest.2))
        (rollTerms_cons t ts total)

theorem playable_rollPlain (f : Formula) : Playable f.rollPlain :=
  (playable_rollTerms f.terms 0).map fun out => Roll.mk f.text out.1 out.2 none false false

theorem playable_rollNatural (config : PrimaryConfig) (faces : UInt32) :
    Playable (rollNatural config faces) := by
  cases hpinned : config.pinned with
  | some face =>
      have hnatural : rollNatural config faces = fun s : DiceScript =>
          ((max 1 (min face faces), []), s) := by
        funext s
        rw [rollNatural, hpinned]
      rw [hnatural]
      exact .pure _
  | none =>
      refine (playable_rollDice faces
        (1 + min config.rollMode.toInt.natAbs maxExtraCandidates)).bind
        (fun candidates s => (keep (config.rollMode < 0) candidates, s)) (fun _ => .pure _)
        fun s => ?_
      rw [rollNatural, hpinned]

theorem playable_rollPrimary (config : PrimaryConfig) (faces : UInt32) :
    Playable (rollPrimary config faces) := by
  have hexplosions : ∀ critical : Bool, Playable fun s =>
      if critical then explode faces maxExplosions s else ([], s) := by
    intro critical
    cases critical with
    | true => exact playable_explode faces maxExplosions
    | false => exact .pure []
  -- the natural face settles whether there are explosions
  refine (playable_rollNatural config faces).bind (fun natural s =>
    let isMiss := config.canMiss && natural.1 = 1
    let modified := addClamped (faceValue natural.1) config.modifier
    let isCritical := config.canCrit && !isMiss && faceValue faces ≤ modified
    let explosions := if isCritical then explode faces maxExplosions s else ([], s)
    (PrimaryRoll.mk ⟨faces, natural.1, natural.2, explosions.1⟩
      (addFaces (min modified (faceValue faces)) explosions.1) isCritical isMiss, explosions.2))
    (fun natural => ?_) fun s => rfl
  exact (hexplosions _).map fun explosions =>
    PrimaryRoll.mk ⟨faces, natural.1, natural.2, explosions⟩ (addFaces _ explosions) _ _

theorem playable_rollDamageTerms (config : PrimaryConfig) (ts : List SignedTerm) (total : Int64) :
    Playable (rollDamageTerms config ts total) := by
  induction ts generalizing total with
  | nil => exact .pure (total, [], none)
  | cons t ts ih =>
      cases hprimary : Formula.isPrimary t with
      | true =>
          obtain ⟨negative, count, faces, rfl⟩ := eq_dice_of_isPrimary hprimary
          have hothers : ∀ primary : PrimaryRoll, Playable fun s =>
              let others := rollDice faces (count.toNat - 1) s
              let rest := rollTerms ts (SignedTerm.apply ⟨negative, .dice count faces⟩ total
                (addFaces primary.contribution others.1)) others.2
              ((rest.1.1, primary.die.natural ::
                (primary.die.explosions ++ others.1 ++ rest.1.2), some primary), rest.2) := by
            intro primary
            exact (playable_rollDice faces (count.toNat - 1)).bind _
              (fun others => (playable_rollTerms ts (SignedTerm.apply
                ⟨negative, .dice count faces⟩ total (addFaces primary.contribution others))).map
                  fun rest => (rest.1, primary.die.natural ::
                    (primary.die.explosions ++ others ++ rest.2), some primary)) fun s => rfl
          exact (playable_rollPrimary config faces).bind _ hothers
            (rollDamageTerms_primary hprimary config ts total)
      | false =>
          exact (playable_rollTerm t.term).bind _
            (fun value => (ih (t.apply total value.1)).map fun rest =>
              (rest.1, value.2 ++ rest.2.1, rest.2.2))
            (rollDamageTerms_plain hprimary config ts total)

theorem playable_rollDamage (f : Formula) (config : PrimaryConfig) :
    Playable (f.rollDamage config) :=
  (playable_rollDamageTerms config f.terms 0).map fun out =>
    let isMiss := out.2.2.any PrimaryRoll.isMiss
    Roll.mk f.text (if isMiss then 0 else max out.1 0) out.2.1 (out.2.2.map PrimaryRoll.die)
      (out.2.2.any PrimaryRoll.isCritical) isMiss

namespace Activation

/-- Whatever is rolled for, there is a script that is played to its end. -/
theorem playable_rollRecords (actor : Actor) (options : ActivationOptions) (primary : Bool)
    (rs : List Record) : Playable (rollRecords actor options primary rs) := by
  induction rs generalizing primary with
  | nil => exact .pure (Except.ok [])
  | cons r rest ih =>
      -- one roll, and those for the rest with the dice it leaves
      have hrolled : ∀ {run : DiceScript → Roll × DiceScript} (primary : Bool)
          (made : Roll → ResolvedRoll), Playable run → Playable fun s =>
            ((rollRecords actor options primary rest (run s).2).1.map (made (run s).1 :: ·),
              (rollRecords actor options primary rest (run s).2).2) := by
        intro run primary made hrun
        exact hrun.bind _ (fun roll => (ih primary).map fun rolls =>
          rolls.map (made roll :: ·)) fun _ => rfl
      obtain ⟨id, parent, outcome, effect⟩ := r
      show Playable fun s =>
        rollRecords actor options primary (⟨id, parent, outcome, effect⟩ :: rest) s
      cases effect with
      | damage d =>
          cases hformula : formulaFor actor id d.formula with
          | error e =>
              simp only [rollRecords, hformula]
              exact .pure (Except.error e)
          | ok f =>
              simp only [rollRecords, hformula]
              cases primary with
              | true =>
                  exact hrolled false (fun roll => ⟨id, .primaryDamage, roll, some _⟩)
                    (playable_rollDamage f (primaryConfig d actor options))
              | false =>
                  exact hrolled false (fun roll => ⟨id, .damage, roll, none⟩) (playable_rollPlain f)
      | healing h =>
          cases hformula : formulaFor actor id h.formula with
          | error e =>
              simp only [rollRecords, hformula]
              exact .pure (Except.error e)
          | ok f =>
              simp only [rollRecords, hformula]
              exact hrolled primary (fun roll => ⟨id, .healing, roll, none⟩) (playable_rollPlain f)
      | _ => exact ih primary

end Activation

/-! ## Later damage -/

/-- All damage but the first, in the order of the walk. -/
def Tree.laterDamage (t : Tree) : List Record :=
  (t.rolled.filter fun r => r.effect.isDamage).tail

/-- The least total of a plain roll for the record's effect, if its formula can be read. -/
def Record.least? (actor : Actor) (r : Record) : Option Int64 :=
  match r.effect.formula?.map Formula.read with
  | some (.ok f) => some (f.resolve actor.rollData).least
  | _ => none

/-- No least total of later damage is below zero. -/
def Tree.Floored (t : Tree) (actor : Actor) : Prop :=
  ∀ r ∈ t.laterDamage, ∀ least ∈ r.least? actor, 0 ≤ least.toInt

instance (t : Tree) (actor : Actor) : Decidable (t.Floored actor) :=
  decidable_of_iff ((t.laterDamage.all fun r =>
    (r.least? actor).all fun least => decide (0 ≤ least.toInt)) = true)
    (by simp [Tree.Floored, Option.all_eq_true])

theorem Record.least?_damage {actor : Actor} {r : Record} {d : Damage} {f : Formula}
    (heffect : r.effect = .damage d) (hread : Formula.read d.formula = .ok f) :
    r.least? actor = some (f.resolve actor.rollData).least := by
  rw [least?, heffect]
  show (match some (Formula.read d.formula) with
    | some (.ok f) => some (f.resolve actor.rollData).least
    | _ => none) = _
  rw [hread]

theorem mem_tail_filter_iff {α : Type u} {p : α → Bool} {xs : List α} {x : α} :
    x ∈ (xs.filter p).tail ↔
      ∃ front rest, xs = front ++ x :: rest ∧ p x = true ∧ ∃ y ∈ front, p y = true := by
  induction xs with
  | nil => simp
  | cons z xs ih =>
      cases hz : p z with
      | true =>
          rw [List.filter_cons_of_pos hz, List.tail_cons, List.mem_filter]
          constructor
          · rintro ⟨hx, hp⟩
            obtain ⟨front, rest, rfl⟩ := List.append_of_mem hx
            exact ⟨z :: front, rest, rfl, hp, z, List.mem_cons_self, hz⟩
          · rintro ⟨front, rest, hsplit, hp, y, hy, -⟩
            cases front with
            | nil => cases hy
            | cons w front =>
                cases hsplit
                exact ⟨by simp, hp⟩
      | false =>
          rw [List.filter_cons_of_neg (by simp [hz]), ih]
          constructor
          · rintro ⟨front, rest, rfl, hp, y, hy, hpy⟩
            exact ⟨z :: front, rest, rfl, hp, y, List.mem_cons_of_mem z hy, hpy⟩
          · rintro ⟨front, rest, hsplit, hp, y, hy, hpy⟩
            cases front with
            | nil => cases hy
            | cons w front =>
                cases hsplit
                rcases List.mem_cons.mp hy with rfl | hy
                · rw [hz] at hpy
                  cases hpy
                · exact ⟨front, rest, rfl, hp, y, hy, hpy⟩

namespace Activation

/-- No roll that was made for damage is below zero, and neither is a note that one left. -/
structure NeverHeals (a : Activation) : Prop where
  rolls : ∀ x ∈ a.rolls, x.kind ≠ .healing → 0 ≤ x.roll.total.toInt
  notes : ∀ n ∈ a.tree.labels, n.effect.isDamage = true → n.id ∈ a.rolls.map ResolvedRoll.id →
    ∀ note ∈ n.effect.rollNote?, 0 ≤ note.total.toInt

section Rolls

variable {σ : Type u} [DiceSource σ] {actor : Actor} {options : ActivationOptions}
  {opening : Prop} {r : Record} {s s' : σ} {x : ResolvedRoll}

theorem RolledFor.isDamage (h : RolledFor actor options opening r s x s')
    (hkind : x.kind ≠ .healing) : r.effect.isDamage = true := by
  cases h with
  | primary heffect => rw [heffect]; rfl
  | later heffect => rw [heffect]; rfl
  | healing => exact absurd rfl hkind

theorem RolledFor.total_primary (h : RolledFor actor options opening r s x s')
    (hkind : x.kind = .primaryDamage) : 0 ≤ x.roll.total.toInt := by
  cases h with
  | @primary d f roll _ heffect hread hopening hroll =>
      obtain rfl : ((f.resolve actor.rollData).rollDamage (primaryConfig d actor options) s).1 =
        roll := congrArg Prod.fst hroll
      exact (total_rollDamage _ _ _).2
  | later => cases hkind
  | healing => cases hkind

/-- A roll for damage is not below zero if it is the primary roll or its least total is not. -/
theorem RolledFor.total_nonneg [LawfulDice σ] (h : RolledFor actor options opening r s x s')
    (hdamage : r.effect.isDamage = true)
    (hleast : ¬ opening → ∀ least ∈ r.least? actor, 0 ≤ least.toInt) :
    0 ≤ x.roll.total.toInt := by
  cases h with
  | primary heffect hread hopening hroll =>
      exact (RolledFor.primary heffect hread hopening hroll).total_primary rfl
  | @later d f roll _ heffect hread hlater hroll =>
      obtain rfl : ((f.resolve actor.rollData).rollPlain s).1 = roll := congrArg Prod.fst hroll
      have hproper : (f.resolve actor.rollData).Proper := .resolve _ (.read hread)
      exact Int.le_trans (hleast hlater _ (Record.least?_damage heffect hread))
        (hproper.least_le s)
  | healing heffect =>
      rw [heffect] at hdamage
      cases hdamage

end Rolls

theorem isDamage_noted (rolls : List ResolvedRoll) (n : Node) :
    (noted rolls n).effect.isDamage = n.effect.isDamage := by
  unfold noted
  split
  · cases n.effect <;> rfl
  · rfl

end Activation

open Spellwork.Tree Activation

section Runs

variable {t : Tree} {actor : Actor} {subject : Subject} {options : ActivationOptions}

/-- Where the least total of all later damage is not below zero, no roll and no note for damage
is. -/
theorem Tree.Valid.neverHeals_of_floored {σ : Type u} [DiceSource σ] [LawfulDice σ] (h : Valid t)
    (hfloored : subject ≠ .grantOnly → t.Floored actor) {s s' : σ} {a : Activation}
    (hrun : activate t actor subject options s = (.ok a, s')) : a.NeverHeals := by
  by_cases hsubject : subject = .grantOnly
  · subst hsubject
    cases hrun
    exact ⟨fun x hx => (List.not_mem_nil hx).elim, fun n _ _ hn => (List.not_mem_nil hn).elim⟩
  obtain ⟨rolls, hrolls, -, -, hall, rfl⟩ := h.exists_rolls_of_activate hsubject hrun
  have hfor : ∀ x ∈ rolls, ∃ r ∈ t.records, x.id = r.id ∧
      (x.kind ≠ .healing → r.effect.isDamage = true) ∧
      (r.effect.isDamage = true → 0 ≤ x.roll.total.toInt) := by
    intro x hx
    obtain ⟨i, r, s₁, s₂, hr, hroll⟩ := hrolls.exists_rolledFor hx
    obtain ⟨hi, hget⟩ := List.getElem?_eq_some_iff.mp hr
    have hmem : r ∈ t.rolled := List.mem_of_getElem? hr
    rw [h.rolled_eq] at hmem
    refine ⟨r, (List.mem_filter.mp hmem).1, hroll.id_eq, hroll.isDamage, fun hdamage =>
      hroll.total_nonneg hdamage fun hlater => hfloored hsubject r (mem_tail_filter_iff.mpr ?_)⟩
    have hsplit : t.rolled = t.rolled.take i ++ r :: t.rolled.drop (i + 1) := by
      rw [← hget, ← List.drop_eq_getElem_cons hi, List.take_append_drop]
    refine ⟨t.rolled.take i, t.rolled.drop (i + 1), hsplit, hdamage, ?_⟩
    refine Classical.byContradiction fun hnone => hlater ⟨rfl, fun q hq => ?_⟩
    exact Bool.eq_false_iff.mpr fun hq' => hnone ⟨q, hq, hq'⟩
  refine ⟨fun x hx hkind => ?_, fun n hn hdamage _ note hnote => ?_⟩
  · obtain ⟨r, -, -, hisDamage, htotal⟩ := hfor x hx
    exact htotal (hisDamage hkind)
  · obtain ⟨m, hm, rfl⟩ := List.mem_map.mp (Forest.labels_map _ t ▸ hn)
    rw [isDamage_noted] at hdamage
    obtain ⟨x, hx, hid, rfl⟩ := exists_of_rollNote?_noted (hall m hm) hnote
    obtain ⟨r, hr, hxr, -, htotal⟩ := hfor x hx
    -- the record that was rolled for is that of the node
    obtain ⟨q, hq⟩ := exists_record_of_label hm
    obtain rfl : m.record q = r := Record.eq_of_id h.record_ids_nodup hq hr (hid.symm.trans hxr)
    exact htotal hdamage

/-- Some dice fall so that a later roll for damage comes to its least total. -/
theorem Activation.exists_worst_dice (options : ActivationOptions) {r : Record} {least : Int64}
    (hdamage : r.effect.isDamage = true) (hleast : least ∈ r.least? actor) {opening : Prop}
    (hlater : ¬ opening) :
    ∃ s : DiceScript, ∀ x s', RolledFor actor options opening r s x s' →
      x.kind = .damage ∧ x.roll.total = least := by
  cases heffect : r.effect with
  | damage d =>
      cases hread : Formula.read d.formula with
      | error e =>
          rw [Record.least?, heffect] at hleast
          simp [Effect.formula?, hread] at hleast
      | ok f =>
          rw [Record.least?_damage heffect hread, Option.mem_some_iff] at hleast
          subst hleast
          have hproper : (f.resolve actor.rollData).Proper := .resolve _ (.read hread)
          obtain ⟨worst, roll, hplays, htotal⟩ := hproper.exists_plays_least
          refine ⟨⟨worst ++ [], 1⟩, fun x s' hx => ?_⟩
          cases hx with
          | primary _ _ hopening => exact absurd hopening hlater
          | later heffect' hread' _ hroll =>
              cases heffect.symm.trans heffect'
              cases hread.symm.trans hread'
              obtain rfl : roll = _ := congrArg Prod.fst ((hplays [] 1).symm.trans hroll)
              exact ⟨rfl, htotal⟩
          | healing heffect' => cases heffect.symm.trans heffect'
  | _ =>
      rw [heffect] at hdamage
      cases hdamage

/-- The least total of later damage is rolled on some dice: those that bring the roll about and then
fall as badly as they can. -/
theorem Tree.Valid.exists_least_roll (h : Valid t) (options : ActivationOptions)
    (hsubject : subject ≠ .grantOnly) (hread : ∀ r ∈ t.rolled, Readable r) {r : Record}
    (hr : r ∈ t.laterDamage) {least : Int64} (hleast : least ∈ r.least? actor) :
    ∃ (s : DiceScript) (a : Activation) (s' : DiceScript),
      activate t actor subject options s = (.ok a, s') ∧
      ∃ x ∈ a.rolls, x.id = r.id ∧ x.kind = .damage ∧ x.roll.total = least := by
  obtain ⟨front, rest, hsplit, hdamage, q, hq, hqdamage⟩ := mem_tail_filter_iff.mp hr
  have hreadFront : ∀ q ∈ front, Readable q := fun q hq => hread q (by simp [hsplit, hq])
  have hreadRest : ∀ q ∈ rest, Readable q := fun q hq => hread q (by simp [hsplit, hq])
  have hlater : (true && front.all fun r => !r.effect.isDamage) = false := by
    rw [Bool.true_and, List.all_eq_false]
    exact ⟨q, hq, by simp [hqdamage]⟩
  obtain ⟨⟨worst, fallback⟩, hworst⟩ :=
    exists_worst_dice options hdamage hleast Bool.false_ne_true
  obtain ⟨faces, out, hplays⟩ := playable_rollRecords actor options true front
  obtain ⟨rolls, s₁, -, hrun⟩ :=
    rollRecords_append actor options hreadFront true (DiceScript.mk (faces ++ worst) fallback)
  -- the rolls before leave the faces that stand behind theirs
  obtain rfl : s₁ = ⟨worst, fallback⟩ := by
    have hfront := hrun []
    rw [List.append_nil, hplays worst fallback] at hfront
    exact (congrArg Prod.snd hfront).symm
  obtain ⟨x, s₂, hx, hstep⟩ := rollRecords_cons actor options
    (hread r (by simp [hsplit])) false (DiceScript.mk worst fallback)
  obtain ⟨later, s', -, hend⟩ := rollRecords_of_readable actor options hreadRest false s₂
  obtain ⟨hkind, htotal⟩ := hworst x s₂ hx
  refine ⟨⟨faces ++ worst, fallback⟩, ⟨rolls ++ x :: later, annotate t (rolls ++ x :: later),
    options.fastForward⟩, s', ?_, x, ?_, hx.id_eq, hkind, htotal⟩
  · rw [h.activate_of_hasRolls actor hsubject, hsplit, hrun, hlater, hstep, Bool.false_and, hend]
    rfl
  · simp

/-- The primary roll is never below zero. The other rolls for damage and what they leave on the tree
are not either, on any dice, if the least total of all later damage is not, and else some dice make
one of them negative. -/
theorem Tree.Valid.damage_nonneg_iff {σ : Type u} [DiceSource σ] [LawfulDice σ] (h : Valid t)
    (actor : Actor) (subject : Subject) (options : ActivationOptions) :
    (∀ (s : σ) a s', activate t actor subject options s = (.ok a, s') →
      ∀ x ∈ a.rolls, x.kind = .primaryDamage → 0 ≤ x.roll.total.toInt) ∧
    ((subject ≠ .grantOnly → (∀ r ∈ t.rolled, Readable r) → t.Floored actor) →
      ∀ (s : σ) a s', activate t actor subject options s = (.ok a, s') → a.NeverHeals) ∧
    ((∀ (s : DiceScript) a s', activate t actor subject options s = (.ok a, s') → a.NeverHeals) ↔
      (subject ≠ .grantOnly → (∀ r ∈ t.rolled, Readable r) → t.Floored actor)) := by
  refine ⟨fun s a s' hrun x hx hkind => ?_, fun hfloored s a s' hrun => ?_, fun hnever => ?_,
    fun hfloored s a s' hrun => ?_⟩
  · by_cases hsubject : subject = .grantOnly
    · subst hsubject
      cases hrun
      cases hx
    · obtain ⟨rolls, hrolls, -, -, -, rfl⟩ := h.exists_rolls_of_activate hsubject hrun
      obtain ⟨i, r, s₁, s₂, -, hroll⟩ := hrolls.exists_rolledFor hx
      exact hroll.total_primary hkind
  · exact h.neverHeals_of_floored (fun hsubject => hfloored hsubject
      ((h.exists_activate_iff actor hsubject options s).mp ⟨a, s', hrun⟩)) hrun
  · intro hsubject hread r hr least hleast
    obtain ⟨s, a, s', hrun, x, hx, -, hkind, htotal⟩ :=
      h.exists_least_roll options hsubject hread hr hleast
    rw [← htotal]
    exact (hnever s a s' hrun).rolls x hx (by rw [hkind]; exact RollKind.noConfusion)
  · exact h.neverHeals_of_floored (fun hsubject => hfloored hsubject
      ((h.exists_activate_iff actor hsubject options s).mp ⟨a, s', hrun⟩)) hrun

end Runs

theorem Tree.damage_nonneg_healingFirst :
    Valid healingFirst ∧ healingFirst.Floored {} ∧
      (∃ a s', activate healingFirst {} .spell {} (DiceScript.mk [4, 6, 6, 2] 2) = (.ok a, s')) ∧
      ∀ (s : DiceScript) a s', activate healingFirst {} .spell {} s = (.ok a, s') →
        a.NeverHeals := by
  have hvalid := built_healingFirst.reachable.valid
  have hsubject : Subject.spell ≠ .grantOnly := by decide
  have hfloored : healingFirst.Floored {} := by decide +kernel
  exact ⟨hvalid, hfloored, (hvalid.exists_activate_iff {} hsubject {} _).mpr readable_healingFirst,
    (hvalid.damage_nonneg_iff (σ := DiceScript) {} .spell {}).2.1 fun _ _ => hfloored⟩

/-- Fire, and cold from which more is taken away than its die can show. -/
def Tree.coldSnap : Tree :=
  .node ⟨"fire", none, .damage ⟨.fire, "1d6", none, none, none⟩⟩ .nil
    (.leaf ⟨"cold", none, .damage ⟨.cold, "1d4-10", none, none, none⟩⟩)

theorem Tree.valid_coldSnap : Valid coldSnap := by
  have hfire : Built (attach none "fire" (.damage ⟨.fire, "1d6", none, none, none⟩) .nil).2 :=
    .step .empty (.attach _ _ _ _)
  exact (Built.step hfire (.attach _ none "cold"
    (.damage ⟨.cold, "1d4-10", none, none, none⟩))).reachable.valid

/-- Later damage can be rolled below zero. -/
theorem Tree.not_forall_neverHeals :
    ¬ ∀ (t : Tree) (actor : Actor) (subject : Subject) (options : ActivationOptions)
      (s : DiceScript) (a : Activation) (s' : DiceScript), Valid t →
        activate t actor subject options s = (.ok a, s') → a.NeverHeals := by
  intro hnever
  have hrolls : (activate coldSnap {} .spell {} (DiceScript.mk [4, 2] 2)).1.map (fun a =>
      a.rolls.map fun x => (x.id, x.kind, x.roll.total)) =
      .ok [("fire", .primaryDamage, 4), ("cold", .damage, -8)] := by
    decide +kernel
  cases hrun : activate coldSnap {} .spell {} (DiceScript.mk [4, 2] 2) with
  | mk result s' =>
      rw [hrun] at hrolls
      cases result with
      | error e => cases hrolls
      | ok a =>
          have hmade : a.rolls.map (fun x => (x.id, x.kind, x.roll.total)) =
              [("fire", .primaryDamage, 4), ("cold", .damage, -8)] := Except.ok.inj hrolls
          have hmem : ("cold", RollKind.damage, (-8 : Int64)) ∈
              a.rolls.map fun x => (x.id, x.kind, x.roll.total) := by
            simp [hmade]
          obtain ⟨x, hx, heq⟩ := List.mem_map.mp hmem
          simp only [Prod.mk.injEq] at heq
          have hnonneg := (hnever _ _ _ _ _ a s' valid_coldSnap hrun).rolls x hx (by simp [heq.2.1])
          rw [heq.2.2] at hnonneg
          exact absurd hnonneg (by decide)

end Spellwork
