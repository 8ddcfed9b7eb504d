import Spellwork.Text.Pattern

/-!
# What a pattern matches

`Pattern.Matches` says from which place to which a pattern leads, without regard to preference.
`mem_run_iff` says that `Pattern.run` lists exactly these ways, provided that every repeated body
takes at least one character (`Pattern.isProductive`). A body that may take nothing would have
endless ways to be repeated; no pattern needs one.
-/

namespace Spellwork.Text

namespace Pattern

/-- The pattern leads from one place to another. -/
inductive Matches : Pattern → Cursor → Cursor → Prop where
  | empty {c : Cursor} : Matches empty c c
  | one {accepts : Char → Bool} {c d : Cursor} (step : c.step? accepts = some d) :
      Matches (one accepts) c d
  | seq {first second : Pattern} {c d e : Cursor} (before : Matches first c d)
      (after : Matches second d e) : Matches (seq first second) c e
  | altFirst {first second : Pattern} {c d : Cursor} (h : Matches first c d) :
      Matches (alt first second) c d
  | altSecond {first second : Pattern} {c d : Cursor} (h : Matches second c d) :
      Matches (alt first second) c d
  | manyNone {greedy : Bool} {body : Pattern} {c : Cursor} : Matches (many greedy body) c c
  | manyMore {greedy : Bool} {body : Pattern} {c d e : Cursor} (round : Matches body c d)
      (more : Matches (many greedy body) d e) : Matches (many greedy body) c e
  | group {label : Nat} {body : Pattern} {c d : Cursor} (h : Matches body c d) :
      Matches (group label body) c
        { d with groups := (label, ⟨c.offset, d.offset⟩) :: d.groups }
  | textStart {c : Cursor} (h : c.offset = 0) : Matches textStart c c
  | lineEnd {c : Cursor} (h : c.atLineEnd = true) : Matches lineEnd c c
  | wordEdge {c : Cursor} (h : c.atWordEdge = true) : Matches wordEdge c c

/-! ## Taking characters -/

/-- Every match takes at least one character. -/
def takesSome : Pattern → Bool
  | one _ => true
  | seq first second => first.takesSome || second.takesSome
  | alt first second => first.takesSome && second.takesSome
  | group _ body => body.takesSome
  | _ => false

/-- Every repeated body takes at least one character. -/
def isProductive : Pattern → Bool
  | seq first second => first.isProductive && second.isProductive
  | alt first second => first.isProductive && second.isProductive
  | many _ body => body.takesSome && body.isProductive
  | group _ body => body.isProductive
  | _ => true

theorem length_rest_step? {accepts : Char → Bool} {c d : Cursor}
    (h : c.step? accepts = some d) : d.rest.length + 1 = c.rest.length := by
  unfold Cursor.step? at h
  split at h
  · exact absurd h (by simp)
  · rename_i x rest hrest
    split at h
    · rw [← Option.some.inj h, hrest]
      rfl
    · exact absurd h (by simp)

/-- A match never gives characters back. -/
theorem Matches.length_le {p : Pattern} {c d : Cursor} (h : Matches p c d) :
    d.rest.length ≤ c.rest.length := by
  induction h with
  | one step =>
    exact Nat.le_of_lt (Nat.lt_of_lt_of_eq (Nat.lt_succ_self _) (length_rest_step? step))
  | seq _ _ ih₁ ih₂ => exact Nat.le_trans ih₂ ih₁
  | altFirst _ ih => exact ih
  | altSecond _ ih => exact ih
  | manyMore _ _ ih₁ ih₂ => exact Nat.le_trans ih₂ ih₁
  | group _ ih => exact ih
  | empty => exact Nat.le_refl _
  | manyNone => exact Nat.le_refl _
  | textStart _ => exact Nat.le_refl _
  | lineEnd _ => exact Nat.le_refl _
  | wordEdge _ => exact Nat.le_refl _

theorem Matches.length_lt {p : Pattern} {c d : Cursor} (h : Matches p c d)
    (ht : p.takesSome = true) : d.rest.length < c.rest.length := by
  induction h with
  | one step => exact Nat.lt_of_lt_of_eq (Nat.lt_succ_self _) (length_rest_step? step)
  | seq before after ih₁ ih₂ =>
    rcases Bool.or_eq_true_iff.mp ht with ht | ht
    · exact Nat.lt_of_le_of_lt after.length_le (ih₁ ht)
    · exact Nat.lt_of_lt_of_le (ih₂ ht) before.length_le
  | altFirst _ ih => exact ih (Bool.and_eq_true_iff.mp ht).1
  | altSecond _ ih => exact ih (Bool.and_eq_true_iff.mp ht).2
  | group _ ih => exact ih ht
  | empty => exact absurd ht Bool.false_ne_true
  | manyNone => exact absurd ht Bool.false_ne_true
  | manyMore _ _ _ _ => exact absurd ht Bool.false_ne_true
  | textStart _ => exact absurd ht Bool.false_ne_true
  | lineEnd _ => exact absurd ht Bool.false_ne_true
  | wordEdge _ => exact absurd ht Bool.false_ne_true

/-! ## Rounds -/

theorem mem_foldr_rounds {next : Cursor → List Cursor → List Cursor} {ways : Cursor → List Cursor}
    (hnext : ∀ c others d, d ∈ next c others ↔ d ∈ ways c ∨ d ∈ others) (cs others : List Cursor)
    (d : Cursor) : d ∈ cs.foldr next others ↔ (∃ c ∈ cs, d ∈ ways c) ∨ d ∈ others := by
  induction cs with
  | nil => simp
  | cons c cs ih =>
    rw [List.foldr_cons, hnext, ih]
    simp only [List.mem_cons, exists_eq_or_imp, or_assoc]

/-- Some number of rounds, at most `fuel`. -/
theorem mem_rounds {greedy : Bool} {step : Cursor → List Cursor} {fuel : Nat} {c d : Cursor}
    {others : List Cursor} :
    d ∈ rounds greedy step fuel c others ↔ d ∈ rounds greedy step fuel c [] ∨ d ∈ others := by
  induction fuel generalizing c d others with
  | zero => simp [rounds]
  | succ fuel ih =>
    have hf := mem_foldr_rounds (fun c others d => @ih c d others)
    unfold rounds
    cases greedy with
    | true =>
      simp only [if_true, hf, List.mem_cons, List.not_mem_nil, or_false, or_assoc]
    | false =>
      simp only [Bool.false_eq_true, if_false, hf, List.mem_cons, List.not_mem_nil, or_false,
        or_assoc]

theorem mem_rounds_succ {greedy : Bool} {step : Cursor → List Cursor} {fuel : Nat} {c d : Cursor} :
    d ∈ rounds greedy step (fuel + 1) c [] ↔
      d = c ∨ ∃ e ∈ step c, d ∈ rounds greedy step fuel e [] := by
  have hf := mem_foldr_rounds (fun c others d => @mem_rounds greedy step fuel c d others)
  rw [rounds]
  cases greedy with
  | true =>
    simp only [if_true, hf, List.mem_cons, List.not_mem_nil, or_false]
    exact or_comm
  | false => simp only [Bool.false_eq_true, if_false, hf, List.mem_cons, List.not_mem_nil, or_false]

/-! ## Meaning of a run -/

/-- Whatever a run lists is a match. -/
theorem matches_of_mem_run {p : Pattern} {c d : Cursor} (h : d ∈ p.run c) : Matches p c d := by
  induction p generalizing c d with
  | empty =>
    rw [List.mem_singleton.mp h]
    exact .empty
  | one accepts => exact .one (Option.mem_toList.mp h)
  | seq first second ih₁ ih₂ =>
    obtain ⟨e, he, hd⟩ := List.mem_flatMap.mp h
    exact .seq (ih₁ he) (ih₂ hd)
  | alt first second ih₁ ih₂ =>
    rcases List.mem_append.mp h with h | h
    · exact .altFirst (ih₁ h)
    · exact .altSecond (ih₂ h)
  | many greedy body ih =>
    have go : ∀ fuel c, d ∈ rounds greedy body.run fuel c [] → Matches (many greedy body) c d := by
      intro fuel
      induction fuel with
      | zero =>
        intro c hd
        rw [List.mem_singleton.mp hd]
        exact .manyNone
      | succ fuel ihf =>
        intro c hd
        rcases mem_rounds_succ.mp hd with rfl | ⟨e, he, hd⟩
        · exact .manyNone
        · exact .manyMore (ih he) (ihf e hd)
    exact go c.rest.length c h
  | group label body ih =>
    obtain ⟨e, he, rfl⟩ := List.mem_map.mp h
    exact .group (ih he)
  | textStart =>
    unfold run at h
    split at h
    · rename_i h0
      rw [List.mem_singleton.mp h]
      exact .textStart h0
    · exact absurd h List.not_mem_nil
  | lineEnd =>
    unfold run at h
    split at h
    · rename_i h0
      rw [List.mem_singleton.mp h]
      exact .lineEnd h0
    · exact absurd h List.not_mem_nil
  | wordEdge =>
    unfold run at h
    split at h
    · rename_i h0
      rw [List.mem_singleton.mp h]
      exact .wordEdge h0
    · exact absurd h List.not_mem_nil

/-- A round takes a character, so there are no more rounds than characters. -/
theorem mem_rounds_of_matches {greedy : Bool} {body : Pattern} (ht : body.takesSome = true)
    (complete : ∀ c d, Matches body c d → d ∈ body.run c) {c d : Cursor}
    (h : Matches (many greedy body) c d) :
    ∀ fuel, c.rest.length ≤ fuel → d ∈ rounds greedy body.run fuel c [] := by
  generalize hp : many greedy body = p at h
  induction h with
  | manyNone =>
    intro fuel _
    cases fuel with
    | zero => exact List.mem_singleton.mpr rfl
    | succ fuel => exact mem_rounds_succ.mpr (Or.inl rfl)
  | manyMore round more _ ih =>
    obtain ⟨rfl, rfl⟩ := Pattern.many.inj hp
    intro fuel hfuel
    have hlt := round.length_lt ht
    cases fuel with
    | zero => exact absurd (Nat.lt_of_lt_of_le hlt hfuel) (Nat.not_lt_zero _)
    | succ fuel =>
      refine mem_rounds_succ.mpr (Or.inr ⟨_, complete _ _ round, ih rfl fuel ?_⟩)
      exact Nat.le_of_lt_succ (Nat.lt_of_lt_of_le hlt hfuel)
  | _ => cases hp

/-- A run lists every match. -/
theorem mem_run_of_matches {p : Pattern} (hp : p.isProductive = true) {c d : Cursor}
    (h : Matches p c d) : d ∈ p.run c := by
  induction p generalizing c d with
  | empty =>
    cases h
    exact List.mem_singleton.mpr rfl
  | one accepts =>
    cases h with
    | one step => exact Option.mem_toList.mpr step
  | seq first second ih₁ ih₂ =>
    obtain ⟨hp₁, hp₂⟩ := Bool.and_eq_true_iff.mp hp
    cases h with
    | seq before after => exact List.mem_flatMap.mpr ⟨_, ih₁ hp₁ before, ih₂ hp₂ after⟩
  | alt first second ih₁ ih₂ =>
    obtain ⟨hp₁, hp₂⟩ := Bool.and_eq_true_iff.mp hp
    cases h with
    | altFirst h => exact List.mem_append.mpr (Or.inl (ih₁ hp₁ h))
    | altSecond h => exact List.mem_append.mpr (Or.inr (ih₂ hp₂ h))
  | many greedy body ih =>
    obtain ⟨hp₁, hp₂⟩ := Bool.and_eq_true_iff.mp hp
    exact mem_rounds_of_matches hp₁ (fun _ _ h => ih hp₂ h) h _ (Nat.le_refl _)
  | group label body ih =>
    cases h with
    | group h => exact List.mem_map.mpr ⟨_, ih hp h, rfl⟩
  | textStart =>
    cases h with
    | textStart h0 =>
      unfold run
      rw [if_pos h0]
      exact List.mem_singleton.mpr rfl
  | lineEnd =>
    cases h with
    | lineEnd h0 =>
      unfold run
      rw [if_pos h0]
      exact List.mem_singleton.mpr rfl
  | wordEdge =>
    cases h with
    | wordEdge h0 =>
      unfold run
      rw [if_pos h0]
      exact List.mem_singleton.mpr rfl

/-- A run lists the matches and nothing else. -/
theorem mem_run_iff {p : Pattern} (hp : p.isProductive = true) {c d : Cursor} :
    d ∈ p.run c ↔ Matches p c d :=
  ⟨matches_of_mem_run, mem_run_of_matches hp⟩

end Pattern

end Spellwork.Text
