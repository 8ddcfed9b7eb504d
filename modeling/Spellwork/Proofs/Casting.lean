import Spellwork.Proofs.Scaling

/-!
# Castings from plan to result

Whether a casting is allowed is settled before its deltas are looked at, and the choice among lists
of deltas is passed on unseen. A casting therefore fails in one of two ways: the plan is refused,
for the first reason there is (`PlanError.First`), or the choice does not pick a list. Where neither
happens, what comes out is the ability scaled by the mana beyond its cost (`Upcast.of_cast_eq_ok`),
and as it was where there is none (`Upcast.cast_plain`).
-/

namespace Spellwork

namespace PlanError

/-- What has to be the case for a reason to be given, with the numbers that it names. -/
def Applies (p : Profile) (r : Resources) (spend : UInt32) : PlanError → Prop
  | cantrip => p.tier = 0
  | noScaling => p.scaling.mode = .none
  | belowBaseCost n cost => n = spend ∧ cost = p.tier ∧ spend < p.tier
  | aboveCeiling n ceiling => n = spend ∧ ceiling = r.highestTier ∧ r.highestTier < spend
  | insufficientMana n mana => n = spend ∧ mana = r.mana ∧ r.mana < spend

/-- The place of a reason in the order in which they count. -/
def rank : PlanError → Nat
  | cantrip => 0
  | noScaling => 1
  | belowBaseCost .. => 2
  | aboveCeiling .. => 3
  | insufficientMana .. => 4

/-- A reason applies, and none that comes before it does. -/
def First (p : Profile) (r : Resources) (spend : UInt32) (e : PlanError) : Prop :=
  Applies p r spend e ∧ ∀ e', Applies p r spend e' → rank e ≤ rank e'

theorem eq_of_rank_eq {p : Profile} {r : Resources} {spend : UInt32} {e e' : PlanError}
    (h : Applies p r spend e) (h' : Applies p r spend e') (hrank : rank e = rank e') : e = e' := by
  cases e <;> cases e' <;> simp_all [Applies, rank]

theorem First.unique {p : Profile} {r : Resources} {spend : UInt32} {e e' : PlanError}
    (h : First p r spend e) (h' : First p r spend e') : e = e' :=
  eq_of_rank_eq h.1 h'.1 (Nat.le_antisymm (h.2 e' h'.1) (h'.2 e h.1))

end PlanError

namespace Upcast

open PlanError

/-- The ability scales and costs something, and the mana to spend is enough for it and within the
caster's means. -/
structure Allowed (p : Profile) (r : Resources) (spend : UInt32) : Prop where
  tier : 1 ≤ p.tier
  mode : p.scaling.mode ≠ .none
  cost : p.tier ≤ spend
  means : spend ≤ min r.highestTier r.mana

/-- Where one list of several is to be chosen, the choice is the number of a list. -/
def Picks (scaling : Scaling) (choice : Option UInt64) : Prop :=
  scaling.mode = .upcastChoice → ∃ i, choice = some i ∧ i.toNat < scaling.options.length

/-- Where one list of several is to be chosen, there is no choice, or it is beyond the last list. -/
def Misses (scaling : Scaling) (choice : Option UInt64) (e : ScalingError) : Prop :=
  scaling.mode = .upcastChoice ∧
    (choice = none ∧ e = .missingChoice ∨
      ∃ i, choice = some i ∧ scaling.options.length ≤ i.toNat ∧
        e = .choiceOutOfRange i scaling.options.length)

/-- The label of the list that is chosen; a fixed list has none. -/
def Labels (scaling : Scaling) (choice : Option UInt64) (label : Option String) : Prop :=
  (scaling.mode = .upcast → label = none) ∧
    (scaling.mode = .upcastChoice → ∃ i picked, choice = some i ∧
      scaling.options[i.toNat]? = some picked ∧ label = some picked.label)

section Cast

variable {p : Profile} {r : Resources} {spend : UInt32} {choice : Option UInt64}

/-! ## The plan -/

theorem Allowed.not_applies (h : Allowed p r spend) (e : PlanError) : ¬ Applies p r spend e := by
  obtain ⟨htier, hmode, hcost, hmeans⟩ := h
  rw [UInt32.le_iff_toNat_le] at htier hcost hmeans
  rw [toNat_min] at hmeans
  have hone : (1 : UInt32).toNat = 1 := rfl
  intro happlies
  cases e with
  | cantrip =>
      have hzero : p.tier.toNat = 0 := congrArg UInt32.toNat happlies
      omega
  | noScaling => exact hmode happlies
  | belowBaseCost n cost =>
      have hless := UInt32.lt_iff_toNat_lt.mp happlies.2.2
      omega
  | aboveCeiling n ceiling =>
      have hless := UInt32.lt_iff_toNat_lt.mp happlies.2.2
      omega
  | insufficientMana n mana =>
      have hless := UInt32.lt_iff_toNat_lt.mp happlies.2.2
      omega

/-- A plan is refused for the first reason there is, and made where there is none. -/
theorem plan?_cases (p : Profile) (r : Resources) (spend : UInt32) (choice : Option UInt64) :
    (∃ e, First p r spend e ∧ plan? p r spend choice = .error e) ∨
      (Allowed p r spend ∧
        plan? p r spend choice = .ok ⟨spend - p.tier, p.tier, spend, choice⟩) := by
  have hcantrip : p.isCantrip = decide (p.tier = 0) := rfl
  unfold plan? Profile.baseCost
  rw [hcantrip]
  by_cases htier : p.tier = 0
  · refine .inl ⟨.cantrip, ⟨htier, fun _ _ => Nat.zero_le _⟩, ?_⟩
    simp [htier]
  by_cases hmode : p.scaling.mode = .none
  · refine .inl ⟨.noScaling, ⟨hmode, fun e he => ?_⟩, by simp [htier, hmode]⟩
    cases e <;> grind [Applies, rank]
  by_cases hcost : spend < p.tier
  · refine .inl ⟨.belowBaseCost spend p.tier, ⟨⟨rfl, rfl, hcost⟩, fun e he => ?_⟩, ?_⟩
    · cases e <;> grind [Applies, rank]
    · simp [htier, hmode, hcost]
  by_cases hceiling : r.highestTier < spend
  · refine .inl ⟨.aboveCeiling spend r.highestTier, ⟨⟨rfl, rfl, hceiling⟩, fun e he => ?_⟩, ?_⟩
    · cases e <;> grind [Applies, rank]
    · simp [htier, hmode, hcost, hceiling]
  by_cases hmana : r.mana < spend
  · refine .inl ⟨.insufficientMana spend r.mana, ⟨⟨rfl, rfl, hmana⟩, fun e he => ?_⟩, ?_⟩
    · cases e <;> grind [Applies, rank]
    · simp [htier, hmode, hcost, hceiling, hmana]
  refine .inr ⟨⟨?_, hmode, UInt32.not_lt.mp hcost, ?_⟩, ?_⟩
  · grind
  · rw [UInt32.le_iff_toNat_le, toNat_min, Nat.le_min]
    exact ⟨UInt32.not_lt.mp hceiling, UInt32.not_lt.mp hmana⟩
  · simp [htier, hmode, hcost, hceiling, hmana]

theorem plan?_eq_error_iff {e : PlanError} :
    plan? p r spend choice = .error e ↔ First p r spend e := by
  rcases plan?_cases p r spend choice with ⟨e', hfirst, hplan⟩ | ⟨hallowed, hplan⟩
  · rw [hplan, Except.error.injEq]
    constructor
    · rintro rfl
      exact hfirst
    · exact hfirst.unique
  · rw [hplan]
    refine iff_of_false (fun h => by cases h) fun h => hallowed.not_applies e h.1

theorem plan?_eq_ok_iff {plan : UpcastPlan} :
    plan? p r spend choice = .ok plan ↔
      Allowed p r spend ∧ plan = ⟨spend - p.tier, p.tier, spend, choice⟩ := by
  rcases plan?_cases p r spend choice with ⟨e, hfirst, hplan⟩ | ⟨hallowed, hplan⟩
  · rw [hplan]
    refine iff_of_false (fun h => by cases h) fun h => h.1.not_applies e hfirst.1
  · rw [hplan, Except.ok.injEq, eq_comm]
    exact (and_iff_right hallowed).symm

/-! ## The choice -/

theorem Misses.not_picks {scaling : Scaling} {e : ScalingError} (h : Misses scaling choice e) :
    ¬ Picks scaling choice := by
  intro hpicks
  obtain ⟨i, hi, hless⟩ := hpicks h.1
  rcases h.2 with ⟨hnone, -⟩ | ⟨j, hj, hge, -⟩
  · cases hi.symm.trans hnone
  · obtain rfl : i = j := Option.some.inj (hi.symm.trans hj)
    omega

theorem Misses.not_rejected {scaling : Scaling} {e : PlanError} :
    ¬ Misses scaling choice (.rejected e) := by
  rintro ⟨-, ⟨-, hmissing⟩ | ⟨i, -, -, hrange⟩⟩
  · cases hmissing
  · cases hrange

theorem select_cases (scaling : Scaling) (choice : Option UInt64) :
    (∃ ds label, select scaling choice = .ok (ds, label) ∧ Picks scaling choice ∧
      Labels scaling choice label) ∨
    ∃ e, select scaling choice = .error e ∧ Misses scaling choice e ∧
      ∀ e', Misses scaling choice e' → e' = e := by
  unfold select
  cases hmode : scaling.mode with
  | none => exact .inl ⟨[], none, rfl, by simp [Picks, hmode], by simp [Labels, hmode]⟩
  | upcast =>
      exact .inl ⟨scaling.deltas, none, rfl, by simp [Picks, hmode], by simp [Labels, hmode]⟩
  | upcastChoice =>
      cases choice with
      | none => exact .inr ⟨.missingChoice, rfl, ⟨hmode, .inl ⟨rfl, rfl⟩⟩, by simp [Misses]⟩
      | some i =>
          cases hpicked : scaling.options[i.toNat]? with
          | some picked =>
              have hless := (List.getElem?_eq_some_iff.mp hpicked).1
              refine .inl ⟨picked.deltas, some picked.label, by simp [hpicked], fun _ => ?_, ?_⟩
              · exact ⟨i, rfl, hless⟩
              · exact ⟨by simp [hmode], fun _ => ⟨i, picked, rfl, hpicked, rfl⟩⟩
          | none =>
              have hge := List.getElem?_eq_none_iff.mp hpicked
              refine .inr ⟨.choiceOutOfRange i scaling.options.length, by simp [hpicked], ?_, ?_⟩
              · exact ⟨hmode, .inr ⟨i, rfl, hge, rfl⟩⟩
              · rintro e' ⟨-, ⟨hnone, -⟩ | ⟨j, hj, -, rfl⟩⟩
                · cases hnone
                · rw [Option.some.inj hj]

/-! ## The result -/

theorem scale_of_select_error {e : ScalingError} (h : select p.scaling choice = .error e)
    (steps : UInt32) : scale p steps choice = .error e := by
  rw [scale, run, h]

theorem scale_of_select_ok {ds : List Delta} {label : Option String}
    (h : select p.scaling choice = .ok (ds, label)) (steps : UInt32) :
    ∃ s, scale p steps choice = .ok s ∧ s.steps = steps ∧ s.label = label := by
  refine ⟨_, by rw [scale, run, h], ?_⟩
  dsimp only
  split
  · exact ⟨rfl, rfl⟩
  · exact ⟨steps_applyDeltas .., label_applyDeltas ..⟩

/-- Scaling either fails for the choice or runs as many steps as it was given. -/
theorem scale_cases (p : Profile) (steps : UInt32) (choice : Option UInt64) :
    (∃ s, scale p steps choice = .ok s ∧ Picks p.scaling choice ∧ s.steps = steps ∧
      Labels p.scaling choice s.label) ∨
    ∃ e, scale p steps choice = .error e ∧ Misses p.scaling choice e ∧
      ∀ e', Misses p.scaling choice e' → e' = e := by
  rcases select_cases p.scaling choice with ⟨ds, label, hselect, hpicks, hlabel⟩ |
    ⟨e, hselect, hmisses⟩
  · obtain ⟨s, hscale, hsteps, rfl⟩ := scale_of_select_ok hselect steps
    exact .inl ⟨s, hscale, hpicks, hsteps, hlabel⟩
  · exact .inr ⟨e, scale_of_select_error hselect steps, hmisses⟩

theorem exists_scale_eq_ok_iff {steps : UInt32} :
    (∃ s, scale p steps choice = .ok s) ↔ Picks p.scaling choice := by
  rcases scale_cases p steps choice with ⟨s, hscale, hpicks, -⟩ | ⟨e, hscale, hmisses, -⟩
  · exact iff_of_true ⟨s, hscale⟩ hpicks
  · rw [hscale]
    exact iff_of_false (fun ⟨s, hs⟩ => by cases hs) hmisses.not_picks

theorem of_scale_eq_ok {steps : UInt32} {s : Scaled} (h : scale p steps choice = .ok s) :
    s.steps = steps ∧ Labels p.scaling choice s.label := by
  rcases scale_cases p steps choice with ⟨s', hscale, -, hsteps, hlabel⟩ | ⟨e, hscale, -⟩
  · rw [h] at hscale
    cases hscale
    exact ⟨hsteps, hlabel⟩
  · rw [h] at hscale
    cases hscale

theorem scale_eq_error_iff {steps : UInt32} {e : ScalingError} :
    scale p steps choice = .error e ↔ Misses p.scaling choice e := by
  rcases scale_cases p steps choice with ⟨s, hscale, hpicks, -⟩ | ⟨e', hscale, hmisses, honly⟩
  · rw [hscale]
    exact iff_of_false (fun h => by cases h) fun h => h.not_picks hpicks
  · rw [hscale, Except.error.injEq]
    constructor
    · rintro rfl
      exact hmisses
    · exact fun h => (honly e h).symm

/-! ## The casting -/

theorem cast_of_allowed (h : Allowed p r spend) :
    cast p (plan? p r spend choice) = scale p (spend - p.tier) choice := by
  rw [plan?_eq_ok_iff.mpr ⟨h, rfl⟩, cast]

theorem Allowed.toNat_steps (h : Allowed p r spend) :
    (spend - p.tier).toNat + p.tier.toNat = spend.toNat := by
  have hcost := UInt32.le_iff_toNat_le.mp h.cost
  rw [UInt32.toNat_sub_of_le _ _ h.cost]
  omega

theorem allowed_of_cast_eq_ok {s : Scaled} (h : cast p (plan? p r spend choice) = .ok s) :
    Allowed p r spend := by
  cases hplan : plan? p r spend choice with
  | error e =>
      rw [hplan, cast] at h
      cases h
  | ok plan => exact (plan?_eq_ok_iff.mp hplan).1

/-- Only a plan that is refused makes a casting be rejected. -/
theorem cast_eq_rejected_iff {e : PlanError} :
    cast p (plan? p r spend choice) = .error (.rejected e) ↔ First p r spend e := by
  rw [← @plan?_eq_error_iff p r spend choice e]
  cases hplan : plan? p r spend choice with
  | error e' => rw [cast, Except.error.injEq, ScalingError.rejected.injEq, Except.error.injEq]
  | ok plan =>
      have hallowed := (plan?_eq_ok_iff.mp hplan).1
      rw [← hplan, cast_of_allowed hallowed, scale_eq_error_iff, hplan]
      exact iff_of_false Misses.not_rejected fun h => by cases h

theorem exists_cast_eq_ok_iff :
    (∃ s, cast p (plan? p r spend choice) = .ok s) ↔
      Allowed p r spend ∧ Picks p.scaling choice := by
  constructor
  · rintro ⟨s, h⟩
    have hallowed := allowed_of_cast_eq_ok h
    rw [cast_of_allowed hallowed] at h
    exact ⟨hallowed, exists_scale_eq_ok_iff.mp ⟨s, h⟩⟩
  · rintro ⟨hallowed, hpicks⟩
    rw [cast_of_allowed hallowed]
    exact exists_scale_eq_ok_iff.mpr hpicks

/-- A casting that succeeds is the ability scaled by the mana beyond its cost. -/
theorem of_cast_eq_ok {s : Scaled} (h : cast p (plan? p r spend choice) = .ok s) :
    scale p (spend - p.tier) choice = .ok s ∧
      s.steps.toNat + p.tier.toNat = spend.toNat ∧
      plan? p r spend choice = .ok ⟨s.steps, p.tier, spend, choice⟩ ∧
      Labels p.scaling choice s.label := by
  have hallowed := allowed_of_cast_eq_ok h
  rw [cast_of_allowed hallowed] at h
  obtain ⟨hsteps, hlabel⟩ := of_scale_eq_ok h
  rw [hsteps]
  exact ⟨h, hallowed.toNat_steps, plan?_eq_ok_iff.mpr ⟨hallowed, rfl⟩, hlabel⟩

/-- A casting that is allowed can fail for the choice only. -/
theorem cast_eq_error_iff (h : Allowed p r spend) {e : ScalingError} :
    cast p (plan? p r spend choice) = .error e ↔ Misses p.scaling choice e := by
  rw [cast_of_allowed h]
  exact scale_eq_error_iff

/-! ## Plain castings -/

/-- Without steps the lists of deltas count for nothing but the label. -/
theorem scale_zero {ds : List Delta} {label : Option String}
    (h : select p.scaling choice = .ok (ds, label)) :
    scale p 0 choice = .ok ⟨p.effects, p.targets, p.area, p.duration, label, 0⟩ := by
  rw [scale, run, h]
  rfl

/-- A casting for what the ability costs has no steps. It leaves the ability as it is, but a list
has to be chosen for it all the same, and it fails for the choice as any other casting does. -/
theorem cast_plain {plan : UpcastPlan} (h : plan? p r p.tier choice = .ok plan) :
    plan.steps = 0 ∧
    (Picks p.scaling choice →
      ∃ s, cast p (plan? p r p.tier choice) = .ok s ∧ s.effects = p.effects ∧
        s.targets = p.targets ∧ s.area = p.area ∧ s.duration = p.duration ∧ s.steps = 0 ∧
        Labels p.scaling choice s.label) ∧
    ∀ e, cast p (plan? p r p.tier choice) = .error e ↔ Misses p.scaling choice e := by
  obtain ⟨hallowed, rfl⟩ := plan?_eq_ok_iff.mp h
  have hzero : p.tier - p.tier = 0 := UInt32.sub_self p.tier
  refine ⟨hzero, fun hpicks => ?_, fun e => ?_⟩
  · rw [cast_of_allowed hallowed, hzero]
    rcases select_cases p.scaling choice with ⟨ds, label, hselect, -, hlabel⟩ |
      ⟨e, -, hmisses, -⟩
    · exact ⟨_, scale_zero hselect, rfl, rfl, rfl, rfl, rfl, hlabel⟩
    · exact absurd hpicks hmisses.not_picks
  · rw [cast_of_allowed hallowed]
    exact scale_eq_error_iff

end Cast

/-- An ability of the first tier with one list of deltas to choose from. -/
def emberTouch : Profile where
  tier := 1
  scaling := .upcastChoice [⟨"Hotter flames", [.moreDice 2 6]⟩]
  effects := .leaf ⟨"fire", none, .damage ⟨.fire, "1d6", none, none, none⟩⟩
  targets := some ⟨10, 1⟩
  duration := some ⟨1, "rounds"⟩

theorem cast_plain_emberTouch :
    (∃ s, cast emberTouch (plan? emberTouch ⟨3, 2⟩ 1 (some 0)) = .ok s ∧
        s.effects = emberTouch.effects ∧ s.label = some "Hotter flames") ∧
      cast emberTouch (plan? emberTouch ⟨3, 2⟩ 1 none) = .error .missingChoice ∧
      cast emberTouch (plan? emberTouch ⟨3, 2⟩ 1 (some 4)) = .error (.choiceOutOfRange 4 1) := by
  refine ⟨?_, ?_, ?_⟩
  · have hpicks : Picks emberTouch.scaling (some 0) := fun _ => ⟨0, rfl, by decide⟩
    obtain ⟨s, hcast, heffects, -, -, -, -, hlabel⟩ :=
      (cast_plain (p := emberTouch) (r := ⟨3, 2⟩) rfl).2.1 hpicks
    obtain ⟨i, picked, hi, hpicked, hs⟩ := hlabel.2 rfl
    cases hi
    cases hpicked
    exact ⟨s, hcast, heffects, hs⟩
  · exact ((cast_plain (p := emberTouch) (r := ⟨3, 2⟩) rfl).2.2 _).mpr ⟨rfl, .inl ⟨rfl, rfl⟩⟩
  · refine ((cast_plain (p := emberTouch) (r := ⟨3, 2⟩) rfl).2.2 _).mpr
      ⟨rfl, .inr ⟨4, rfl, ?_, rfl⟩⟩
    decide

/-- Not every casting without steps succeeds: one without a choice where a list is to be chosen
does not. -/
theorem not_forall_cast_plain :
    ¬ ∀ (p : Profile) (r : Resources) (choice : Option UInt64) (plan : UpcastPlan),
      plan? p r p.tier choice = .ok plan →
        ∃ s, cast p (plan? p r p.tier choice) = .ok s ∧ s.effects = p.effects ∧
          s.targets = p.targets ∧ s.area = p.area ∧ s.duration = p.duration := by
  intro hplain
  obtain ⟨s, hs, -⟩ := hplain emberTouch ⟨3, 2⟩ none _ rfl
  have hfails : cast emberTouch (plan? emberTouch ⟨3, 2⟩ emberTouch.tier none) =
      .error .missingChoice := rfl
  rw [hfails] at hs
  cases hs

end Upcast

end Spellwork
