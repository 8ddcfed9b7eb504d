import Mathlib.Algebra.GroupWithZero.Nat
import Spellwork.Proofs.Casting
import Spellwork.Text.Lowercase

/-!
# What scaling makes of the other blocks

Besides the tree of effects, an ability has three blocks that deltas act on: its targets, its area
and its duration. Every delta clamps the number that it raises. As long as none takes anything away,
clamping each time comes to clamping once (`raised_raised`), so every number ends at its start and
all that concerns it together, whatever the order of the deltas (`Upcast.scale_summed`).

Tree and blocks never look at one another. A tree that is scaled alone therefore becomes what it
becomes as a part of any ability (`Upcast.scaleTree_eq_map`).
-/

namespace Spellwork

/-! ## Units -/

namespace Duration

/-- A text spells a unit: its stem, or the stem and an s, stands between blanks in a case that
`small` takes away. A stem that ends in an s is not spelled without another one. -/
def Spells (small : List Char → List Char) (stem : List Char) (units : String) : Prop :=
  ∃ before core after, units.toList = before ++ core ++ after ∧
    (∀ c ∈ before, Text.isBlank c = true) ∧ (∀ c ∈ after, Text.isBlank c = true) ∧
    (∀ c ∈ core.head?, Text.isBlank c = false) ∧ (∀ c ∈ core.getLast?, Text.isBlank c = false) ∧
    (small core = stem ++ ['s'] ∨ small core = stem ∧ stem.getLast? ≠ some 's')

/-- Two texts spell one unit. -/
def SameUnit (small : List Char → List Char) (a b : String) : Prop :=
  ∃ stem, Spells small stem a ∧ Spells small stem b

/-- The stem of the unit that a text spells. -/
def stemOf (small : List Char → List Char) (units : String) : List Char :=
  let lower := small (Text.trim units.toList)
  if lower.getLast? = some 's' then lower.dropLast else lower

section Units

variable {small : List Char → List Char} {stem : List Char} {units : String}

theorem spells_stemOf (small : List Char → List Char) (units : String) :
    Spells small (stemOf small units) units := by
  obtain ⟨before, after, htext, hbefore, hafter, hfirst, hlast⟩ :=
    Text.exists_append_trimBy Text.isBlank units.toList
  refine ⟨before, _, after, htext, hbefore, hafter, hfirst, hlast, ?_⟩
  show small (Text.trim units.toList) = _ ∨ small (Text.trim units.toList) = _ ∧ _
  unfold stemOf
  by_cases hs : (small (Text.trim units.toList)).getLast? = some 's'
  · simp only [hs, if_true]
    exact .inl (List.dropLast_append_getLast? 's' hs).symm
  · simp only [hs, if_false]
    exact .inr ⟨trivial, hs⟩

theorem Spells.eq_stemOf (h : Spells small stem units) : stem = stemOf small units := by
  obtain ⟨before, core, after, htext, hbefore, hafter, hfirst, hlast, hcore⟩ := h
  have htrim : Text.trim units.toList = core := by
    rw [htext]
    exact Text.trimBy_append hbefore hafter hfirst hlast
  unfold stemOf
  rw [htrim]
  rcases hcore with hcore | ⟨rfl, hs⟩
  · simp [hcore]
  · simp [hs]

theorem sameUnit_iff {a b : String} : SameUnit small a b ↔ stemOf small a = stemOf small b := by
  constructor
  · rintro ⟨stem, ha, hb⟩
    exact ha.eq_stemOf.symm.trans hb.eq_stemOf
  · intro h
    exact ⟨stemOf small a, spells_stemOf small a, h ▸ spells_stemOf small b⟩

instance (a b : String) : Decidable (SameUnit small a b) :=
  decidable_of_iff _ sameUnit_iff.symm

end Units

/-- A duration goes by the case of the 26 letters. -/
theorem hasUnits_iff (d : Duration) (units : String) :
    d.hasUnits units = true ↔ SameUnit (List.map Char.toLower) d.units units := by
  rw [sameUnit_iff]
  exact decide_eq_true_iff

end Duration

/-- What a delta gives in each step; nothing if it has no value. -/
def Delta.worth (d : Delta) : Nat :=
  (d.value.getD 0).toInt.toNat

/-- A number with a gain, or the greatest number there is if that is less. -/
def raised (n : UInt32) (gain : Nat) : UInt32 :=
  UInt32.ofNat (min 0xffffffff (n.toNat + gain))

theorem toNat_raised (n : UInt32) (gain : Nat) :
    (raised n gain).toNat = min 0xffffffff (n.toNat + gain) :=
  UInt32.toNat_ofNat_of_lt' (Nat.lt_of_le_of_lt (Nat.min_le_left ..) (by decide))

theorem raised_zero (n : UInt32) : raised n 0 = n := by
  have hn := n.toNat_lt
  rw [← UInt32.toNat_inj, toNat_raised]
  omega

/-- A number raised twice is raised by both gains at once. -/
theorem raised_raised (n : UInt32) (a b : Nat) : raised (raised n a) b = raised n (a + b) := by
  rw [← UInt32.toNat_inj, toNat_raised, toNat_raised, toNat_raised]
  omega

namespace Upcast

variable {small : List Char → List Char} {steps : UInt32} {counts : Delta → Bool} {d : Delta}
  {ds es : List Delta}

/-! ## Sums -/

/-- What the deltas that count give together over several steps. -/
def gained (steps : UInt32) (ds : List Delta) (counts : Delta → Bool) : Nat :=
  steps.toNat * ((ds.filter counts).map Delta.worth).sum

theorem gained_nil (steps : UInt32) : gained steps [] = fun _ => 0 :=
  rfl

theorem gained_zero (ds : List Delta) : gained 0 ds = fun _ => 0 :=
  funext fun _ => Nat.zero_mul _

theorem gained_singleton :
    gained steps [d] counts = if counts d then steps.toNat * d.worth else 0 := by
  by_cases h : counts d <;> simp [gained, h]

theorem gained_cons :
    gained steps (d :: ds) = fun counts => gained steps [d] counts + gained steps ds counts := by
  funext counts
  rw [gained_singleton]
  by_cases h : counts d <;> simp [gained, h, Nat.mul_add]

theorem gained_perm (h : ds.Perm es) : gained steps ds = gained steps es := by
  funext counts
  unfold gained
  rw [((h.filter counts).map Delta.worth).sum_nat]

theorem value_mul_steps (h : 0 ≤ (d.value.getD 0).toInt) (steps : UInt32) :
    (d.value.getD 0).toInt * steps.toNat = (steps.toNat * d.worth : Nat) := by
  rw [Delta.worth, Int.natCast_mul, Int.toNat_of_nonneg h, Int.mul_comm]

/-- A delta takes nothing away, and gives less than 2^62 over several steps. -/
structure Gives (steps : UInt32) (d : Delta) : Prop where
  value : 0 ≤ (d.value.getD 0).toInt
  small : steps.toNat * d.worth < 0x4000000000000000

theorem gives_of_sum (hvalues : ∀ d ∈ ds, 0 ≤ (d.value.getD 0).toInt)
    (hsmall : steps.toNat * (ds.map Delta.worth).sum < 0x4000000000000000) :
    ∀ d ∈ ds, Gives steps d := by
  intro d hd
  have hworth : d.worth ≤ (ds.map Delta.worth).sum := by
    obtain ⟨before, after, rfl⟩ := List.append_of_mem hd
    simp only [List.map_append, List.map_cons, List.sum_append, List.sum_cons]
    omega
  exact ⟨hvalues d hd, Nat.lt_of_le_of_lt (Nat.mul_le_mul_left _ hworth) hsmall⟩

/-- Such an amount is not clamped, and no 32-bit number is too great for it to be added within 64
bits. -/
theorem Gives.toInt_amountOf (h : Gives steps d) :
    (amountOf d steps).toInt = (d.value.getD 0).toInt * steps.toNat ∧
      ∀ n : UInt32, (n.toNat : Int) + (amountOf d steps).toInt ≤ 0x7fffffffffffffff := by
  have hsmall := h.small
  have hexact : (amountOf d steps).toInt = (steps.toNat * d.worth : Nat) := by
    rw [amountOf, value_mul_steps h.value]
    exact toInt_clamp64 (by omega) (by omega)
  rw [hexact, value_mul_steps h.value]
  refine ⟨rfl, fun n => ?_⟩
  have hn := n.toNat_lt
  omega

theorem Gives.bump_amountOf (h : Gives steps d) (n : UInt32) :
    bump n (amountOf d steps) = raised n (steps.toNat * d.worth) := by
  obtain ⟨hexact, hfits⟩ := h.toInt_amountOf
  rw [value_mul_steps h.value] at hexact
  have hsum : FitsInt64 (n.toNat + (amountOf d steps).toInt) := ⟨by omega, hfits n⟩
  rw [bump_eq, if_pos hsum, hexact, ← UInt32.toNat_inj, toNat_clamp32_eq, toNat_raised]
  omega

end Upcast

open Upcast

/-! ## The blocks -/

/-- Targets with what deltas give: the distance gains from range and from reach, the count from
targets. -/
def Targets.extended (gain : (Delta → Bool) → Nat) (a : Targets) : Targets where
  distance := raised a.distance
    (gain fun d => d.operation = .addRange ∨ d.operation = .addReach)
  count := raised a.count (gain fun d => d.operation = .addTargets)

/-- An area with what deltas give: each dimension that it has gains alike. -/
def Area.enlarged (gain : (Delta → Bool) → Nat) (a : Area) : Area where
  radius := a.radius.map fun n => raised n (gain fun d => d.operation = .addAreaSize)
  length := a.length.map fun n => raised n (gain fun d => d.operation = .addAreaSize)

/-- A delta is about durations in a unit: it names no unit, or this one. -/
def Delta.Prolongs (small : List Char → List Char) (units : String) (d : Delta) : Prop :=
  d.operation = .addDuration ∧ ∀ named ∈ d.durationType, Duration.SameUnit small units named

instance (small : List Char → List Char) (units : String) (d : Delta) :
    Decidable (d.Prolongs small units) :=
  inferInstanceAs (Decidable (_ ∧ _))

/-- A duration with what deltas give: it gains from those that are about its unit, which stays. -/
def Duration.prolonged (small : List Char → List Char) (gain : (Delta → Bool) → Nat)
    (a : Duration) : Duration :=
  { a with quantity := raised a.quantity (gain fun d => d.Prolongs small a.units) }

section Gains

variable (small : List Char → List Char) (f g : (Delta → Bool) → Nat)

theorem Targets.extended_zero : extended (fun _ => 0) = id := by
  funext a
  simp [extended, raised_zero]

theorem Area.enlarged_zero : enlarged (fun _ => 0) = id := by
  funext a
  simp [enlarged, raised_zero]

theorem Duration.prolonged_zero : prolonged small (fun _ => 0) = id := by
  funext a
  simp [prolonged, raised_zero]

/-- Two gains one after the other come to their sum. -/
theorem Targets.extended_extended :
    extended g ∘ extended f = extended fun counts => f counts + g counts := by
  funext a
  simp only [Function.comp_apply, extended, raised_raised]

theorem Area.enlarged_enlarged :
    enlarged g ∘ enlarged f = enlarged fun counts => f counts + g counts := by
  funext a
  simp only [Function.comp_apply, enlarged, Option.map_map, Function.comp_def, raised_raised]

theorem Duration.prolonged_prolonged :
    prolonged small g ∘ prolonged small f =
      prolonged small fun counts => f counts + g counts := by
  funext a
  exact congrArg (fun quantity => { a with quantity }) (raised_raised a.quantity _ _)

end Gains

namespace Upcast

/-! ## Deltas one after the other -/

/-- One delta raises a duration by its amount if it is about the unit. -/
theorem prolonged_singleton (hgives : Gives steps d) (a : Duration) :
    a.prolonged (List.map Char.toLower) (gained steps [d]) =
      if d.operation = .addDuration ∧ d.durationType.all a.hasUnits = true then
        { a with quantity := bump a.quantity (amountOf d steps) }
      else a := by
  have hunits : d.Prolongs (List.map Char.toLower) a.units ↔
      d.operation = .addDuration ∧ d.durationType.all a.hasUnits = true := by
    unfold Delta.Prolongs
    cases d.durationType <;> simp [Duration.hasUnits_iff]
  unfold Duration.prolonged
  rw [gained_singleton, hgives.bump_amountOf]
  by_cases hprolongs : d.Prolongs (List.map Char.toLower) a.units
  · rw [if_pos (decide_eq_true hprolongs), if_pos (hunits.mp hprolongs)]
  · rw [if_neg (mt of_decide_eq_true hprolongs), if_neg (mt hunits.mpr hprolongs), raised_zero]

/-- One delta raises the numbers that concern it and no others. -/
theorem blocks_applyDelta {s : Scaled} (hgives : Gives s.steps d) (index : Nat) :
    (applyDelta s index d).targets = s.targets.map (Targets.extended (gained s.steps [d])) ∧
      (applyDelta s index d).area = s.area.map (Area.enlarged (gained s.steps [d])) ∧
      (applyDelta s index d).duration =
        s.duration.map (Duration.prolonged (List.map Char.toLower) (gained s.steps [d])) := by
  rw [funext (prolonged_singleton hgives)]
  unfold applyDelta Targets.extended Area.enlarged
  simp only [gained_singleton]
  cases hop : d.operation with
  | addDice => cases d.dice <;> simp [raised_zero]
  | addCondition => cases d.condition <;> simp [raised_zero]
  | _ => simp [raised_zero, hgives.bump_amountOf]

theorem blocks_applyDeltas {s : Scaled} (hgives : ∀ d ∈ ds, Gives s.steps d) (index : Nat) :
    (applyDeltas index ds s).targets = s.targets.map (Targets.extended (gained s.steps ds)) ∧
      (applyDeltas index ds s).area = s.area.map (Area.enlarged (gained s.steps ds)) ∧
      (applyDeltas index ds s).duration =
        s.duration.map (Duration.prolonged (List.map Char.toLower) (gained s.steps ds)) := by
  induction ds generalizing s index with
  | nil =>
      rw [gained_nil, Targets.extended_zero, Area.enlarged_zero, Duration.prolonged_zero,
        Option.map_id, Option.map_id, Option.map_id]
      exact ⟨rfl, rfl, rfl⟩
  | cons d ds ih =>
      have hsteps := (kept_applyDelta s index d).1
      obtain ⟨htargets, harea, hduration⟩ := blocks_applyDelta (hgives d List.mem_cons_self) index
      have hrest : ∀ e ∈ ds, Gives (applyDelta s index d).steps e := by
        rw [hsteps]
        exact fun e he => hgives e (List.mem_cons_of_mem d he)
      obtain ⟨htargets', harea', hduration'⟩ := ih hrest (index + 1)
      rw [hsteps, htargets, Option.map_map, Targets.extended_extended] at htargets'
      rw [hsteps, harea, Option.map_map, Area.enlarged_enlarged] at harea'
      rw [hsteps, hduration, Option.map_map, Duration.prolonged_prolonged] at hduration'
      rw [gained_cons]
      exact ⟨htargets', harea', hduration'⟩

/-- The blocks of an ability after the deltas chosen. -/
theorem blocks_scale {p : Profile} {choice : Option UInt64} {label : Option String}
    (hselect : select p.scaling choice = .ok (ds, label))
    (hgives : ∀ d ∈ ds, Gives steps d) :
    ∃ s, scale p steps choice = .ok s ∧
      s.targets = p.targets.map (Targets.extended (gained steps ds)) ∧
      s.area = p.area.map (Area.enlarged (gained steps ds)) ∧
      s.duration =
        p.duration.map (Duration.prolonged (List.map Char.toLower) (gained steps ds)) := by
  by_cases hsteps : steps = 0
  · subst hsteps
    rw [gained_zero, Targets.extended_zero, Area.enlarged_zero, Duration.prolonged_zero,
      Option.map_id, Option.map_id, Option.map_id]
    exact ⟨_, scale_zero hselect, rfl, rfl, rfl⟩
  · rw [scale, run, hselect]
    exact ⟨_, rfl, by simpa only [hsteps, if_false] using blocks_applyDeltas hgives 0⟩

/-- Where no delta takes anything away and they give less than 2^62 together, no amount is clamped
on its way, and every number of a block ends at its start and all that concerns it, or at the
greatest number there is. Blocks that are not there stay away. The order of the deltas does not
count. -/
theorem scale_summed {p : Profile} {choice : Option UInt64} {label : Option String}
    (hselect : select p.scaling choice = .ok (ds, label))
    (hvalues : ∀ d ∈ ds, 0 ≤ (d.value.getD 0).toInt)
    (hsmall : steps.toNat * (ds.map Delta.worth).sum < 0x4000000000000000) :
    (∀ d ∈ ds, (amountOf d steps).toInt = (d.value.getD 0).toInt * steps.toNat ∧
      ∀ n : UInt32, (n.toNat : Int) + (amountOf d steps).toInt ≤ 0x7fffffffffffffff) ∧
    ∃ s, scale p steps choice = .ok s ∧
      s.targets = p.targets.map (Targets.extended (gained steps ds)) ∧
      s.area = p.area.map (Area.enlarged (gained steps ds)) ∧
      s.duration = p.duration.map (Duration.prolonged (List.map Char.toLower) (gained steps ds)) ∧
      ∀ (scaling : Scaling) (choice' : Option UInt64) (es : List Delta) (label' : Option String),
        select scaling choice' = .ok (es, label') → es.Perm ds →
        ∃ s', scale { p with scaling } steps choice' = .ok s' ∧ s'.targets = s.targets ∧
          s'.area = s.area ∧ s'.duration = s.duration := by
  have hgives := gives_of_sum hvalues hsmall
  refine ⟨fun d hd => (hgives d hd).toInt_amountOf, ?_⟩
  obtain ⟨s, hscale, htargets, harea, hduration⟩ := blocks_scale hselect hgives
  refine ⟨s, hscale, htargets, harea, hduration, fun scaling choice' es label' hother hperm => ?_⟩
  obtain ⟨s', hscale', htargets', harea', hduration'⟩ :=
    blocks_scale (p := { p with scaling }) hother fun d hd => hgives d (hperm.mem_iff.mp hd)
  refine ⟨s', hscale', ?_, ?_, ?_⟩
  · rw [htargets', htargets, gained_perm hperm]
  · rw [harea', harea, gained_perm hperm]
  · rw [hduration', hduration, gained_perm hperm]

end Upcast

/-- An ability with all three blocks, whose deltas raise each of them. -/
def beacon : Profile where
  tier := 1
  scaling := .upcast
    [.amount .addRange 5, .amount .addReach 10, .amount .addTargets 3, .amount .addAreaSize 10,
      { Delta.amount .addDuration 1 with durationType := some " hour" },
      { Delta.amount .addDuration 7 with durationType := some "rounds" }]
  targets := some ⟨10, 4294967290⟩
  area := some ⟨some 20, none⟩
  duration := some ⟨1, "Hours"⟩

namespace Upcast

theorem scale_summed_beacon :
    ∃ s, scale beacon 2 none = .ok s ∧ s.targets = some ⟨40, 4294967295⟩ ∧
      s.area = some ⟨some 40, none⟩ ∧ s.duration = some ⟨3, "Hours"⟩ ∧
      ∃ s', scale { beacon with scaling := .upcast beacon.scaling.deltas.reverse } 2 none = .ok s' ∧
        s'.targets = s.targets ∧ s'.area = s.area ∧ s'.duration = s.duration := by
  have hselect : select beacon.scaling none = .ok (beacon.scaling.deltas, none) := rfl
  have hsmall : (2 : UInt32).toNat * (beacon.scaling.deltas.map Delta.worth).sum <
      0x4000000000000000 := by decide
  obtain ⟨-, s, hscale, htargets, harea, hduration, horder⟩ :=
    scale_summed hselect (by decide) hsmall
  refine ⟨s, hscale, htargets.trans ?_, harea.trans ?_, hduration.trans ?_, ?_⟩
  · decide
  · decide
  · decide
  · exact horder _ none _ none rfl (List.reverse_perm _)

/-- An ability that lasts for a unit whose first letter is not one of the 26. -/
def aeon : Profile where
  tier := 1
  scaling := .upcast [{ Delta.amount .addDuration 1 with durationType := some "ÄONEN" }]
  duration := some ⟨1, "äonen"⟩

/-- Two spellings of a unit that differ only in the case of other letters count as two units. -/
theorem not_forall_scale_summed :
    ¬ ∀ (p : Profile) (choice : Option UInt64) (ds : List Delta) (label : Option String)
      (steps : UInt32), select p.scaling choice = .ok (ds, label) →
        (∀ d ∈ ds, 0 ≤ (d.value.getD 0).toInt) →
        steps.toNat * (ds.map Delta.worth).sum < 0x4000000000000000 →
        ∃ s, scale p steps choice = .ok s ∧
          s.duration = p.duration.map (Duration.prolonged Text.lowercase (gained steps ds)) := by
  intro hsummed
  obtain ⟨s, hs, hduration⟩ :=
    hsummed aeon none aeon.scaling.deltas none 1 rfl (by decide) (by decide)
  have hsame : aeon.duration.map
      (Duration.prolonged Text.lowercase (gained 1 aeon.scaling.deltas)) =
        some ⟨2, "äonen"⟩ := by decide
  have hkept : (scale aeon 1 none).map Scaled.duration = .ok (some ⟨1, "äonen"⟩) := by
    decide
  rw [hs] at hkept
  cases (Except.ok.inj hkept).symm.trans (hduration.trans hsame)

/-! ## Trees alone -/

/-- Two abilities have the same tree, label and steps, whatever their blocks. -/
structure SameTree (s s' : Scaled) : Prop where
  effects : s.effects = s'.effects
  label : s.label = s'.label
  steps : s.steps = s'.steps

/-- A delta does the same to a tree whatever stands beside it. -/
theorem SameTree.applyDelta {s s' : Scaled} (h : SameTree s s') (index : Nat) (d : Delta) :
    SameTree (applyDelta s index d) (applyDelta s' index d) := by
  obtain ⟨hsteps, hlabel⟩ := kept_applyDelta s index d
  obtain ⟨hsteps', hlabel'⟩ := kept_applyDelta s' index d
  refine ⟨?_, ?_, ?_⟩
  · rw [effects_applyDelta, effects_applyDelta, h.effects, h.steps]
  · rw [hlabel, hlabel', h.label]
  · rw [hsteps, hsteps', h.steps]

theorem SameTree.applyDeltas {s s' : Scaled} (h : SameTree s s') (index : Nat)
    (ds : List Delta) : SameTree (applyDeltas index ds s) (applyDeltas index ds s') := by
  induction ds generalizing index s s' with
  | nil => exact h
  | cons d ds ih => exact ih (h.applyDelta index d) (index + 1)

/-- Scaling ends in the same tree and label, or fails for the same reason. -/
theorem SameTree.run {s s' : Scaled} (h : SameTree s s') (scaling : Scaling)
    (choice : Option UInt64) :
    (run s scaling choice).map (fun s => (s.effects, s.label)) =
      (run s' scaling choice).map (fun s => (s.effects, s.label)) := by
  unfold Upcast.run
  cases select scaling choice with
  | error e => rfl
  | ok picked =>
      obtain ⟨ds, label⟩ := picked
      have hstart : SameTree { s with label } { s' with label } := ⟨h.effects, rfl, h.steps⟩
      have hend := hstart.applyDeltas 0 ds
      by_cases hzero : s.steps = 0
      · have hzero' : s'.steps = 0 := h.steps ▸ hzero
        simp only [Except.map, hzero, hzero', if_true, h.effects]
      · have hzero' : s'.steps ≠ 0 := h.steps ▸ hzero
        simp only [Except.map, hzero, hzero', if_false, hend.effects, hend.label]

/-- A tree scaled alone is the tree of the ability scaled, with the same label, or fails for the
same reason. -/
theorem scaleTree_eq_map (p : Profile) (steps : UInt32) (choice : Option UInt64) :
    scaleTree p.effects p.scaling steps choice =
      (scale p steps choice).map fun s => (s.effects, s.label) := by
  have hstart : SameTree { effects := p.effects, steps } ⟨p.effects, p.targets, p.area,
      p.duration, none, steps⟩ := ⟨rfl, rfl, rfl⟩
  exact hstart.run p.scaling choice

end Upcast

end Spellwork
