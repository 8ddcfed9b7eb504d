import Spellwork.Proofs.Activation
import Spellwork.Proofs.FormulaText
import Spellwork.Proofs.RollSums
import Spellwork.Proofs.Scaling

/-!
# Formulas after scaling

What a delta writes at the end of a formula is one operand with its sign (`addedOperands`). The
numbers behind it are products of the delta and the steps, which may be greater than any number that
a formula can hold; a formula stays readable exactly as long as none is (`Delta.FitsFormula`).
-/

namespace Spellwork

namespace Upcast

open Formula Spellwork.Tree Activation

/-! ## Operands of deltas -/

/-- The operands that a delta adds to a formula, with their signs: one or none. -/
def addedOperands (steps : UInt32) (d : Delta) : List (Bool × Operand) :=
  match d.operation with
  | .addFlatDamage =>
    let x := (amountOf d steps).toInt
    if x = 0 then [] else [(x < 0, .ofNat x.natAbs)]
  | .addDice =>
    match d.dice with
    | some dice =>
      if dice.count = 0 ∨ dice.faces = 0 then []
      else [(false, .ofDice (dice.count.toNat * steps.toNat) dice.faces.toNat)]
    | none => []
  | _ => []

/-- A formula can hold the number that the delta adds to it. The least integer of 64 bits is written
without its sign, as a number one greater than the greatest. -/
def FitsFormula (steps : UInt32) (d : Delta) : Prop :=
  match d.operation with
  | .addFlatDamage => (amountOf d steps).toInt ≠ -0x8000000000000000
  | .addDice =>
    ∀ dice, d.dice = some dice → dice.faces ≠ 0 →
      dice.count.toNat * steps.toNat < UInt32.size
  | _ => True

theorem flatTerm_signed {amount : Int64} {negative : Bool} {n : Nat}
    (h : amount.toInt = signed negative n) (hpos : 1 ≤ n) :
    flatTerm amount = signOf negative :: Text.natText n := by
  have hsome : n ≠ 0 := Nat.ne_of_gt hpos
  have hsign : 0 < n := hpos
  unfold flatTerm
  rw [h]
  cases negative with
  | false => simp [signed, signOf, hsome, hsign]
  | true => simp [signed, signOf, hsome]

theorem flatTerm_eq_sumText {amount : Int64} (h : amount.toInt ≠ 0) :
    flatTerm amount =
      sumText [(decide (amount.toInt < 0), .ofNat amount.toInt.natAbs)] := by
  rw [flatTerm_signed (eq_signed amount.toInt) (Int.natAbs_pos.mpr h)]
  simp [sumText, Operand.ofNat, Operand.text]

/-- As long as 64 bits hold the number of dice, it is written as it is. -/
theorem diceTerm_of_lt {dice : DiceDelta} {steps : UInt32}
    (hlt : dice.count.toNat * steps.toNat < 0x8000000000000000)
    (hsome : ¬ (dice.count = 0 ∨ dice.faces = 0)) :
    diceTerm dice steps =
      '+' :: (Text.natText (dice.count.toNat * steps.toNat) ++
        'd' :: Text.natText dice.faces.toNat) := by
  have hcount :
      (widen dice.count * widen steps).toInt = (dice.count.toNat * steps.toNat : Nat) := by
    rw [widen_mul, toInt_ofInt_of_fits ⟨by omega, by omega⟩]
  rw [diceTerm, if_neg hsome, hcount]
  rfl

/-- What a delta writes is one operand with its sign, if a formula can hold the number. -/
theorem termOf_eq_sumText {steps : UInt32} {d : Delta} (h : FitsFormula steps d) :
    termOf steps d = sumText (addedOperands steps d) := by
  unfold FitsFormula at h
  unfold termOf addedOperands
  cases hop : d.operation with
  | addFlatDamage =>
      by_cases hzero : (amountOf d steps).toInt = 0
      · simp [hzero, flatTerm, sumText]
      · simp only [hzero, if_false]
        exact flatTerm_eq_sumText hzero
  | addDice =>
      cases hdice : d.dice with
      | none => rfl
      | some dice =>
          by_cases hnone : dice.count = 0 ∨ dice.faces = 0
          · simp [hnone, diceTerm, sumText]
          · rw [hop] at h
            have hlt := h dice hdice fun hfaces => hnone (.inr hfaces)
            simp [hnone, diceTerm_of_lt (Nat.lt_trans hlt (by decide)) hnone, sumText, signOf,
              Operand.ofDice, Operand.text]
  | _ => rfl

/-- A number that no formula can hold is written all the same, as an operand that cannot be read. A
number of dice that has wrapped around has a sign of its own, behind the one that is written. -/
theorem exists_operand_of_not_fits {steps : UInt32} {d : Delta} (h : ¬ FitsFormula steps d) :
    ∃ (signs : List Char) (o : Operand), signs ≠ [] ∧ (∀ c ∈ signs, IsSign c) ∧
      o.Written ∧ ¬ o.Sound ∧ termOf steps d = signs ++ o.text := by
  unfold FitsFormula at h
  unfold termOf
  cases hop : d.operation with
  | addFlatDamage =>
      rw [hop] at h
      have hleast : (amountOf d steps).toInt = -0x8000000000000000 := not_not.mp h
      have hsigned : (amountOf d steps).toInt = signed true (0x8000000000000000 : Nat) := by
        rw [hleast, signed, if_pos rfl]
        rfl
      refine ⟨['-'], .ofNat 0x8000000000000000, by simp, by simp [IsSign],
        Operand.written_ofNat _, ?_, flatTerm_signed hsigned (by omega)⟩
      rw [Operand.sound_ofNat]
      omega
  | addDice =>
      rw [hop] at h
      push Not at h
      obtain ⟨dice, hdice, hfaces, hlarge⟩ := h
      have hcount : dice.count ≠ 0 := by
        intro hzero
        rw [hzero, UInt32.toNat_zero, Nat.zero_mul] at hlarge
        exact absurd hlarge (by decide)
      have hsome : ¬ (dice.count = 0 ∨ dice.faces = 0) := not_or.mpr ⟨hcount, hfaces⟩
      rcases toInt_widen_mul dice.count steps with ⟨hlt, -⟩ | ⟨k, -, hk, hwrapped⟩
      · refine ⟨['+'], .ofDice (dice.count.toNat * steps.toNat) dice.faces.toNat, by simp,
          by simp [IsSign], Operand.written_ofDice _ _, ?_, ?_⟩
        · rw [Operand.sound_ofDice]
          omega
        · rw [hdice]
          exact diceTerm_of_lt hlt hsome
      · refine ⟨['+', '-'], .ofDice k dice.faces.toNat, by simp, by simp [IsSign],
          Operand.written_ofDice _ _, ?_, ?_⟩
        · rw [Operand.sound_ofDice]
          omega
        · have hpos : 0 < k := Nat.lt_of_lt_of_le (by decide) hk
          have htext : Text.intText (-k) = '-' :: Text.natText k := by
            rw [Text.intText_of_neg (by omega), Int.neg_neg, Int.toNat_natCast]
          rw [hdice]
          show diceTerm dice steps = _
          rw [diceTerm, if_neg hsome, hwrapped, htext]
          rfl
  | _ =>
      rw [hop] at h
      exact absurd trivial h

theorem written_of_mem_addedOperands {steps : UInt32} {d : Delta} {o : Bool × Operand}
    (h : o ∈ addedOperands steps d) : o.2.Written := by
  unfold addedOperands at h
  split at h
  · dsimp only at h
    split at h
    · cases h
    · rw [List.mem_singleton.mp h]
      exact Operand.written_ofNat _
  · split at h
    · split at h
      · cases h
      · rw [List.mem_singleton.mp h]
        exact Operand.written_ofDice _ _
    · cases h
  · cases h

theorem sound_of_mem_addedOperands {steps : UInt32} {d : Delta} (h : FitsFormula steps d)
    {o : Bool × Operand} (ho : o ∈ addedOperands steps d) : o.2.Sound := by
  unfold FitsFormula at h
  unfold addedOperands at ho
  cases hop : d.operation with
  | addFlatDamage =>
      have hlow : -0x8000000000000000 ≤ (amountOf d steps).toInt := Int64.le_toInt _
      have hhigh : (amountOf d steps).toInt < 0x8000000000000000 := Int64.toInt_lt _
      simp only [hop] at h ho
      split at ho
      · cases ho
      · rw [List.mem_singleton.mp ho, Operand.sound_ofNat]
        omega
  | addDice =>
      simp only [hop] at h ho
      split at ho
      · rename_i dice hdice
        split at ho
        · cases ho
        · rename_i hsome
          have hfaces : dice.faces.toNat ≠ 0 := fun hzero =>
            hsome (.inr (UInt32.toNat_inj.mp hzero))
          rw [List.mem_singleton.mp ho, Operand.sound_ofDice]
          exact ⟨h dice hdice fun hnone => hsome (.inr hnone), Nat.pos_of_ne_zero hfaces,
            dice.faces.toNat_lt⟩
      · cases ho
  | _ => simp [hop] at ho

theorem ends_termOf (steps : UInt32) (d : Delta) : Ends (termOf steps d) := by
  by_cases hfits : FitsFormula steps d
  · rw [termOf_eq_sumText hfits]
    exact ends_sumText _
  · obtain ⟨signs, o, hne, hsigns, -, -, hterm⟩ := exists_operand_of_not_fits hfits
    obtain ⟨s, signs, rfl⟩ := List.exists_cons_of_ne_nil hne
    rw [hterm]
    exact .cons (hsigns s List.mem_cons_self) _

theorem ends_flatMap_termOf (steps : UInt32) (ds : List Delta) :
    Ends (ds.flatMap (termOf steps)) := by
  induction ds with
  | nil => exact ends_nil
  | cons d ds ih => exact (ends_termOf steps d).append ih

/-- A formula can be read behind which deltas have written, if it can hold all their numbers. -/
theorem exists_read_terms_iff {text : String} {f : Formula} (h : Formula.read text = .ok f)
    {steps : UInt32} {ds : List Delta} :
    (∃ g, Formula.read (text ++ String.ofList (ds.flatMap (termOf steps))) = .ok g) ↔
      ∀ d ∈ ds, FitsFormula steps d := by
  induction ds generalizing text f with
  | nil => simp [h]
  | cons d ds ih =>
      rw [List.flatMap_cons, List.forall_mem_cons]
      by_cases hfits : FitsFormula steps d
      · have hread := read_append h (fun o ho => written_of_mem_addedOperands ho)
          (fun o ho => sound_of_mem_addedOperands hfits ho)
        rw [← termOf_eq_sumText hfits] at hread
        rw [String.ofList_append, ← String.append_assoc, ih hread, and_iff_right hfits]
      · obtain ⟨signs, o, hne, hsigns, hwritten, hlost, hterm⟩ := exists_operand_of_not_fits hfits
        rw [hterm, List.append_assoc]
        exact iff_of_false (not_exists_read_of_unsound h hwritten hlost
          (ends_flatMap_termOf steps ds) hne hsigns) fun hall => hfits hall.1

/-! ## Formulas of a scaled tree -/

theorem formula?_scaledEffect (t : Tree) (steps : UInt32) (ds : List Delta) (id : NodeId)
    (e : Effect) :
    (scaledEffect t steps ds id e).formula? =
      e.formula?.map fun text => text ++ String.ofList (termsFor t steps ds id) := by
  cases e <;> rfl

theorem rolled_scaledTree {t : Tree} (h : Valid t) (steps : UInt32) (ds : List Delta) :
    (scaledTree t steps ds).rolled =
      t.rolled.map fun r => { r with effect := scaledEffect t steps ds r.id r.effect } := by
  have hconditions : ((newConditions t.ids 0 ds).map (Node.record none)).filter
      (fun r => r.effect.isRolled) = [] := by
    refine List.filter_eq_nil_iff.mpr fun r hr => ?_
    obtain ⟨n, hn, rfl⟩ := List.mem_map.mp hr
    obtain ⟨c, hc⟩ := exists_condition_of_mem_newConditions hn
    simp [Node.record, hc, Effect.isRolled, Effect.formula?]
  have hkept : ∀ r : Record, (scaledEffect t steps ds r.id r.effect).isRolled =
      r.effect.isRolled := by
    intro r
    simp [Effect.isRolled, formula?_scaledEffect]
  rw [(Valid.scaledTree h steps ds).rolled_eq, h.rolled_eq, records_scaledTree,
    List.filter_append, hconditions, List.append_nil, List.filter_map]
  congr 1
  exact List.filter_congr fun r _ => hkept r

/-- An effect can be rolled after scaling if its formula can hold every number that is added to
it. -/
theorem readable_scaledEffect_iff {t : Tree} {r : Record} (hread : Readable r) {steps : UInt32}
    {ds : List Delta} :
    Readable { r with effect := scaledEffect t steps ds r.id r.effect } ↔
      ∀ d ∈ ds, formulaAddress t d.target = some r.id → FitsFormula steps d := by
  obtain ⟨text, f, htext, hf⟩ := hread
  have hlong : (scaledEffect t steps ds r.id r.effect).formula? =
      some (text ++ String.ofList (termsFor t steps ds r.id)) := by
    rw [formula?_scaledEffect, htext]
    rfl
  have hreadable : Readable { r with effect := scaledEffect t steps ds r.id r.effect } ↔
      ∃ g, Formula.read (text ++ String.ofList (termsFor t steps ds r.id)) = .ok g := by
    constructor
    · rintro ⟨text', g, htext', hg⟩
      rw [Option.some.inj (htext'.symm.trans hlong)] at hg
      exact ⟨g, hg⟩
    · rintro ⟨g, hg⟩
      exact ⟨_, g, hlong, hg⟩
  rw [hreadable, termsFor, exists_read_terms_iff hf]
  simp only [List.mem_filter, decide_eq_true_eq, and_imp]

/-- What a term is written to is damage or healing. -/
theorem exists_rolled_of_formulaAddress {t : Tree} (h : Valid t) {target : Option NodeId}
    {id : NodeId} (haddress : formulaAddress t target = some id) : ∃ r ∈ t.rolled, r.id = id := by
  have hfound : ∀ fits : Effect → Bool, (∀ e, fits e = true → e.isRolled = true) →
      addressIn t target fits = some id → ∃ r ∈ t.rolled, r.id = id := by
    intro fits hfits hin
    obtain ⟨r, hr, hrfits⟩ := exists_of_addressIn hin
    obtain ⟨hmem, hid⟩ := (get?_eq_some_iff h.ids_nodup).mp hr
    rw [h.rolled_eq]
    exact ⟨r, List.mem_filter.mpr ⟨hmem, hfits r.effect hrfits⟩, hid⟩
  rcases Option.or_eq_some_iff.mp haddress with hin | ⟨-, hin⟩
  · exact hfound Effect.isDamage (fun e he => by cases e <;> first | rfl | cases he) hin
  · exact hfound Effect.isHealing (fun e he => by cases e <;> first | rfl | cases he) hin

theorem readable_scaledTree_iff {t : Tree} (h : Valid t) (hread : ∀ r ∈ t.rolled, Readable r)
    (steps : UInt32) (ds : List Delta) :
    (∀ r ∈ (scaledTree t steps ds).rolled, Readable r) ↔
      ∀ d ∈ ds, formulaAddress t d.target ≠ none → FitsFormula steps d := by
  rw [rolled_scaledTree h, List.forall_mem_map]
  constructor
  · intro hall d hd hsome
    obtain ⟨id, haddress⟩ := Option.ne_none_iff_exists'.mp hsome
    obtain ⟨r, hr, rfl⟩ := exists_rolled_of_formulaAddress h haddress
    exact (readable_scaledEffect_iff (hread r hr)).mp (hall r hr) d hd haddress
  · intro hfits r hr
    refine (readable_scaledEffect_iff (hread r hr)).mpr fun d hd haddress => hfits d hd ?_
    rw [haddress]
    exact Option.some_ne_none r.id

end Upcast

open Upcast Activation

/-- Scaling keeps a tree readable, and so fit to be activated, unless it adds a number to a formula
that no formula can hold. -/
theorem Tree.Reachable.readable_scaleTree_iff (σ : Type u) [DiceSource σ] {t : Tree}
    (h : Reachable t) (hread : ∀ r ∈ t.rolled, Readable r) {scaling : Scaling}
    {choice : Option UInt64} {ds : List Delta} {label : Option String}
    (hselect : select scaling choice = .ok (ds, label)) (steps : UInt32) :
    ∃ t', scaleTree t scaling steps choice = .ok (t', label) ∧
      ((∀ r ∈ t'.rolled, Readable r) ↔
        steps = 0 ∨ ∀ d ∈ ds, formulaAddress t d.target ≠ none → FitsFormula steps d) ∧
      ∀ actor subject options (s : σ), subject ≠ .grantOnly →
        ((∃ a s', activate t' actor subject options s = (.ok a, s')) ↔
          ∀ r ∈ t'.rolled, Readable r) := by
  have hvalid := h.valid
  by_cases hsteps : steps = 0
  · refine ⟨t, scaleTree_unchanged t hselect (.inl hsteps), iff_of_true hread (.inl hsteps), ?_⟩
    intro actor subject options s hsubject
    exact hvalid.exists_activate_iff actor hsubject options s
  · refine ⟨scaledTree t steps ds, scaleTree_of_select hvalid hselect hsteps, ?_, ?_⟩
    · rw [readable_scaledTree_iff hvalid hread, or_iff_right hsteps]
    · intro actor subject options s hsubject
      exact (Valid.scaledTree hvalid steps ds).exists_activate_iff actor hsubject options s

theorem Tree.readable_fireball : ∀ r ∈ fireball.rolled, Readable r := by
  have hrolled : fireball.rolled =
      [⟨"fire", some "save", some .sharedRolls, .damage ⟨.fire, "3d8", none, none, none⟩⟩] := by
    decide
  intro r hr
  rw [hrolled] at hr
  rw [List.mem_singleton.mp hr]
  exact ⟨"3d8", ⟨"3d8", [⟨false, .dice 3 8⟩]⟩, rfl, by decide +kernel⟩

theorem Tree.readable_scaleTree_fireball :
    (∀ r ∈ fireball.rolled, Readable r) ∧
      select (Scaling.upcast fireballDeltas) none = .ok (fireballDeltas, none) ∧
      ∃ t', scaleTree fireball (Scaling.upcast fireballDeltas) 2 none = .ok (t', none) ∧
        ∀ r ∈ t'.rolled, Readable r := by
  have hselect : select (Scaling.upcast fireballDeltas) none = .ok (fireballDeltas, none) := rfl
  obtain ⟨t', hscaled, hiff, -⟩ := Reachable.readable_scaleTree_iff DiceScript
    built_fireball.reachable readable_fireball hselect 2
  have hfits : ∀ d ∈ fireballDeltas, FitsFormula 2 d := by
    intro d hd
    simp only [fireballDeltas, List.mem_cons, List.not_mem_nil, or_false] at hd
    rcases hd with rfl | rfl | rfl
    · intro dice hdice _
      cases hdice
      decide
    · show (amountOf _ 2).toInt ≠ _
      decide
    · trivial
  exact ⟨readable_fireball, hselect, t', hscaled,
    hiff.mpr (.inr fun d hd _ => hfits d hd)⟩

/-- The least integer of 64 bits as an amount of damage. -/
def hugeDeltas : List Delta :=
  [Delta.flatDamage Int64.minValue]

/-- The amount is computed without loss, but the formula it is written to cannot be read. -/
theorem Tree.readable_scaleTree_huge :
    Reachable fireball ∧ (∀ r ∈ fireball.rolled, Readable r) ∧
      select (Scaling.upcast hugeDeltas) none = .ok (hugeDeltas, none) ∧
      (∀ d ∈ hugeDeltas, (amountOf d 1).toInt = (d.value.getD 0).toInt * 1) ∧
      ∃ t', scaleTree fireball (Scaling.upcast hugeDeltas) 1 none = .ok (t', none) ∧
        ¬ ∀ r ∈ t'.rolled, Readable r := by
  have hreach : Reachable fireball := built_fireball.reachable
  have hselect : select (Scaling.upcast hugeDeltas) none = .ok (hugeDeltas, none) := rfl
  refine ⟨hreach, readable_fireball, hselect, by decide, _,
    scaleTree_of_select hreach.valid hselect (by decide), ?_⟩
  rw [readable_scaledTree_iff hreach.valid readable_fireball]
  intro hfits
  exact hfits (Delta.flatDamage Int64.minValue) List.mem_cons_self (by decide) (by decide)

end Spellwork
