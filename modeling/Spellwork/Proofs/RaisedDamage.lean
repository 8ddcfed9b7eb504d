import Spellwork.Proofs.AddedTerms

/-!
# Damage raised by a constant

A delta without a target that adds a constant finds the same damage as the activation does for its
primary roll: the first one of the walk. The term that it writes is read back as one more constant,
which draws no dice, so on the same dice the scaled tree rolls the same faces for the same effects,
and nothing but the total of the primary roll is another.
-/

namespace Spellwork

/-! ## One roll -/

/-- A damage roll made on the same dice with an amount more in its sum. `values` are the values that
the plain one shows. -/
structure Roll.Raised (amount : Int) (values : List (Bool × Int)) (roll raised : Roll) : Prop where
  faces_eq : raised.faces = roll.faces
  primary_eq : raised.primary = roll.primary
  isCritical_eq : raised.isCritical = roll.isCritical
  isMiss_eq : raised.isMiss = roll.isMiss
  of_miss : roll.isMiss = true → roll.total = 0 ∧ raised.total = 0
  of_unsaturated : roll.isMiss = false → Unsaturated 0 values →
    FitsInt64 (signedSum values + amount) →
      roll.total.toInt = max 0 (signedSum values) ∧
        raised.total.toInt = max 0 (signedSum values + amount)

section Rolls

variable {σ : Type u} [DiceSource σ]

/-- One more constant at the end of a formula raises its damage rolls. -/
theorem Formula.rollDamage_raised {f g : Formula} {negative : Bool} {n : Int64}
    (h : g.terms = f.terms ++ [⟨negative, .constant n⟩]) (config : PrimaryConfig) (s : σ) :
    (g.rollDamage config s).2 = (f.rollDamage config s).2 ∧
      (f.rollDamage config s).1.Raised (signed negative n.toInt)
        (shownValues config.modifier (f.rollDamage config s).1.primary f.terms
          (f.rollDamage config s).1.faces)
        (g.rollDamage config s).1 := by
  have hsum := toInt_rollDamageTerms config f.terms 0 s
  rw [rollDamage_eq g, rollDamage_eq f, h, rollDamageTerms_concat]
  obtain ⟨⟨⟨total, faces, primary⟩, s'⟩, hout⟩ : ∃ out, rollDamageTerms config f.terms 0 s = out :=
    ⟨_, rfl⟩
  rw [hout] at hsum ⊢
  refine ⟨rfl, rfl, rfl, rfl, rfl, fun hmiss => ⟨if_pos hmiss, if_pos hmiss⟩, ?_⟩
  intro hmiss hvalues hfits
  dsimp only at hmiss hvalues hfits hsum ⊢
  have hzero : (0 : Int64).toInt = 0 := rfl
  have hplain := hsum hvalues
  rw [hzero, Int.zero_add] at hplain
  rw [← hplain] at hfits ⊢
  rw [hmiss, if_neg Bool.false_ne_true, if_neg Bool.false_ne_true, toInt_max, toInt_max, hzero,
    toInt_apply hfits]
  exact ⟨Int.max_comm _ _, Int.max_comm _ _⟩

end Rolls

/-! ## One delta -/

namespace Upcast

open Spellwork.Tree Activation Formula

/-- The first damage of the walk, with what stands before and after it. -/
theorem exists_first_damage {t : Tree} (h : ∃ r ∈ t.records, r.effect.isDamage = true) :
    ∃ front r rest, t.records = front ++ r :: rest ∧ r.effect.isDamage = true ∧
      ∀ q ∈ front, q.effect.isDamage = false := by
  obtain ⟨q, hq, hdamage⟩ := h
  have hsome : (t.records.find? fun r => r.effect.isDamage).isSome :=
    List.find?_isSome.mpr ⟨q, hq, hdamage⟩
  obtain ⟨r, hr⟩ := Option.isSome_iff_exists.mp hsome
  obtain ⟨hdamage, front, rest, hsplit, hfront⟩ := List.find?_eq_some_iff_append.mp hr
  exact ⟨front, r, rest, hsplit, hdamage, fun q hq => by simpa using hfront q hq⟩

theorem formulaAddress_first {t : Tree} (h : Valid t) {front rest : List Record} {r : Record}
    (hsplit : t.records = front ++ r :: rest) (hdamage : r.effect.isDamage = true)
    (hfront : ∀ q ∈ front, q.effect.isDamage = false) : formulaAddress t none = some r.id := by
  have hfound : t.findEffect? Effect.isDamage = some r := by
    rw [findEffect?, hsplit]
    exact List.find?_eq_some_iff_append.mpr
      ⟨hdamage, front, rest, rfl, fun q hq => by simp [hfront q hq]⟩
  rw [formulaAddress, addressIn_eq h, locate, hfound]
  rfl

theorem scaledEffect_of_ne {t : Tree} {d : Delta} (hoperation : d.operation = .addFlatDamage)
    {id : NodeId} (haddress : formulaAddress t d.target ≠ some id) (steps : UInt32) (e : Effect) :
    scaledEffect t steps [d] id e = e := by
  have hterms : termsFor t steps [d] id = [] := by
    rw [termsFor_singleton, if_neg haddress]
  have hdc : dcFor t steps [d] id = fun dc => dc := by
    funext dc
    simp [dcFor_singleton, hoperation]
  cases e with
  | savingThrow s => simp [scaledEffect, hdc]
  | _ => simp [scaledEffect, hterms]

/-- The term for an amount is read back as a constant with its sign. -/
theorem read_append_flatTerm {text : String} {f : Formula} (h : Formula.read text = .ok f)
    {amount : Int64} (hsome : amount.toInt ≠ 0) (hfits : -0x8000000000000000 < amount.toInt) :
    ∃ g negative n, Formula.read (text ++ String.ofList (flatTerm amount)) = .ok g ∧
      g.terms = f.terms ++ [⟨negative, .constant n⟩] ∧ signed negative n.toInt = amount.toInt := by
  have hhigh : amount.toInt < 0x8000000000000000 := Int64.toInt_lt _
  have habs : amount.toInt.natAbs ≤ 0x7fffffffffffffff := by omega
  have hn : (Int64.ofNat amount.toInt.natAbs).toInt = amount.toInt.natAbs :=
    Int64.toInt_ofNat_of_lt (by omega)
  rw [flatTerm_signed (eq_signed amount.toInt) (Int.natAbs_pos.mpr hsome)]
  refine ⟨_, decide (amount.toInt < 0), Int64.ofNat amount.toInt.natAbs,
    read_append_constant h _ habs, rfl, ?_⟩
  rw [hn, ← eq_signed]

/-- The records that are rolled of a tree scaled by a constant: those of the tree, the first damage
with the term at the end of its formula. -/
theorem rolled_flatDamage {t : Tree} (h : Valid t)
    (hdamage : ∃ r ∈ t.records, r.effect.isDamage = true) {d : Delta}
    (hoperation : d.operation = .addFlatDamage) (htarget : d.target = none) (steps : UInt32) :
    ∃ front r rest, t.rolled = front ++ r :: rest ∧ r.effect.isDamage = true ∧
      (∀ q ∈ front, q.effect.isDamage = false) ∧ t.get? r.id = some r ∧
      (scaledTree t steps [d]).rolled = front ++
        { r with effect :=
            r.effect.appendFormula (String.ofList (flatTerm (amountOf d steps))) } :: rest := by
  obtain ⟨front, r, rest, hsplit, hr, hfront⟩ := exists_first_damage hdamage
  have haddress : formulaAddress t d.target = some r.id := by
    rw [htarget]
    exact formulaAddress_first h hsplit hr hfront
  have hrolled : r.effect.isRolled = true := by
    cases heffect : r.effect with
    | damage e => rfl
    | _ =>
        rw [heffect] at hr
        cases hr
  -- no other effect has the id that the delta is addressed to
  have hids := h.record_ids_nodup
  rw [hsplit, List.map_append, List.map_cons] at hids
  have hother : ∀ qs : List Record, (∀ q ∈ qs, q.id ≠ r.id) →
      (qs.map fun q => { q with effect := scaledEffect t steps [d] q.id q.effect }) = qs := by
    intro qs hqs
    refine (List.map_congr_left fun q hq => ?_).trans (List.map_id qs)
    have hne : formulaAddress t d.target ≠ some q.id := by
      rw [haddress]
      exact fun heq => hqs q hq (Option.some.inj heq).symm
    rw [scaledEffect_of_ne hoperation hne]
    rfl
  have hfirst : scaledEffect t steps [d] r.id r.effect =
      r.effect.appendFormula (String.ofList (flatTerm (amountOf d steps))) := by
    have hterms : termsFor t steps [d] r.id = flatTerm (amountOf d steps) := by
      rw [termsFor_singleton, if_pos haddress, termOf, hoperation]
    cases heffect : r.effect with
    | damage e => rw [scaledEffect, hterms, Effect.appendFormula]
    | _ =>
        rw [heffect] at hr
        cases hr
  have hrecord : r ∈ t.records := by simp [hsplit]
  have hroll : t.rolled = front.filter (fun q => q.effect.isRolled) ++
      r :: rest.filter (fun q => q.effect.isRolled) := by
    rw [h.rolled_eq, hsplit]
    simp only [List.filter_append, List.filter_cons, hrolled, if_true]
  refine ⟨_, r, _, hroll, hr, fun q hq => hfront q (List.mem_filter.mp hq).1,
    (get?_eq_some_iff h.ids_nodup).mpr ⟨hrecord, rfl⟩, ?_⟩
  rw [rolled_scaledTree h, hroll, List.map_append, List.map_cons, hfirst, hother, hother]
  · intro q hq heq
    have hmem : r.id ∈ rest.map Record.id := heq ▸ List.mem_map_of_mem (List.mem_filter.mp hq).1
    exact (List.nodup_cons.mp hids.of_append_right).1 hmem
  · intro q hq heq
    have hmem : q.id ∈ front.map Record.id := List.mem_map_of_mem (List.mem_filter.mp hq).1
    exact (List.nodup_append.mp hids).2.2 _ hmem _ (by rw [heq]; exact List.mem_cons_self) rfl

end Upcast

open Upcast Activation

/-- Rolls for the effects of a tree, and the rolls on the same dice when the formula of its first
damage has an amount more at its end. Nothing but the primary roll is another. -/
inductive RaisedRolls (actor : Actor) (t : Tree) (amount : Int) :
    List ResolvedRoll → List ResolvedRoll → Prop where
  | intro {before after : List ResolvedRoll} {x : ResolvedRoll} {raised : Roll} {r : Record}
      {d : Damage} {f : Formula} {config : PrimaryConfig} (hkind : x.kind = .primaryDamage)
      (hconfig : x.config = some config) (hothers : ∀ y ∈ before ++ after, y.kind ≠ .primaryDamage)
      (hrecord : t.get? x.id = some r) (heffect : r.effect = .damage d)
      (hread : Formula.read d.formula = .ok f)
      (hraised : x.roll.Raised amount
        (shownValues config.modifier x.roll.primary (f.resolve actor.rollData).terms x.roll.faces)
        raised) :
      RaisedRolls actor t amount (before ++ x :: after)
        (before ++ { x with roll := raised } :: after)

section Rolls

variable {σ : Type u} [DiceSource σ] (actor : Actor) (options : ActivationOptions)

theorem Activation.rollRecords_primary {r : Record} {d : Damage} {f : Formula}
    (heffect : r.effect = .damage d) (hread : Formula.read d.formula = .ok f)
    (rest : List Record) (s : σ) :
    rollRecords actor options true (r :: rest) s =
      let out := (f.resolve actor.rollData).rollDamage (primaryConfig d actor options) s
      let later := rollRecords actor options false rest out.2
      (later.1.map (⟨r.id, .primaryDamage, out.1, some (primaryConfig d actor options)⟩ :: ·),
        later.2) := by
  simp [rollRecords, heffect, formulaFor, hread]

/-- The rolls for records of which the first damage has one more constant in its formula. -/
theorem Activation.rollRecords_raised {front rest : List Record} {r : Record} {d : Damage}
    {text : String} {f g : Formula} {negative : Bool} {n : Int64}
    (hfront : ∀ q ∈ front, Readable q) (hrest : ∀ q ∈ rest, Readable q)
    (hhealing : ∀ q ∈ front, q.effect.isDamage = false) (heffect : r.effect = .damage d)
    (hf : Formula.read d.formula = .ok f) (hg : Formula.read text = .ok g)
    (hterms : g.terms = f.terms ++ [⟨negative, .constant n⟩]) (s : σ) :
    ∃ before roll raised after s',
      rollRecords actor options true (front ++ r :: rest) s =
        (.ok (before ++ ⟨r.id, .primaryDamage, roll, some (primaryConfig d actor options)⟩ ::
          after), s') ∧
      rollRecords actor options true
          (front ++ { r with effect := .damage { d with formula := text } } :: rest) s =
        (.ok (before ++ ⟨r.id, .primaryDamage, raised, some (primaryConfig d actor options)⟩ ::
          after), s') ∧
      (∀ y ∈ before ++ after, y.kind ≠ .primaryDamage) ∧
      roll.Raised (signed negative n.toInt)
        (shownValues options.modifier roll.primary (f.resolve actor.rollData).terms roll.faces)
        raised := by
  obtain ⟨before, s₁, hbefore, hbeforeRun⟩ := rollRecords_append actor options hfront true s
  have hopen : (true && front.all fun q => !q.effect.isDamage) = true := by
    simpa using hhealing
  rw [hopen] at hbeforeRun
  obtain ⟨⟨roll, s₂⟩, hroll⟩ : ∃ out, (f.resolve actor.rollData).rollDamage
      (primaryConfig d actor options) s₁ = out := ⟨_, rfl⟩
  obtain ⟨⟨raised, s₃⟩, hraisedRoll⟩ : ∃ out, (g.resolve actor.rollData).rollDamage
      (primaryConfig d actor options) s₁ = out := ⟨_, rfl⟩
  have hresolved : (g.resolve actor.rollData).terms =
      (f.resolve actor.rollData).terms ++ [⟨negative, .constant n⟩] := by
    simp [Formula.resolve, hterms, Formula.resolveTerm]
  obtain ⟨hdice, hraised⟩ :=
    Formula.rollDamage_raised hresolved (primaryConfig d actor options) s₁
  rw [hroll, hraisedRoll] at hdice hraised
  obtain rfl : s₃ = s₂ := hdice
  obtain ⟨after, s', hafter, hafterRun⟩ := rollRecords_of_readable actor options hrest false s₃
  have hlater := hafter.kind_ne fun hfalse => absurd hfalse Bool.false_ne_true
  refine ⟨before, roll, raised, after, s', ?_, ?_, ?_, hraised⟩
  · rw [hbeforeRun, rollRecords_primary actor options heffect hf, hroll]
    simp only [hafterRun]
    rfl
  · have hconfig : primaryConfig { d with formula := text } actor options =
        primaryConfig d actor options := rfl
    rw [hbeforeRun, rollRecords_primary actor options rfl hg, hconfig, hraisedRoll]
    simp only [hafterRun]
    rfl
  · intro y hy
    rcases List.mem_append.mp hy with hy | hy
    · exact hbefore.kind_ne (fun _ => hhealing) y hy
    · exact hlater y hy

end Rolls

/-- Where a constant is added to the first damage of a readable tree, the same dice show the same
faces for the same effects, and the primary roll has the constant more in its sum. -/
theorem Tree.Reachable.activate_flatDamage {σ : Type u} [DiceSource σ] {t : Tree}
    (h : Reachable t) (hdamage : ∃ r ∈ t.records, r.effect.isDamage = true)
    (hread : ∀ r ∈ t.rolled, Readable r) {d : Delta} (hoperation : d.operation = .addFlatDamage)
    (htarget : d.target = none) {steps : UInt32}
    (hsome : (d.value.getD 0).toInt * steps.toNat ≠ 0)
    (hfits : ((d.value.getD 0).toInt * steps.toNat).natAbs ≤ 0x7fffffffffffffff)
    (choice : Option UInt64) (actor : Actor) {subject : Subject} (hsubject : subject ≠ .grantOnly)
    (options : ActivationOptions) (s : σ) :
    ∃ t' rolls rolls' s', scaleTree t (Scaling.upcast [d]) steps choice = .ok (t', none) ∧
      activate t actor subject options s =
        (.ok ⟨rolls, annotate t rolls, options.fastForward⟩, s') ∧
      activate t' actor subject options s =
        (.ok ⟨rolls', annotate t' rolls', options.fastForward⟩, s') ∧
      RaisedRolls actor t ((d.value.getD 0).toInt * steps.toNat) rolls rolls' := by
  have hvalid := h.valid
  have hsteps : steps ≠ 0 := by
    rintro rfl
    simp at hsome
  have hamount : (amountOf d steps).toInt = (d.value.getD 0).toInt * steps.toNat :=
    toInt_clamp64 (by omega) (by omega)
  obtain ⟨front, r, rest, hrolled, hr, hfront, hget, hscaled⟩ :=
    rolled_flatDamage hvalid hdamage hoperation htarget steps
  obtain ⟨e, heffect⟩ : ∃ e, r.effect = .damage e := by
    cases heffect : r.effect with
    | damage e => exact ⟨e, rfl⟩
    | _ =>
        rw [heffect] at hr
        cases hr
  obtain ⟨text, f, htext, hf⟩ := hread r (by simp [hrolled])
  rw [heffect] at htext
  cases htext
  obtain ⟨g, negative, n, hg, hterms, hsigned⟩ :=
    read_append_flatTerm hf (by rwa [hamount]) (by rw [hamount]; omega)
  have hfrontRead : ∀ q ∈ front, Readable q := fun q hq => hread q (by simp [hrolled, hq])
  have hrestRead : ∀ q ∈ rest, Readable q := fun q hq => hread q (by simp [hrolled, hq])
  obtain ⟨before, roll, raised, after, s', hrun, hraisedRun, hkinds, hraised⟩ :=
    rollRecords_raised actor options hfrontRead hrestRead hfront heffect hf hg hterms s
  rw [← hrolled] at hrun
  rw [heffect, Effect.appendFormula] at hscaled
  rw [← hscaled] at hraisedRun
  rw [hsigned, hamount] at hraised
  let x : ResolvedRoll := ⟨r.id, .primaryDamage, roll, some (primaryConfig e actor options)⟩
  have hrolls : RaisedRolls actor t ((d.value.getD 0).toInt * steps.toNat)
      (before ++ x :: after) (before ++ { x with roll := raised } :: after) :=
    .intro rfl rfl hkinds hget heffect hf hraised
  refine ⟨scaledTree t steps [d], _, _, s', scaleTree_of_select hvalid rfl hsteps, ?_, ?_, hrolls⟩
  · rw [hvalid.activate_of_hasRolls actor hsubject, hrun]
    rfl
  · rw [(Valid.scaledTree hvalid steps [d]).activate_of_hasRolls actor hsubject, hraisedRun]
    rfl

/-- The healing in front stays as it is; the fire bolt behind it deals 8 more. -/
theorem Tree.activate_flatDamage_healingFirst :
    (∃ r ∈ healingFirst.records, r.effect.isDamage = true) ∧
      (∀ r ∈ healingFirst.rolled, Readable r) ∧
      ∃ t' rolls rolls' s',
        scaleTree healingFirst (Scaling.upcast [Delta.flatDamage 4]) 2 none = .ok (t', none) ∧
        activate healingFirst {} .spell {} (DiceScript.mk [4, 6, 6, 2] 2) =
          (.ok ⟨rolls, annotate healingFirst rolls, false⟩, s') ∧
        activate t' {} .spell {} (DiceScript.mk [4, 6, 6, 2] 2) =
          (.ok ⟨rolls', annotate t' rolls', false⟩, s') ∧
        RaisedRolls {} healingFirst 8 rolls rolls' := by
  have hreach : Reachable healingFirst := built_healingFirst.reachable
  have hdamage : ∃ r ∈ healingFirst.records, r.effect.isDamage = true := by decide
  have hamount : ((4 : Int64).toInt * (2 : UInt32).toNat : Int) = 8 := by decide
  refine ⟨hdamage, readable_healingFirst, ?_⟩
  rw [← hamount]
  exact Reachable.activate_flatDamage hreach hdamage readable_healingFirst rfl rfl (by decide)
    (by decide) none {} (by decide) {} _

end Spellwork
