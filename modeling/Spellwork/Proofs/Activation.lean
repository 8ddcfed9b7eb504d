import Spellwork.Proofs.Reachable
import Spellwork.Proofs.WellFormed

/-!
# What an activation rolls

An activation rolls for the damage and the healing of a tree in the order of the walk
(`Tree.rolled`), one roll each, and the dice pass from one roll to the next (`RolledInOrder`). The
first damage has the primary roll, whatever healing stands before it. The tree that comes back is
the one given with the result of every roll noted on the effect that it was made for; where a
formula cannot be read, the first such effect is reported.
-/

namespace Spellwork

/-- Whether something is rolled for the effect. -/
def Effect.isRolled (e : Effect) : Bool :=
  e.formula?.isSome

/-- The records of the effects that something is rolled for, in the order of the walk. -/
def Tree.rolled (t : Tree) : List Record :=
  (t.preorder.filterMap t.get?).filter fun r => r.effect.isRolled

namespace Activation

/-- The formula of the record's effect can be read. -/
def Readable (r : Record) : Prop :=
  ∃ text f, r.effect.formula? = some text ∧ Formula.read text = .ok f

theorem exists_first_unreadable {rs : List Record} (h : ∃ r ∈ rs, ¬ Readable r) :
    ∃ front r rest, rs = front ++ r :: rest ∧ (∀ q ∈ front, Readable q) ∧ ¬ Readable r := by
  induction rs with
  | nil =>
      obtain ⟨r, hr, -⟩ := h
      cases hr
  | cons r rs ih =>
      by_cases hread : Readable r
      · obtain ⟨q, hq, hlost⟩ := h
        rcases List.mem_cons.mp hq with rfl | hq
        · exact absurd hread hlost
        · obtain ⟨front, q', rest, rfl, hfront, hq'⟩ := ih ⟨q, hq, hlost⟩
          refine ⟨r :: front, q', rest, rfl, fun p hp => ?_, hq'⟩
          rcases List.mem_cons.mp hp with rfl | hp
          · exact hread
          · exact hfront p hp
      · exact ⟨[], r, rs, rfl, fun p hp => (List.not_mem_nil hp).elim, hread⟩

/-- A formula that cannot be read has a fault. -/
theorem exists_fault_of_not_readable {r : Record} (hrolled : r.effect.isRolled = true)
    (h : ¬ Readable r) :
    ∃ text cause, r.effect.formula? = some text ∧ Formula.read text = .error cause := by
  obtain ⟨text, htext⟩ := Option.isSome_iff_exists.mp hrolled
  cases hread : Formula.read text with
  | ok f => exact absurd ⟨text, f, htext, hread⟩ h
  | error cause => exact ⟨text, cause, htext, hread⟩

section Rolls

variable {σ : Type u} [DiceSource σ] {actor : Actor} {options : ActivationOptions}

/-- The roll that is made for a record, and the dice before and after it. `opening` says that no
damage has been rolled yet. -/
inductive RolledFor (actor : Actor) (options : ActivationOptions) (opening : Prop) (r : Record)
    (s : σ) : ResolvedRoll → σ → Prop where
  | primary {d : Damage} {f : Formula} {roll : Roll} {s' : σ} (heffect : r.effect = .damage d)
      (hread : Formula.read d.formula = .ok f) (hopening : opening)
      (hroll : (f.resolve actor.rollData).rollDamage (primaryConfig d actor options) s =
        (roll, s')) :
      RolledFor actor options opening r s
        ⟨r.id, .primaryDamage, roll, some (primaryConfig d actor options)⟩ s'
  | later {d : Damage} {f : Formula} {roll : Roll} {s' : σ} (heffect : r.effect = .damage d)
      (hread : Formula.read d.formula = .ok f) (hlater : ¬ opening)
      (hroll : (f.resolve actor.rollData).rollPlain s = (roll, s')) :
      RolledFor actor options opening r s ⟨r.id, .damage, roll, none⟩ s'
  | healing {h : Healing} {f : Formula} {roll : Roll} {s' : σ} (heffect : r.effect = .healing h)
      (hread : Formula.read h.formula = .ok f)
      (hroll : (f.resolve actor.rollData).rollPlain s = (roll, s')) :
      RolledFor actor options opening r s ⟨r.id, .healing, roll, none⟩ s'

/-- Rolls made for records, one each and in their order; `dice i` are the dice as the first `i`
rolls left them. `primary` says that the primary roll is still to be made. -/
structure RolledInOrder (actor : Actor) (options : ActivationOptions) (primary : Bool)
    (rs : List Record) (s : σ) (rolls : List ResolvedRoll) (s' : σ) : Prop where
  length_eq : rolls.length = rs.length
  threaded : ∃ dice : Nat → σ, dice 0 = s ∧ dice rs.length = s' ∧
    ∀ i r x, rs[i]? = some r → rolls[i]? = some x →
      RolledFor actor options (primary = true ∧ ∀ q ∈ rs.take i, q.effect.isDamage = false) r
        (dice i) x (dice (i + 1))

theorem RolledFor.id_eq {opening : Prop} {r : Record} {s s' : σ} {x : ResolvedRoll}
    (h : RolledFor actor options opening r s x s') : x.id = r.id := by
  cases h <;> rfl

theorem RolledFor.kind_ne {opening : Prop} {r : Record} {s s' : σ} {x : ResolvedRoll}
    (h : RolledFor actor options opening r s x s')
    (hnone : opening → r.effect.isDamage = false) : x.kind ≠ .primaryDamage := by
  cases h with
  | primary heffect hread hopening hroll =>
      have hdamage := hnone hopening
      rw [heffect] at hdamage
      cases hdamage
  | later => exact RollKind.noConfusion
  | healing => exact RollKind.noConfusion

theorem RolledFor.congr {opening opening' : Prop} {r : Record} {s s' : σ} {x : ResolvedRoll}
    (hiff : opening ↔ opening') (h : RolledFor actor options opening r s x s') :
    RolledFor actor options opening' r s x s' := by
  rwa [propext hiff] at h

theorem RolledInOrder.map_id {primary : Bool} {rs : List Record} {s s' : σ}
    {rolls : List ResolvedRoll} (h : RolledInOrder actor options primary rs s rolls s') :
    rolls.map ResolvedRoll.id = rs.map Record.id := by
  obtain ⟨hlen, dice, -, -, hroll⟩ := h
  refine List.ext_getElem (by simp [hlen]) fun i hi hi' => ?_
  rw [List.length_map] at hi hi'
  have hx := hroll i _ _ (List.getElem?_eq_getElem hi') (List.getElem?_eq_getElem hi)
  simpa using hx.id_eq

/-- Every roll was made for a record, with the dice as the rolls before it left them. -/
theorem RolledInOrder.exists_rolledFor {primary : Bool} {rs : List Record} {s s' : σ}
    {rolls : List ResolvedRoll} (h : RolledInOrder actor options primary rs s rolls s')
    {x : ResolvedRoll} (hx : x ∈ rolls) :
    ∃ (i : Nat) (r : Record) (s₁ s₂ : σ), rs[i]? = some r ∧ RolledFor actor options
      (primary = true ∧ ∀ q ∈ rs.take i, q.effect.isDamage = false) r s₁ x s₂ := by
  obtain ⟨hlen, dice, -, -, hroll⟩ := h
  obtain ⟨i, hi, rfl⟩ := List.getElem_of_mem hx
  have hi' : i < rs.length := hlen ▸ hi
  exact ⟨i, rs[i], dice i, dice (i + 1), List.getElem?_eq_getElem hi',
    hroll i _ _ (List.getElem?_eq_getElem hi') (List.getElem?_eq_getElem hi)⟩

/-- Where no primary roll is to be made, or there is no damage to make it for, none is made. -/
theorem RolledInOrder.kind_ne {primary : Bool} {rs : List Record} {s s' : σ}
    {rolls : List ResolvedRoll} (h : RolledInOrder actor options primary rs s rolls s')
    (hnone : primary = true → ∀ r ∈ rs, r.effect.isDamage = false) :
    ∀ x ∈ rolls, x.kind ≠ .primaryDamage := by
  intro x hx
  obtain ⟨i, r, s₁, s₂, hr, hfor⟩ := h.exists_rolledFor hx
  exact hfor.kind_ne fun hopening => hnone hopening.1 r (List.mem_of_getElem? hr)

theorem RolledInOrder.nil (primary : Bool) (s : σ) :
    RolledInOrder actor options primary [] s [] s where
  length_eq := rfl
  threaded := ⟨fun _ => s, rfl, rfl, fun i r x hr _ => by simp at hr⟩

theorem RolledInOrder.cons {primary : Bool} {r : Record} {rest : List Record} {s s₁ s' : σ}
    {x : ResolvedRoll} {rolls : List ResolvedRoll}
    (hx : RolledFor actor options (primary = true) r s x s₁)
    (h : RolledInOrder actor options (primary && !r.effect.isDamage) rest s₁ rolls s') :
    RolledInOrder actor options primary (r :: rest) s (x :: rolls) s' := by
  obtain ⟨hlen, dice, hstart, hend, hroll⟩ := h
  -- the dice at hand, and then those of the rest
  refine ⟨by simp [hlen], fun i => Nat.casesOn i s dice, rfl, hend, fun i q y hq hy => ?_⟩
  cases i with
  | zero =>
      cases hq
      cases hy
      show RolledFor actor options _ r s x (dice 0)
      rw [hstart]
      exact hx.congr (by simp)
  | succ i =>
      have hlater := hroll i q y hq hy
      refine hlater.congr ?_
      simp [and_assoc]

/-! ## One record after the other -/

variable (actor options)

/-- A record that can be rolled takes one roll, and whatever stands behind it goes on with the dice
it leaves. -/
theorem rollRecords_cons {r : Record} (hr : Readable r) (primary : Bool) (s : σ) :
    ∃ x s₁, RolledFor actor options (primary = true) r s x s₁ ∧ ∀ rest,
      rollRecords actor options primary (r :: rest) s =
        ((rollRecords actor options (primary && !r.effect.isDamage) rest s₁).1.map (x :: ·),
          (rollRecords actor options (primary && !r.effect.isDamage) rest s₁).2) := by
  obtain ⟨id, parent, outcome, effect⟩ := r
  obtain ⟨text, f, htext, hread⟩ := hr
  cases effect with
  | damage d =>
      cases htext
      cases primary with
      | true =>
          obtain ⟨⟨roll, s₁⟩, hroll⟩ : ∃ out,
              (f.resolve actor.rollData).rollDamage (primaryConfig d actor options) s = out :=
            ⟨_, rfl⟩
          refine ⟨_, s₁, .primary rfl hread rfl hroll, fun rest => ?_⟩
          simp [rollRecords, formulaFor, hread, hroll, Effect.isDamage]
      | false =>
          obtain ⟨⟨roll, s₁⟩, hroll⟩ : ∃ out, (f.resolve actor.rollData).rollPlain s = out :=
            ⟨_, rfl⟩
          refine ⟨_, s₁, .later rfl hread (by simp) hroll, fun rest => ?_⟩
          simp [rollRecords, formulaFor, hread, hroll]
  | healing h =>
      cases htext
      obtain ⟨⟨roll, s₁⟩, hroll⟩ : ∃ out, (f.resolve actor.rollData).rollPlain s = out :=
        ⟨_, rfl⟩
      refine ⟨_, s₁, .healing rfl hread hroll, fun rest => ?_⟩
      simp [rollRecords, formulaFor, hread, hroll, Effect.isDamage]
  | _ => cases htext

/-- Records that can be rolled take one roll each, and whatever stands behind them goes on with the
dice they leave. -/
theorem rollRecords_append {front : List Record} (hfront : ∀ r ∈ front, Readable r)
    (primary : Bool) (s : σ) :
    ∃ rolls s₁, RolledInOrder actor options primary front s rolls s₁ ∧ ∀ rest,
      rollRecords actor options primary (front ++ rest) s =
        ((rollRecords actor options (primary && front.all fun r => !r.effect.isDamage) rest
            s₁).1.map (rolls ++ ·),
          (rollRecords actor options (primary && front.all fun r => !r.effect.isDamage) rest
            s₁).2) := by
  induction front generalizing primary s with
  | nil =>
      refine ⟨[], s, .nil primary s, fun rest => ?_⟩
      rw [List.all_nil, Bool.and_true, List.nil_append]
      cases rollRecords actor options primary rest s with
      | mk rolls s₁ => cases rolls <;> rfl
  | cons r front ih =>
      obtain ⟨x, s₁, hx, hstep⟩ := rollRecords_cons actor options (hfront r (by simp)) primary s
      obtain ⟨rolls, s', hrolls, hrest⟩ :=
        ih (fun q hq => hfront q (List.mem_cons_of_mem r hq)) (primary && !r.effect.isDamage) s₁
      refine ⟨x :: rolls, s', hrolls.cons hx, fun rest => ?_⟩
      rw [List.cons_append, hstep, hrest, List.all_cons, Bool.and_assoc]
      cases rollRecords actor options
          (primary && (!r.effect.isDamage && front.all fun r => !r.effect.isDamage)) rest s' with
      | mk later s₂ => cases later <;> rfl

theorem rollRecords_cons_error {r : Record} {text : String} {cause : FormulaError}
    (htext : r.effect.formula? = some text) (hread : Formula.read text = .error cause)
    (primary : Bool) (rest : List Record) (s : σ) :
    rollRecords actor options primary (r :: rest) s = (.error ⟨r.id, text, cause⟩, s) := by
  obtain ⟨id, parent, outcome, effect⟩ := r
  cases effect with
  | damage d =>
      cases htext
      simp [rollRecords, formulaFor, hread]
  | healing h =>
      cases htext
      simp [rollRecords, formulaFor, hread]
  | _ => cases htext

theorem rollRecords_of_readable {rs : List Record} (hrs : ∀ r ∈ rs, Readable r) (primary : Bool)
    (s : σ) : ∃ rolls s', RolledInOrder actor options primary rs s rolls s' ∧
      rollRecords actor options primary rs s = (.ok rolls, s') := by
  obtain ⟨rolls, s', hrolls, hrun⟩ := rollRecords_append actor options hrs primary s
  refine ⟨rolls, s', hrolls, ?_⟩
  have hall := hrun []
  rw [List.append_nil] at hall
  rw [hall]
  simp [rollRecords, Except.map]

/-- The first formula that cannot be read ends the rolling; the dice stay as the rolls before it
left them. -/
theorem rollRecords_of_unreadable {front : List Record} {r : Record} {text : String}
    {cause : FormulaError} (hfront : ∀ q ∈ front, Readable q)
    (htext : r.effect.formula? = some text) (hread : Formula.read text = .error cause)
    (rest : List Record) (primary : Bool) (s : σ) :
    ∃ rolls s', RolledInOrder actor options primary front s rolls s' ∧
      rollRecords actor options primary (front ++ r :: rest) s =
        (.error ⟨r.id, text, cause⟩, s') := by
  obtain ⟨rolls, s', hrolls, hrun⟩ := rollRecords_append actor options hfront primary s
  refine ⟨rolls, s', hrolls, ?_⟩
  rw [hrun, rollRecords_cons_error actor options htext hread]
  rfl

/-! ## The records of a tree -/

theorem rollRecords_filter (primary : Bool) (rs : List Record) (s : σ) :
    rollRecords actor options primary rs s =
      rollRecords actor options primary (rs.filter fun r => r.effect.isRolled) s := by
  induction rs generalizing primary s with
  | nil => rfl
  | cons r rest ih =>
      obtain ⟨id, parent, outcome, effect⟩ := r
      cases effect with
      | damage d =>
          rw [List.filter_cons_of_pos rfl]
          simp only [rollRecords, ih]
      | healing h =>
          rw [List.filter_cons_of_pos rfl]
          simp only [rollRecords, ih]
      | _ =>
          rw [List.filter_cons_of_neg (by simp [Effect.isRolled, Effect.formula?])]
          exact ih primary s

/-- Rolling looks at ids and effects alone, not at places. -/
theorem rollRecords_rehome (parent : Option NodeId) (outcome : Option Outcome) (primary : Bool)
    (rs : List Record) (s : σ) :
    rollRecords actor options primary (rs.map (Tree.rehome parent outcome)) s =
      rollRecords actor options primary rs s := by
  induction rs generalizing primary s with
  | nil => rfl
  | cons r rest ih =>
      have hid : (Tree.rehome parent outcome r).id = r.id := by
        unfold Tree.rehome
        split <;> rfl
      have heffect : (Tree.rehome parent outcome r).effect = r.effect := by
        unfold Tree.rehome
        split <;> rfl
      simp only [List.map_cons, rollRecords, hid, heffect, ih]

end Rolls

end Activation

namespace Tree

theorem Valid.rolled_eq {t : Tree} (h : Valid t) :
    t.rolled = t.records.filter fun r => r.effect.isRolled := by
  rw [rolled, h.filterMap_get?_preorder]

theorem Valid.nodup_ids_rolled {t : Tree} (h : Valid t) : (t.rolled.map Record.id).Nodup := by
  rw [h.rolled_eq]
  exact (List.filter_sublist.map Record.id).nodup h.record_ids_nodup

theorem Valid.rollRecords_flatten {σ : Type u} [DiceSource σ] {t : Tree} (h : Valid t)
    (actor : Actor) (options : ActivationOptions) (s : σ) :
    Activation.rollRecords actor options true t.flatten s =
      Activation.rollRecords actor options true t.rolled s := by
  rw [flatten, flattenUnder, Activation.rollRecords_rehome, Activation.rollRecords_filter,
    h.rolled_eq]

end Tree

/-! ## Notes -/

/-- The result of a roll that is noted on the effect. -/
def Effect.rollNote? : Effect → Option RollNote
  | damage d => d.rollNote
  | healing h => h.rollNote
  | _ => none

theorem Effect.isRolled_of_rollNote? {e : Effect} {note : RollNote}
    (h : e.rollNote? = some note) : e.isRolled = true := by
  cases e with
  | damage d => rfl
  | healing h' => rfl
  | _ => cases h

theorem Effect.rollNote?_withRollNote {e : Effect} {note note' : RollNote}
    (h : (e.withRollNote note).rollNote? = some note') : note' = note := by
  cases e with
  | damage d => exact (Option.some.inj h).symm
  | healing h' => exact (Option.some.inj h).symm
  | _ => cases h

namespace Activation

/-- A node with the result of the roll made for it, if there is one. -/
def noted (rolls : List ResolvedRoll) (n : Node) : Node :=
  match rolls.find? fun x => x.id = n.id with
  | some x => { n with effect := n.effect.withRollNote x.note }
  | none => n

theorem annotate_eq {rolls : List ResolvedRoll} (hnd : (rolls.map ResolvedRoll.id).Nodup)
    (t : Tree) : annotate t rolls = t.map (noted rolls) := by
  induction rolls generalizing t with
  | nil => exact (Forest.map_id t).symm
  | cons x rolls ih =>
      rw [List.map_cons, List.nodup_cons] at hnd
      obtain ⟨hx, hrest⟩ := hnd
      show annotate (t.map (Tree.adjustNode x.id fun e => e.withRollNote x.note)) rolls = _
      rw [ih hrest, Forest.map_map]
      refine Forest.map_congr fun n _ => ?_
      by_cases hid : x.id = n.id
      · -- no later roll is for the same effect
        have hlater : (rolls.find? fun y => y.id = n.id) = none :=
          List.find?_eq_none.mpr fun y hy => by
            have hne : y.id ≠ x.id := fun heq => hx (heq ▸ List.mem_map_of_mem hy)
            simpa [← hid] using hne
        simp [noted, Tree.adjustNode, hid, hlater]
      · simp [noted, Tree.adjustNode, hid, Ne.symm hid]

/-- An effect after a roll for it: damage or healing that shows the total and whether it was a
critical hit or a miss, and is otherwise as it was. -/
inductive Shows (roll : Roll) : Effect → Effect → Prop where
  | damage (d : Damage) : Shows roll (.damage d) (.damage { d with
      rollNote := some
        { total := roll.total, isCritical := roll.isCritical, isMiss := roll.isMiss } })
  | healing (h : Healing) : Shows roll (.healing h) (.healing { h with
      rollNote := some
        { total := roll.total, isCritical := roll.isCritical, isMiss := roll.isMiss } })

/-- A tree after rolls for its damage and healing, one each and in the order of the walk. Everything
stands where it stood, under its outcome; what was rolled for shows its own roll, and the rest is as
it was. -/
structure Annotated (t : Tree) (rolls : List ResolvedRoll) (t' : Tree) : Prop where
  shape : t'.map (fun n => (n.id, n.outcome)) = t.map fun n => (n.id, n.outcome)
  shown : ∀ (i : Nat) r x, t.rolled[i]? = some r → rolls[i]? = some x →
    ∃ e, Shows x.roll r.effect e ∧ t'.get? r.id = some { r with effect := e }
  kept : ∀ id r, t.get? id = some r → r.effect.isRolled = false → t'.get? id = some r

theorem shows_withRollNote {e : Effect} (h : e.isRolled = true) (x : ResolvedRoll) :
    Shows x.roll e (e.withRollNote x.note) := by
  cases e with
  | damage d => exact .damage d
  | healing h' => exact .healing h'
  | _ => cases h

theorem get?_map_noted (rolls : List ResolvedRoll) {t : Tree} {id : NodeId} {r : Record}
    (hr : t.get? id = some r) :
    Tree.get? (t.map (noted rolls)) id =
      some { r with effect := (noted rolls r.node).effect } := by
  have hid : ∀ n : Node, (noted rolls n).id = n.id := by
    intro n
    unfold noted
    split <;> rfl
  have houtcome : ∀ n : Node, (noted rolls n).outcome = n.outcome := by
    intro n
    unfold noted
    split <;> rfl
  have hrecord : ∀ r : Record, (noted rolls r.node).record r.parent =
      { r with effect := (noted rolls r.node).effect } := by
    intro r
    rw [Node.record, hid, houtcome]
    rfl
  unfold Tree.get? Tree.records at hr ⊢
  rw [Tree.recordsBelow_map hid]
  simp only [hrecord, List.find?_map, Function.comp_def]
  rw [hr]
  rfl

/-- The rolls for damage and healing, one each, are noted on what they were made for. -/
theorem annotated_noted {t : Tree} (h : Tree.Valid t) {rolls : List ResolvedRoll}
    (hids : rolls.map ResolvedRoll.id = t.rolled.map Record.id) :
    Annotated t rolls (t.map (noted rolls)) := by
  have hnd : (rolls.map ResolvedRoll.id).Nodup := hids ▸ h.nodup_ids_rolled
  refine ⟨?_, fun i r x hr hx => ?_, fun id r hr hidle => ?_⟩
  · rw [Forest.map_map]
    refine Forest.map_congr fun n _ => ?_
    unfold noted
    split <;> rfl
  · have hid : x.id = r.id := by
      have hat := congrArg (·[i]?) hids
      simpa [hr, hx] using hat
    have hmem : r ∈ t.rolled := List.mem_of_getElem? hr
    have hfind : (rolls.find? fun y => y.id = r.id) = some x :=
      (find?_key_eq_some_iff hnd).mpr ⟨List.mem_of_getElem? hx, hid⟩
    have hget : t.get? r.id = some r := by
      rw [h.rolled_eq] at hmem
      exact (Tree.get?_eq_some_iff h.ids_nodup).mpr ⟨(List.mem_filter.mp hmem).1, rfl⟩
    refine ⟨r.effect.withRollNote x.note, shows_withRollNote (List.mem_filter.mp hmem).2 x, ?_⟩
    rw [get?_map_noted rolls hget]
    unfold noted Record.node
    rw [hfind]
  · -- the roll would have been made for an effect of the same id, which is this one
    have hnone : (rolls.find? fun y => y.id = r.id) = none := by
      refine List.find?_eq_none.mpr fun y hy heq => ?_
      have hmem : y.id ∈ t.rolled.map Record.id := hids ▸ List.mem_map_of_mem hy
      obtain ⟨q, hq, hqid⟩ := List.mem_map.mp hmem
      have hq' := List.mem_filter.mp (h.rolled_eq ▸ hq)
      have hr' := (Tree.get?_eq_some_iff h.ids_nodup).mp hr
      have hqr : q = r := by
        refine Record.eq_of_id h.record_ids_nodup hq'.1 hr'.1 (hqid.trans ?_)
        simpa using heq
      rw [hqr, hidle] at hq'
      cases hq'.2
    rw [get?_map_noted rolls hr]
    unfold noted Record.node
    rw [hnone]

/-- Where every effect that is rolled for has its roll, the notes are those of the rolls. -/
theorem exists_of_rollNote?_noted {rolls : List ResolvedRoll} {n : Node} {note : RollNote}
    (hall : n.effect.isRolled = true → n.id ∈ rolls.map ResolvedRoll.id)
    (hnote : (noted rolls n).effect.rollNote? = some note) :
    ∃ x ∈ rolls, x.id = n.id ∧ x.note = note := by
  unfold noted at hnote
  cases hfind : rolls.find? fun x => x.id = n.id with
  | some x =>
      rw [hfind] at hnote
      have hid : x.id = n.id := by simpa using List.find?_some hfind
      exact ⟨x, List.mem_of_find?_eq_some hfind, hid, (Effect.rollNote?_withRollNote hnote).symm⟩
  | none =>
      rw [hfind] at hnote
      obtain ⟨x, hx, hid⟩ := List.mem_map.mp (hall (Effect.isRolled_of_rollNote? hnote))
      exact absurd (decide_eq_true hid) (List.find?_eq_none.mp hfind x hx)

end Activation

open Activation

theorem Tree.Valid.activate_of_hasRolls {σ : Type u} [DiceSource σ] {t : Tree} (h : Valid t)
    (actor : Actor) {subject : Subject} (hsubject : subject ≠ .grantOnly)
    (options : ActivationOptions) (s : σ) :
    activate t actor subject options s =
      ((rollRecords actor options true t.rolled s).1.map fun rolls =>
        ⟨rolls, annotate t rolls, options.fastForward⟩,
        (rollRecords actor options true t.rolled s).2) := by
  simp [activate, Subject.hasRolls, hsubject, h.rollRecords_flatten]

/-- Where anything is to be rolled, an activation succeeds if and only if all formulas can be
read. -/
theorem Tree.Valid.exists_activate_iff {σ : Type u} [DiceSource σ] {t : Tree} (h : Valid t)
    (actor : Actor) {subject : Subject} (hsubject : subject ≠ .grantOnly)
    (options : ActivationOptions) (s : σ) :
    (∃ a s', activate t actor subject options s = (.ok a, s')) ↔
      ∀ r ∈ t.rolled, Readable r := by
  rw [h.activate_of_hasRolls actor hsubject]
  constructor
  · rintro ⟨a, s', hok⟩ r hr
    refine Classical.byContradiction fun hlost => ?_
    obtain ⟨front, q, rest, hsplit, hfront, hq⟩ := exists_first_unreadable ⟨r, hr, hlost⟩
    have hrolled : q.effect.isRolled = true := by
      have hmem : q ∈ t.rolled := by simp [hsplit]
      exact (List.mem_filter.mp hmem).2
    obtain ⟨text, cause, htext, hcause⟩ := exists_fault_of_not_readable hrolled hq
    obtain ⟨rolls, s₁, -, hrun⟩ :=
      rollRecords_of_unreadable actor options hfront htext hcause rest true s
    rw [hsplit, hrun] at hok
    cases hok
  · intro hread
    obtain ⟨rolls, s', -, hrun⟩ := rollRecords_of_readable actor options hread true s
    rw [hrun]
    exact ⟨_, s', rfl⟩

/-- Where nothing is to be rolled, an activation changes nothing. Otherwise it rolls for all damage
and healing in the order of the walk, and each of them shows its own roll afterwards, or it reports
the first effect whose formula cannot be read. -/
theorem Tree.Reachable.activate_eq {σ : Type u} [DiceSource σ] {t : Tree} (h : Reachable t)
    (actor : Actor) (subject : Subject) (options : ActivationOptions) (s : σ) :
    (subject = .grantOnly →
      activate t actor subject options s = (.ok ⟨[], t, options.fastForward⟩, s)) ∧
    (subject ≠ .grantOnly →
      ((∀ r ∈ t.rolled, Readable r) →
        ∃ rolls t' s', RolledInOrder actor options true t.rolled s rolls s' ∧
          Annotated t rolls t' ∧
          activate t actor subject options s = (.ok ⟨rolls, t', options.fastForward⟩, s')) ∧
      ((∃ r ∈ t.rolled, ¬ Readable r) →
        ∃ front r rest text cause, t.rolled = front ++ r :: rest ∧ (∀ q ∈ front, Readable q) ∧
          r.effect.formula? = some text ∧ Formula.read text = .error cause ∧
          ∃ rolls s', RolledInOrder actor options true front s rolls s' ∧
            activate t actor subject options s = (.error ⟨r.id, text, cause⟩, s'))) := by
  have hvalid := h.valid
  refine ⟨?_, fun hsubject => ⟨fun hread => ?_, ?_⟩⟩
  · rintro rfl
    rfl
  · obtain ⟨rolls, s', hrolls, hrun⟩ :=
      rollRecords_of_readable actor options hread true s
    have hnd : (rolls.map ResolvedRoll.id).Nodup := by
      rw [hrolls.map_id]
      exact hvalid.nodup_ids_rolled
    refine ⟨rolls, t.map (noted rolls), s', hrolls, annotated_noted hvalid hrolls.map_id, ?_⟩
    simp [activate, Subject.hasRolls, hsubject, hvalid.rollRecords_flatten, hrun, Except.map,
      annotate_eq hnd]
  · intro hlost
    obtain ⟨front, r, rest, hsplit, hfront, hr⟩ := exists_first_unreadable hlost
    have hrolled : r.effect.isRolled = true := by
      have hmem : r ∈ t.rolled := by simp [hsplit]
      exact (List.mem_filter.mp hmem).2
    obtain ⟨text, cause, htext, hcause⟩ := exists_fault_of_not_readable hrolled hr
    obtain ⟨rolls, s', hrolls, hrun⟩ :=
      rollRecords_of_unreadable actor options hfront htext hcause rest true s
    refine ⟨front, r, rest, text, cause, hsplit, hfront, htext, hcause, rolls, s', hrolls, ?_⟩
    simp [activate, Subject.hasRolls, hsubject, hvalid.rollRecords_flatten, hsplit, hrun,
      Except.map]

/-- Healing before the first damage, and more damage behind a condition. -/
def Tree.healingFirst : Tree :=
  .node ⟨"mend", none, .healing ⟨.healing, "1d4", none⟩⟩ .nil
    (.node ⟨"bolt", none, .damage ⟨.fire, "2d6+@level", none, none, none⟩⟩
      (.leaf ⟨"prone", some .hit, .condition ⟨"prone", none⟩⟩)
      (.leaf ⟨"burn", none, .damage ⟨.fire, "3", none, none, none⟩⟩))

theorem Tree.built_healingFirst : Built healingFirst := by
  have hmend : Built (attach none "mend" (.healing ⟨.healing, "1d4", none⟩) .nil).2 :=
    .step .empty (.attach _ _ _ _)
  have hbolt := Built.step hmend
    (.attach _ none "bolt" (.damage ⟨.fire, "2d6+@level", none, none, none⟩))
  have hprone := Built.step hbolt
    (.attach _ (some ("bolt", .hit)) "prone" (.condition ⟨"prone", none⟩))
  exact Built.step hprone (.attach _ none "burn" (.damage ⟨.fire, "3", none, none, none⟩))

theorem Tree.readable_healingFirst : ∀ r ∈ healingFirst.rolled, Readable r := by
  have hrolled : healingFirst.rolled =
      [⟨"mend", none, none, .healing ⟨.healing, "1d4", none⟩⟩,
        ⟨"bolt", none, none, .damage ⟨.fire, "2d6+@level", none, none, none⟩⟩,
        ⟨"burn", none, none, .damage ⟨.fire, "3", none, none, none⟩⟩] := by
    decide
  intro r hr
  rw [hrolled] at hr
  simp only [List.mem_cons, List.not_mem_nil, or_false] at hr
  rcases hr with rfl | rfl | rfl
  · exact ⟨"1d4", ⟨"1d4", [⟨false, .dice 1 4⟩]⟩, rfl, by decide +kernel⟩
  · exact ⟨"2d6+@level", ⟨"2d6+@level", [⟨false, .dice 2 6⟩, ⟨false, .reference "level"⟩]⟩, rfl,
      by decide +kernel⟩
  · exact ⟨"3", ⟨"3", [⟨false, .constant 3⟩]⟩, rfl, by decide +kernel⟩

/-- The first damage is a critical hit, whatever healing stands before it. -/
theorem Tree.activate_eq_healingFirst :
    (∀ r ∈ healingFirst.rolled, Readable r) ∧
      ∃ rolls t' s',
        RolledInOrder {} {} true healingFirst.rolled (DiceScript.mk [4, 6, 6, 2] 2) rolls s' ∧
        Annotated healingFirst rolls t' ∧
        activate healingFirst {} .spell {} (DiceScript.mk [4, 6, 6, 2] 2) =
          (.ok ⟨rolls, t', false⟩, s') ∧
        t'.get? "mend" = some ⟨"mend", none, none,
          .healing ⟨.healing, "1d4", some ⟨4, false, false⟩⟩⟩ ∧
        t'.get? "bolt" = some ⟨"bolt", none, none,
          .damage ⟨.fire, "2d6+@level", none, none, some ⟨16, true, false⟩⟩⟩ ∧
        t'.get? "prone" = some ⟨"prone", some "bolt", some .hit, .condition ⟨"prone", none⟩⟩ := by
  have hreach : Reachable healingFirst := built_healingFirst.reachable
  have hsubject : Subject.spell ≠ .grantOnly := by decide
  have hread := readable_healingFirst
  obtain ⟨rolls, t', s', hrolls, hannotated, hrun⟩ :=
    ((hreach.activate_eq {} .spell {} (DiceScript.mk [4, 6, 6, 2] 2)).2 hsubject).1 hread
  have htree : (activate healingFirst {} .spell {} (DiceScript.mk [4, 6, 6, 2] 2)).1.map
      Activation.tree = .ok (.node
        ⟨"mend", none, .healing ⟨.healing, "1d4", some ⟨4, false, false⟩⟩⟩ .nil
        (.node ⟨"bolt", none,
            .damage ⟨.fire, "2d6+@level", none, none, some ⟨16, true, false⟩⟩⟩
          (.leaf ⟨"prone", some .hit, .condition ⟨"prone", none⟩⟩)
          (.leaf ⟨"burn", none, .damage ⟨.fire, "3", none, none, some ⟨3, false, false⟩⟩⟩))) := by
    decide +kernel
  rw [hrun] at htree
  obtain rfl := Except.ok.inj htree
  exact ⟨hread, rolls, _, s', hrolls, hannotated, hrun, rfl, rfl, rfl⟩

end Spellwork
