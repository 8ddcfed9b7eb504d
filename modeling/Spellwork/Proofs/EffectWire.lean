import Spellwork.Effect.Wire
import Spellwork.Proofs.JsonText

/-!
# Stored effects and records read back

Each decoder undoes its encoder (`Undoes`), and a record is read field by field, by the values that
stand under each name. Records and outlines both put an effect into an object with fields of their
own, so the decoder of effects is looked at on every object that agrees with what an effect is
written as on the names of effects (`Effect.ofMembers?_eq`), whatever else the object holds.
-/

namespace Spellwork

namespace Json

/-! ## Decoders and encoders -/

/-- A decoder gives back what an encoder wrote, and takes no null. -/
structure Undoes (decode : Json → Option α) (encode : α → Json) : Prop where
  encoded : ∀ a, decode (encode a) = some a
  null : decode .null = none

theorem Undoes.ne_null {decode : Json → Option α} {encode : α → Json} (h : Undoes decode encode)
    (a : α) : encode a ≠ .null := by
  intro heq
  have hsome := h.encoded a
  rw [heq, h.null] at hsome
  cases hsome

theorem undoes_string : Undoes string? Json.string := ⟨fun _ => rfl, rfl⟩

theorem undoes_bool : Undoes bool? Json.bool := ⟨fun _ => rfl, rfl⟩

theorem integerIn?_integer {low high n : Int} (hlow : low ≤ n) (hhigh : n < high) :
    (Json.integer n).integerIn? low high = some n :=
  if_pos ⟨hlow, hhigh⟩

theorem undoes_uint32 : Undoes uint32? ofUInt32 where
  encoded := by
    intro n
    have hlt : n.toNat < 0x100000000 := n.toNat_lt
    rw [uint32?, ofUInt32, integerIn?_integer (by omega) (by omega)]
    simp
  null := rfl

theorem undoes_int64 : Undoes int64? ofInt64 where
  encoded := by
    intro n
    have hlow : -0x8000000000000000 ≤ n.toInt := n.le_toInt
    have hhigh : n.toInt < 0x8000000000000000 := n.toInt_lt
    rw [int64?, ofInt64, integerIn?_integer hlow hhigh, Option.map_some, Int64.ofInt_toInt]
  null := rfl

/-- Values with distinct names are told apart by them. -/
theorem undoes_named {name : α → String} {all : List α}
    (h : ∀ a, all.find? (fun b => name b = name a) = some a) :
    Undoes (named? name all) fun a => .string (name a) :=
  ⟨h, rfl⟩

theorem list?_ofList {decode : Json → Option α} {encode : α → Json} {as : List α}
    (h : ∀ a ∈ as, decode (encode a) = some a) : list? decode (ofList encode as) = some as := by
  show (as.map encode).mapM decode = some as
  induction as with
  | nil => rfl
  | cons a as ih =>
      have hrest := ih fun b hb => h b (List.mem_cons_of_mem _ hb)
      simp [h a (List.mem_cons_self ..), hrest]

/-! ## Values that read back -/

theorem depthOfItems_le_iff {items : List Json} {n : Nat} :
    depthOfItems items ≤ n ↔ ∀ v ∈ items, v.depth ≤ n := by
  induction items with
  | nil => simp [depthOfItems]
  | cons v rest ih => rw [depthOfItems, Nat.max_le, ih, List.forall_mem_cons]

theorem depthOfMembers_le_iff {members : List (String × Json)} {n : Nat} :
    depthOfMembers members ≤ n ↔ ∀ m ∈ members, m.2.depth ≤ n := by
  induction members with
  | nil => simp [depthOfMembers]
  | cons m rest ih => rw [depthOfMembers, Nat.max_le, ih, List.forall_mem_cons]

/-- The numbers in a value are integers, and it nests at most so deep. -/
structure Plain (n : Nat) (v : Json) : Prop where
  integers : v.IntegersOnly
  depth_le : v.depth ≤ n

theorem plain_string (n : Nat) (s : String) : Plain n (.string s) :=
  ⟨trivial, Nat.zero_le n⟩

theorem plain_bool (n : Nat) (b : Bool) : Plain n (.bool b) :=
  ⟨trivial, Nat.zero_le n⟩

theorem plain_ofUInt32 (n : Nat) (x : UInt32) : Plain n (ofUInt32 x) := by
  have hlt : x.toNat < 0x100000000 := x.toNat_lt
  have hlow : -0x8000000000000000 ≤ (x.toNat : Int) := by omega
  have hhigh : (x.toNat : Int) < 0x10000000000000000 := by omega
  exact ⟨⟨hlow, hhigh⟩, Nat.zero_le n⟩

theorem plain_ofInt64 (n : Nat) (x : Int64) : Plain n (ofInt64 x) := by
  have hlow : -0x8000000000000000 ≤ x.toInt := x.le_toInt
  have hhigh : x.toInt < 0x8000000000000000 := x.toInt_lt
  exact ⟨⟨hlow, by omega⟩, Nat.zero_le n⟩

theorem plain_ofOption {n : Nat} {encode : α → Json} (h : ∀ a, Plain n (encode a))
    (o : Option α) : Plain n (ofOption encode o) := by
  cases o with
  | none => exact ⟨trivial, Nat.zero_le n⟩
  | some a => exact h a

theorem plain_array {n : Nat} {items : List Json} (h : ∀ v ∈ items, Plain n v) :
    Plain (n + 1) (.array items) where
  integers := integerItems_iff.mpr fun v hv => (h v hv).integers
  depth_le := by
    have hle := depthOfItems_le_iff.mpr fun v hv => (h v hv).depth_le
    simp only [depth]
    omega

theorem plain_object {n : Nat} {members : List (String × Json)}
    (h : ∀ m ∈ members, Plain n m.2) : Plain (n + 1) (.object members) where
  integers := integerMembers_iff.mpr fun m hm => (h m hm).integers
  depth_le := by
    have hle := depthOfMembers_le_iff.mpr fun m hm => (h m hm).depth_le
    simp only [depth]
    omega

/-! ## Fields -/

namespace Members

@[simp] theorem valuesOf_nil (name : String) : valuesOf name [] = [] := rfl

@[simp] theorem valuesOf_cons (name : String) (m : String × Json) (ms : Members) :
    valuesOf name (m :: ms) = if m.1 = name then m.2 :: valuesOf name ms else valuesOf name ms := by
  by_cases h : m.1 = name <;> simp [valuesOf, h]

@[simp] theorem valuesOf_append (name : String) (ms ns : Members) :
    valuesOf name (ms ++ ns) = valuesOf name ms ++ valuesOf name ns := by
  simp [valuesOf]

@[simp] theorem valuesOf_memberIfSome (name other : String) (encode : α → Json) (o : Option α) :
    valuesOf name (memberIfSome other encode o) =
      if other = name then (o.map encode).toList else [] := by
  cases o <;> simp [memberIfSome]

theorem mem_memberIfSome {name : String} {encode : α → Json} {o : Option α}
    {m : String × Json} : m ∈ memberIfSome name encode o ↔ ∃ a ∈ o, m = (name, encode a) := by
  cases o <;> simp [memberIfSome]

theorem valuesOf_of_forall_ne {name : String} {ms : Members} (h : ∀ m ∈ ms, m.1 ≠ name) :
    valuesOf name ms = [] := by
  simpa [valuesOf] using h

section Read

variable {decode : Json → Option α} {encode : α → Json} {ms : Members} {name : String}

theorem required?_eq (h : Undoes decode encode) {a : α} (hms : ms.valuesOf name = [encode a]) :
    ms.required? name decode = some a := by
  rw [required?, hms]
  exact h.encoded a

theorem defaulted?_eq (h : Undoes decode encode) {a : α} (hms : ms.valuesOf name = [encode a])
    (default : α) : ms.defaulted? name default decode = some a := by
  rw [defaulted?, hms]
  exact h.encoded a

theorem optional?_eq_some (h : Undoes decode encode) {a : α}
    (hms : ms.valuesOf name = [encode a]) : ms.optional? name decode = some (some a) := by
  have hnull := h.ne_null a
  rw [optional?, hms]
  split
  · rename_i heq
    cases heq
  · rename_i heq
    exact absurd (List.cons.inj heq).1 hnull
  · rename_i heq
    rw [← (List.cons.inj heq).1, h.encoded]
    rfl
  · rename_i hother
    exact absurd rfl (hother (encode a))

/-- A field that is left out for none. -/
theorem optional?_eq (h : Undoes decode encode) {o : Option α}
    (hms : ms.valuesOf name = (o.map encode).toList) : ms.optional? name decode = some o := by
  cases o with
  | none =>
      rw [optional?, hms]
      rfl
  | some a => exact optional?_eq_some h hms

/-- A field that is null for none. -/
theorem optional?_ofOption (h : Undoes decode encode) {o : Option α}
    (hms : ms.valuesOf name = [ofOption encode o]) : ms.optional? name decode = some o := by
  cases o with
  | none =>
      rw [optional?, hms]
      rfl
  | some a => exact optional?_eq_some h hms

end Read

/-- Under each of the names, two records hold the same values. -/
def Agree (names : List String) (ms ns : Members) : Prop :=
  ∀ name ∈ names, ms.valuesOf name = ns.valuesOf name

theorem Agree.refl (names : List String) (ms : Members) : Agree names ms ms :=
  fun _ _ => rfl

/-- Fields with other names before those that are read do not matter. -/
theorem Agree.append_left {names : List String} {ms ns front : Members} (h : Agree names ms ns)
    (hfront : ∀ m ∈ front, m.1 ∉ names) : Agree names (front ++ ms) ns := by
  intro name hname
  have hnil : valuesOf name front = [] :=
    valuesOf_of_forall_ne fun m hm heq => hfront m hm (heq ▸ hname)
  rw [valuesOf_append, hnil, List.nil_append, h name hname]

/-- Nor do those behind them. -/
theorem Agree.append_right {names : List String} {ms ns back : Members} (h : Agree names ms ns)
    (hback : ∀ m ∈ back, m.1 ∉ names) : Agree names (ms ++ back) ns := by
  intro name hname
  have hnil : valuesOf name back = [] :=
    valuesOf_of_forall_ne fun m hm heq => hback m hm (heq ▸ hname)
  rw [valuesOf_append, hnil, List.append_nil, h name hname]

end Members

end Json

open Json Members

/-! ## Values -/

theorem Outcome.undoes : Undoes Outcome.ofJson? Outcome.toJson :=
  ⟨Outcome.ofName?_name, rfl⟩

theorem DamageType.undoes : Undoes DamageType.ofJson? DamageType.toJson :=
  undoes_named DamageType.ofName?_name

theorem Ability.undoes : Undoes Ability.ofJson? Ability.toJson :=
  undoes_named fun a => by cases a <;> simp [Ability.all, Ability.name]

theorem HealingType.undoes :
    Undoes (named? HealingType.name HealingType.all) fun h => .string h.name :=
  undoes_named fun h => by cases h <;> simp [HealingType.all, HealingType.name]

theorem Portion.undoes : Undoes (named? Portion.name Portion.all) fun p => .string p.name :=
  undoes_named fun p => by cases p <;> simp [Portion.all, Portion.name]

theorem NoteType.undoes : Undoes (named? NoteType.name NoteType.all) fun n => .string n.name :=
  undoes_named fun n => by cases n <;> simp [NoteType.all, NoteType.name]

theorem RollNote.undoes : Undoes RollNote.ofJson? RollNote.toJson where
  encoded := by
    intro n
    have htotal := undoes_int64.encoded n.total
    simp [RollNote.ofJson?, RollNote.toJson, record?, members?, required?, bool?, htotal]
  null := rfl

theorem Escape.undoes : Undoes Escape.ofJson? Escape.toJson where
  encoded := by
    intro e
    have hdc : Members.required? (("dc", ofUInt32 e.dc) ::
        memberIfSome "ability" Ability.toJson e.ability) "dc" uint32? = some e.dc :=
      required?_eq undoes_uint32 (by simp)
    have hability : Members.optional? (("dc", ofUInt32 e.dc) ::
        memberIfSome "ability" Ability.toJson e.ability) "ability" Ability.ofJson? =
          some e.ability :=
      optional?_eq Ability.undoes (by simp)
    simp [Escape.ofJson?, Escape.toJson, record?, members?, hdc, hability]
  null := rfl

theorem RollNote.plain_toJson (n : RollNote) : Plain 1 n.toJson := by
  refine plain_object fun m hm => ?_
  simp only [List.mem_cons, List.not_mem_nil, or_false] at hm
  rcases hm with rfl | rfl | rfl
  · exact plain_ofInt64 0 n.total
  · exact plain_bool 0 n.isCritical
  · exact plain_bool 0 n.isMiss

theorem Escape.plain_toJson (e : Escape) : Plain 1 e.toJson := by
  refine plain_object fun m hm => ?_
  simp only [List.mem_cons, mem_memberIfSome] at hm
  rcases hm with rfl | ⟨ability, -, rfl⟩
  · exact plain_ofUInt32 0 e.dc
  · exact plain_string 0 ability.name

/-! ## Effects -/

namespace Effect

/-- The names of the fields that effects have, each kind some of them. -/
def fieldNames : List String :=
  ["damageType", "formula", "canCrit", "canMiss", "rollResult", "healingType", "condition",
    "escape", "savingThrowType", "saveDC", "outcome", "noteType", "text"]

end Effect

section Fields

variable {ms : Members}

theorem Damage.ofMembers?_eq {d : Damage} (h : Agree Effect.fieldNames ms d.toMembers) :
    Damage.ofMembers? ms = some d := by
  have hdamageType : ms.required? "damageType" DamageType.ofJson? = some d.damageType :=
    required?_eq DamageType.undoes ((h _ (by simp [Effect.fieldNames])).trans (by simp [toMembers]))
  have hformula : ms.required? "formula" string? = some d.formula :=
    required?_eq undoes_string ((h _ (by simp [Effect.fieldNames])).trans (by simp [toMembers]))
  have hcanCrit : ms.optional? "canCrit" bool? = some d.canCrit :=
    optional?_eq undoes_bool ((h _ (by simp [Effect.fieldNames])).trans (by simp [toMembers]))
  have hcanMiss : ms.optional? "canMiss" bool? = some d.canMiss :=
    optional?_eq undoes_bool ((h _ (by simp [Effect.fieldNames])).trans (by simp [toMembers]))
  have hrollNote : ms.optional? "rollResult" RollNote.ofJson? = some d.rollNote :=
    optional?_eq RollNote.undoes ((h _ (by simp [Effect.fieldNames])).trans (by simp [toMembers]))
  simp [ofMembers?, hdamageType, hformula, hcanCrit, hcanMiss, hrollNote]

theorem Healing.ofMembers?_eq {d : Healing} (h : Agree Effect.fieldNames ms d.toMembers) :
    Healing.ofMembers? ms = some d := by
  have hhealingType : ms.defaulted? "healingType" HealingType.healing
      (named? HealingType.name HealingType.all) = some d.healingType :=
    defaulted?_eq HealingType.undoes
      ((h _ (by simp [Effect.fieldNames])).trans (by simp [toMembers])) _
  have hformula : ms.required? "formula" string? = some d.formula :=
    required?_eq undoes_string ((h _ (by simp [Effect.fieldNames])).trans (by simp [toMembers]))
  have hrollNote : ms.optional? "rollResult" RollNote.ofJson? = some d.rollNote :=
    optional?_eq RollNote.undoes ((h _ (by simp [Effect.fieldNames])).trans (by simp [toMembers]))
  simp [ofMembers?, hhealingType, hformula, hrollNote]

theorem Condition.ofMembers?_eq {c : Condition} (h : Agree Effect.fieldNames ms c.toMembers) :
    Condition.ofMembers? ms = some c := by
  have hcondition : ms.required? "condition" string? = some c.condition :=
    required?_eq undoes_string ((h _ (by simp [Effect.fieldNames])).trans (by simp [toMembers]))
  have hescape : ms.optional? "escape" Escape.ofJson? = some c.escape :=
    optional?_eq Escape.undoes ((h _ (by simp [Effect.fieldNames])).trans (by simp [toMembers]))
  simp [ofMembers?, hcondition, hescape]

theorem SavingThrow.ofMembers?_eq {s : SavingThrow}
    (h : Agree Effect.fieldNames ms s.toMembers) : SavingThrow.ofMembers? ms = some s := by
  have hability : ms.required? "savingThrowType" Ability.ofJson? = some s.ability :=
    required?_eq Ability.undoes ((h _ (by simp [Effect.fieldNames])).trans (by simp [toMembers]))
  have hdc : ms.optional? "saveDC" uint32? = some s.dc :=
    optional?_eq undoes_uint32 ((h _ (by simp [Effect.fieldNames])).trans (by simp [toMembers]))
  simp [ofMembers?, hability, hdc]

theorem Portion.ofMembers?_eq {p : Portion} (h : Agree Effect.fieldNames ms p.toMembers) :
    Portion.ofMembers? ms = some p :=
  required?_eq Portion.undoes ((h _ (by simp [Effect.fieldNames])).trans (by simp [toMembers]))

theorem Note.ofMembers?_eq {n : Note} (h : Agree Effect.fieldNames ms n.toMembers) :
    Note.ofMembers? ms = some n := by
  have hnoteType : ms.defaulted? "noteType" NoteType.general
      (named? NoteType.name NoteType.all) = some n.noteType :=
    defaulted?_eq NoteType.undoes
      ((h _ (by simp [Effect.fieldNames])).trans (by simp [toMembers])) _
  have htext : ms.required? "text" string? = some n.text :=
    required?_eq undoes_string ((h _ (by simp [Effect.fieldNames])).trans (by simp [toMembers]))
  simp [ofMembers?, hnoteType, htext]

end Fields

namespace Effect

/-- A field of an effect has one of the names, and nests no deeper than the result of a roll. -/
theorem mem_fields {e : Effect} {m : String × Json} (h : m ∈ e.fields) :
    m.1 ∈ fieldNames ∧ Plain 1 m.2 := by
  cases e with
  | damage d =>
      simp only [fields, Damage.toMembers, List.mem_append, List.mem_cons, List.not_mem_nil,
        or_false, mem_memberIfSome] at h
      rcases h with (((rfl | rfl) | ⟨b, -, rfl⟩) | ⟨b, -, rfl⟩) | ⟨note, -, rfl⟩
      · exact ⟨by simp [fieldNames], plain_string 1 _⟩
      · exact ⟨by simp [fieldNames], plain_string 1 _⟩
      · exact ⟨by simp [fieldNames], plain_bool 1 b⟩
      · exact ⟨by simp [fieldNames], plain_bool 1 b⟩
      · exact ⟨by simp [fieldNames], RollNote.plain_toJson note⟩
  | healing d =>
      simp only [fields, Healing.toMembers, List.mem_append, List.mem_cons, List.not_mem_nil,
        or_false, mem_memberIfSome] at h
      rcases h with (rfl | rfl) | ⟨note, -, rfl⟩
      · exact ⟨by simp [fieldNames], plain_string 1 _⟩
      · exact ⟨by simp [fieldNames], plain_string 1 _⟩
      · exact ⟨by simp [fieldNames], RollNote.plain_toJson note⟩
  | condition c =>
      simp only [fields, Condition.toMembers, List.mem_cons, mem_memberIfSome] at h
      rcases h with rfl | ⟨escape, -, rfl⟩
      · exact ⟨by simp [fieldNames], plain_string 1 _⟩
      · exact ⟨by simp [fieldNames], Escape.plain_toJson escape⟩
  | savingThrow s =>
      simp only [fields, SavingThrow.toMembers, List.mem_cons, mem_memberIfSome] at h
      rcases h with rfl | ⟨dc, -, rfl⟩
      · exact ⟨by simp [fieldNames], plain_string 1 _⟩
      · exact ⟨by simp [fieldNames], plain_ofUInt32 1 dc⟩
  | damageOutcome p =>
      rw [List.mem_singleton.mp h]
      exact ⟨by simp [fieldNames], plain_string 1 _⟩
  | text n =>
      simp only [fields, Note.toMembers, List.mem_cons, List.not_mem_nil, or_false] at h
      rcases h with rfl | rfl
      · exact ⟨by simp [fieldNames], plain_string 1 _⟩
      · exact ⟨by simp [fieldNames], plain_string 1 _⟩

theorem mem_toMembers {e : Effect} {m : String × Json} (h : m ∈ e.toMembers) :
    m.1 ∈ "type" :: fieldNames ∧ Plain 1 m.2 := by
  rcases List.mem_cons.mp h with rfl | h
  · exact ⟨List.mem_cons_self .., plain_string 1 _⟩
  · obtain ⟨hname, hplain⟩ := mem_fields h
    exact ⟨List.mem_cons_of_mem _ hname, hplain⟩

theorem valuesOf_toMembers (e : Effect) (name : String) (h : name ∉ "type" :: fieldNames) :
    valuesOf name e.toMembers = [] :=
  valuesOf_of_forall_ne fun _ hm heq => h (heq ▸ (mem_toMembers hm).1)

theorem ofFields?_eq {ms : Members} {e : Effect} (h : Agree fieldNames ms e.fields) :
    ofFields? ms e.typeName = some e := by
  cases e with
  | damage d => exact congrArg (Option.map damage) (Damage.ofMembers?_eq h)
  | healing d => exact congrArg (Option.map healing) (Healing.ofMembers?_eq h)
  | condition c => exact congrArg (Option.map condition) (Condition.ofMembers?_eq h)
  | savingThrow s => exact congrArg (Option.map savingThrow) (SavingThrow.ofMembers?_eq h)
  | damageOutcome p => exact congrArg (Option.map damageOutcome) (Portion.ofMembers?_eq h)
  | text n => exact congrArg (Option.map text) (Note.ofMembers?_eq h)

/-- An effect is read from every object that holds what it is written as, whatever stands there
under names that effects do not have. -/
theorem ofMembers?_eq {ms : Members} {e : Effect}
    (h : Agree ("type" :: fieldNames) ms e.toMembers) : ofMembers? ms = some e := by
  have htype : ms.required? "type" typeName? = some e.typeName := by
    have hvalues := h "type" (List.mem_cons_self ..)
    have hfields : valuesOf "type" e.fields = [] :=
      valuesOf_of_forall_ne fun m hm heq => absurd (heq ▸ (mem_fields hm).1) (by simp [fieldNames])
    rw [toMembers, valuesOf_cons, if_pos rfl, hfields] at hvalues
    rw [required?, hvalues]
    rfl
  have hfields : Agree fieldNames ms e.fields := by
    intro name hname
    have hne : "type" ≠ name := fun heq => absurd (heq ▸ hname) (by simp [fieldNames])
    rw [h name (List.mem_cons_of_mem _ hname), toMembers, valuesOf_cons, if_neg hne]
  rw [ofMembers?, htype]
  exact ofFields?_eq hfields

end Effect

/-! ## Records -/

namespace Record

/-- The fields that every record has. -/
def header (r : Record) : Members :=
  [("id", .string r.id), ("parentNode", ofOption Json.string r.parent),
    ("parentContext", ofOption Outcome.toJson r.outcome)]

theorem undoes : Undoes ofJson? toJson where
  encoded := by
    intro r
    have hnoid := r.effect.valuesOf_toMembers "id" (by simp [Effect.fieldNames])
    have hnoparent := r.effect.valuesOf_toMembers "parentNode" (by simp [Effect.fieldNames])
    have hnooutcome := r.effect.valuesOf_toMembers "parentContext" (by simp [Effect.fieldNames])
    have hid : Members.required? (r.header ++ r.effect.toMembers) "id" string? = some r.id :=
      required?_eq undoes_string (by simp [header, hnoid])
    have hparent : Members.optional? (r.header ++ r.effect.toMembers) "parentNode" string? =
        some r.parent :=
      optional?_ofOption undoes_string (by simp [header, hnoparent])
    have houtcome : Members.optional? (r.header ++ r.effect.toMembers) "parentContext"
        Outcome.ofJson? = some r.outcome :=
      optional?_ofOption Outcome.undoes (by simp [header, hnooutcome])
    have heffect : Effect.ofMembers? (r.header ++ r.effect.toMembers) = some r.effect := by
      refine Effect.ofMembers?_eq ((Agree.refl _ _).append_left ?_)
      simp [header, Effect.fieldNames]
    show ofJson? (.object (r.header ++ r.effect.toMembers)) = some r
    simp only [ofJson?, record?, members?, hid, hparent, houtcome, heffect]
    rfl
  null := rfl

/-! ## Texts -/

theorem plain_toJson (r : Record) : Plain 2 r.toJson := by
  show Plain 2 (.object (r.header ++ r.effect.toMembers))
  refine plain_object fun m hm => ?_
  rcases List.mem_append.mp hm with hm | hm
  · simp only [header, List.mem_cons, List.not_mem_nil, or_false] at hm
    rcases hm with rfl | rfl | rfl
    · exact plain_string 1 r.id
    · exact plain_ofOption (plain_string 1) r.parent
    · exact plain_ofOption (fun o => plain_string 1 o.name) r.outcome
  · exact (Effect.mem_toMembers hm).2

/-- The text in which records are stored denotes the list of what each of them is written as, and it
gives the records back. -/
theorem readList?_writeList (rs : List Record) :
    Json.read? (writeList rs) = some (listToJson rs) ∧ readList? (writeList rs) = some rs := by
  have hplain : Plain 3 (listToJson rs) := by
    refine plain_array fun v hv => ?_
    obtain ⟨r, -, rfl⟩ := List.mem_map.mp hv
    exact plain_toJson r
  have hread : Json.read? (writeList rs) = some (listToJson rs) := by
    have hdepth : (listToJson rs).depth ≤ maxDepth := Nat.le_trans hplain.depth_le (by decide)
    rw [writeList, read?_toText hplain.integers, if_pos hdepth]
  refine ⟨hread, ?_⟩
  rw [readList?, hread]
  exact list?_ofList fun r _ => undoes.encoded r

end Record

end Spellwork
