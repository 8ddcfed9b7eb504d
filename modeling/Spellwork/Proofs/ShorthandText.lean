import Spellwork.Proofs.OutlineText
import Spellwork.Proofs.ShorthandSegments

/-!
# Effects written in shorthand

A shorthand spells the members of an effect out, whatever their order: strings bare, integers in
decimal, truth values by name (`spell`). What comes back is decided value by value, before anything
is known of the field that it belongs to. Names, integers and truth values look like what they are;
the one text that an author chooses freely (`Effect.prose?`) does not have to, and a formula that is
a number is taken for a number and the effect is lost with it. Only an id that looks like a number
is turned back into text. `effect?_spell` puts these together.
-/

namespace Spellwork

open Json Members

/-! ## Values by their looks -/

namespace Scalar

theorem ofText_of_int64? {cs : List Char} {n : Int64} (h : Text.int64? cs = some n) :
    ofText cs = integer n := by
  have hword : ∀ word, Text.int64? word = none → cs ≠ word := by
    rintro _ hnone rfl
    rw [h] at hnone
    cases hnone
  unfold ofText
  rw [if_neg (hword _ (by decide)), if_neg (hword _ (by decide)), if_neg (hword _ (by decide)), h]

theorem ofText_intText (n : Int64) : ofText (Text.intText n.toInt) = integer n :=
  ofText_of_int64? (Text.int64?_intText n)

theorem toJson_ofText_natText (n : UInt32) :
    (ofText (Text.natText n.toNat)).toJson = ofUInt32 n := by
  have hlt : n.toNat < 0x100000000 := n.toNat_lt
  have hint : (Int64.ofNat n.toNat).toInt = n.toNat := Int64.toInt_ofNat_of_lt (by omega)
  have hread := ofText_intText (Int64.ofNat n.toNat)
  rw [hint] at hread
  show (ofText (Text.intText n.toNat)).toJson = _
  rw [hread, toJson, ofInt64, hint, ofUInt32]

end Scalar

/-- A text that is taken for text: neither a number nor one of the words with a meaning. -/
def ReadsAsText (s : String) : Prop :=
  Scalar.ofText s.toList = .text s

instance (s : String) : Decidable (ReadsAsText s) :=
  inferInstanceAs (Decidable (_ = _))

namespace Shorthand

open Formula (Blank)

/-! ## Rendered fields -/

theorem join_blank (segment : List Char) (segments : List (List Char)) :
    Text.join [';', ' '] (segment :: segments) =
      Text.join [';'] (segment :: segments.map (' ' :: ·)) := by
  induction segments generalizing segment with
  | nil => rfl
  | cons next rest ih =>
      rw [Text.join_cons_cons, ih, List.map_cons, Text.join_cons_cons, Text.join_cons_head]
      simp

theorem segment_of_field {blanks key value : List Char} (hb : Blank blanks) (hkey : IsKey key)
    (hvalue : Writable value) :
    Segment (some (String.ofList key, String.ofList value)) (blanks ++ key ++ '=' :: value) := by
  have hnil : Blank [] := by decide
  have hsegment := @Segment.field (String.ofList key) (String.ofList value) blanks [] [] []
  rw [String.toList_ofList, String.toList_ofList, List.append_nil, List.append_nil] at hsegment
  exact hsegment hkey hvalue hb hnil hnil hnil

/-- What is rendered is a line of segments, with a blank in front of each but the first. -/
theorem exists_segments_render {fs : List (List Char × List Char)}
    (h : ∀ f ∈ fs, IsKey f.1 ∧ Writable f.2) :
    ∃ segments, render fs = wrapped segments ∧
      List.Forall₂ Segment (fs.map fun f => some (String.ofList f.1, String.ofList f.2))
        segments := by
  cases fs with
  | nil => exact ⟨[], rfl, .nil⟩
  | cons f fs =>
      obtain ⟨⟨hkey, hvalue⟩, hrest⟩ := List.forall_mem_cons.mp h
      have hnil : Blank [] := by decide
      have hspace : Blank [' '] := by decide
      refine ⟨(f.1 ++ '=' :: f.2) :: (fs.map fun g => g.1 ++ '=' :: g.2).map (' ' :: ·), ?_,
        .cons (segment_of_field hnil hkey hvalue) ?_⟩
      · rw [wrapped, ← join_blank]
        rfl
      · rw [List.map_map, List.forall₂_map_left_iff, List.forall₂_map_right_iff, List.forall₂_same]
        exact fun g hg => segment_of_field hspace (hrest g hg).1 (hrest g hg).2

/-- Fields that are rendered are read back, a repeated key with its last value. -/
theorem fields?_render {fs : List (List Char × List Char)}
    (h : ∀ f ∈ fs, IsKey f.1 ∧ Writable f.2) :
    fields? (String.ofList (render fs)) =
      some (lastPairs (fs.map fun f => (String.ofList f.1, Scalar.ofText f.2))) := by
  obtain ⟨segments, hrender, hsegments⟩ := exists_segments_render h
  have hnil : Blank [] := by decide
  have hread := fields?_eq_lastPairs hsegments hnil hnil
  have hparts : (fs.map fun f => some (String.ofList f.1, String.ofList f.2)).reduceOption =
      fs.map fun f => (String.ofList f.1, String.ofList f.2) := by
    rw [List.reduceOption, List.filterMap_map]
    exact congrFun (List.filterMap_eq_map (f := fun f => (String.ofList f.1, String.ofList f.2))) fs
  rw [List.nil_append, List.append_nil, ← hrender, hparts, List.map_map] at hread
  rw [hread]
  congr 3
  funext f
  exact congrArg (fun cs => (String.ofList f.1, Scalar.ofText cs)) String.toList_ofList

/-! ## The members of an effect, spelled out -/

/-- A value as shorthand writes it. Objects, arrays and decimals are no fields of it. -/
def valueText : Json → List Char
  | .string s => s.toList
  | .bool b => if b then "true".toList else "false".toList
  | .integer n => Text.intText n
  | _ => []

/-- The members of an object in shorthand. -/
def spell (ms : Members) : String :=
  String.ofList (render (ms.map fun m => (m.1.toList, valueText m.2)))

/-- What a member comes back as. -/
def respelled (m : String × Json) : String × Json :=
  member (m.1, Scalar.ofText (valueText m.2))

/-- A member that shorthand keeps: its value can be written, and it comes back as it was. -/
structure Kept (m : String × Json) : Prop where
  value : Writable (valueText m.2)
  back : respelled m = m

theorem respelled_of_ne {m : String × Json} (h : m.1 ≠ "id") :
    respelled m = (m.1, (Scalar.ofText (valueText m.2)).toJson) := by
  unfold respelled member
  split
  · rename_i heq
    exact absurd (Prod.mk.inj heq).1 h
  · rename_i heq
    exact absurd (Prod.mk.inj heq).1 h
  · rename_i heq
    cases heq
    rfl

theorem fst_respelled (m : String × Json) : (respelled m).1 = m.1 := by
  unfold respelled member
  split
  · rename_i heq
    exact (Prod.mk.inj heq).1.symm
  · rename_i heq
    exact (Prod.mk.inj heq).1.symm
  · rename_i heq
    exact (Prod.mk.inj heq).1.symm

theorem writable_of_digits {cs : List Char} (h : ∀ c ∈ cs, c.isDigit = true) : Writable cs := by
  constructor
  · exact Text.trimBy_eq_self
      (fun c hc => Text.isBlank_of_isDigit (h c (List.mem_of_mem_head? hc)))
      fun c hc => Text.isBlank_of_isDigit (h c (List.mem_of_getLast? hc))
  · intro hmem
    exact absurd (h _ hmem) (by decide)

theorem kept_bool {name : String} (hid : name ≠ "id") (b : Bool) : Kept (name, .bool b) where
  value := by
    show Writable (if b then "true".toList else "false".toList)
    cases b <;> decide
  back := by
    rw [respelled_of_ne hid]
    cases b <;> rfl

theorem kept_uint32 {name : String} (hid : name ≠ "id") (n : UInt32) :
    Kept (name, ofUInt32 n) where
  value := writable_of_digits fun c hc => Text.isDigit_of_mem_natText hc
  back := by
    rw [respelled_of_ne hid]
    exact congrArg (Prod.mk name) (Scalar.toJson_ofText_natText n)

theorem kept_string (name : String) {s : String} (hs : Writable s.toList) (h : ReadsAsText s) :
    Kept (name, .string s) where
  value := hs
  back := by
    show member (name, Scalar.ofText s.toList) = _
    rw [h]
    unfold member
    split
    · rename_i heq
      cases heq
    · rename_i heq
      cases heq
    · rename_i heq
      cases heq
      rfl

end Shorthand

/-! ## Effects -/

/-- Whether an effect is without the parts that are objects themselves. -/
def Effect.Bare : Effect → Prop
  | .damage d => d.rollNote = none
  | .healing h => h.rollNote = none
  | .condition c => c.escape = none
  | _ => True

/-- The one field of an effect that is free text, if it has one. -/
def Effect.prose? : Effect → Option (String × String)
  | .damage d => some ("formula", d.formula)
  | .healing h => some ("formula", h.formula)
  | .condition c => some ("condition", c.condition)
  | .text n => some ("text", n.text)
  | _ => none

namespace Shorthand

/-- A name that shorthand can hold as it is. -/
def IsWord (s : String) : Prop :=
  Writable s.toList ∧ ReadsAsText s

instance (s : String) : Decidable (IsWord s) :=
  inferInstanceAs (Decidable (_ ∧ _))

theorem kept_word (name : String) {s : String} (h : IsWord s) : Kept (name, .string s) :=
  kept_string name h.1 h.2

theorem isWord_typeName (e : Effect) : IsWord e.typeName := by
  have hall : ∀ s ∈ Effect.typeNames, IsWord s := by decide
  exact hall _ e.typeName_mem_typeNames

theorem isWord_damageType (d : DamageType) : IsWord d.name := by
  cases d <;> decide

theorem isWord_ability (a : Ability) : IsWord a.name := by
  cases a <;> decide

theorem isWord_healingType (h : HealingType) : IsWord h.name := by
  cases h <;> decide

theorem isWord_portion (p : Portion) : IsWord p.name := by
  cases p <;> decide

theorem isWord_noteType (n : NoteType) : IsWord n.name := by
  cases n <;> decide

/-- Every member of an effect is kept, but for its free text. -/
theorem kept_or_prose {e : Effect} (hbare : e.Bare) {m : String × Json} (hm : m ∈ e.toMembers) :
    Kept m ∨ ∃ p ∈ e.prose?, m = (p.1, .string p.2) := by
  rcases List.mem_cons.mp hm with rfl | hm
  · exact .inl (kept_word _ (isWord_typeName e))
  cases e with
  | damage d =>
      have hnote : d.rollNote = none := hbare
      simp only [Effect.fields, Damage.toMembers, hnote, memberIfSome, List.append_nil,
        List.mem_append, List.mem_cons, List.not_mem_nil, or_false] at hm
      rcases hm with ((rfl | rfl) | hm) | hm
      · exact .inl (kept_word _ (isWord_damageType d.damageType))
      · exact .inr ⟨_, rfl, rfl⟩
      · obtain ⟨b, -, rfl⟩ := mem_memberIfSome.mp hm
        exact .inl (kept_bool (by decide) b)
      · obtain ⟨b, -, rfl⟩ := mem_memberIfSome.mp hm
        exact .inl (kept_bool (by decide) b)
  | healing h =>
      have hnote : h.rollNote = none := hbare
      simp only [Effect.fields, Healing.toMembers, hnote, memberIfSome, List.append_nil,
        List.mem_cons, List.not_mem_nil, or_false] at hm
      rcases hm with rfl | rfl
      · exact .inl (kept_word _ (isWord_healingType h.healingType))
      · exact .inr ⟨_, rfl, rfl⟩
  | condition c =>
      have hescape : c.escape = none := hbare
      simp only [Effect.fields, Condition.toMembers, hescape, memberIfSome, List.mem_cons,
        List.not_mem_nil, or_false] at hm
      exact .inr ⟨_, rfl, hm⟩
  | savingThrow t =>
      rcases List.mem_cons.mp hm with rfl | hm
      · exact .inl (kept_word _ (isWord_ability t.ability))
      · obtain ⟨dc, -, rfl⟩ := mem_memberIfSome.mp hm
        exact .inl (kept_uint32 (by decide) dc)
  | damageOutcome p =>
      rw [List.mem_singleton.mp hm]
      exact .inl (kept_word _ (isWord_portion p))
  | text n =>
      rcases List.mem_cons.mp hm with rfl | hm
      · exact .inl (kept_word _ (isWord_noteType n.noteType))
      · exact .inr ⟨_, rfl, List.mem_singleton.mp hm⟩

theorem isKey_of_mem {name : String} (h : name ∈ "id" :: "type" :: Effect.fieldNames) :
    IsKey name.toList := by
  have hall : ∀ s ∈ "id" :: "type" :: Effect.fieldNames, IsKey s.toList := by decide
  exact hall name h

/-! ## Effects and their ids -/

/-- The members of an effect with its id. -/
def idMembers (id : Option NodeId) (e : Effect) : Members :=
  memberIfSome "id" Json.string id ++ e.toMembers

theorem mem_idMembers {id : Option NodeId} {e : Effect} {m : String × Json}
    (h : m ∈ idMembers id e) : (∃ i ∈ id, m = ("id", .string i)) ∨ m ∈ e.toMembers := by
  rcases List.mem_append.mp h with h | h
  · exact .inl (mem_memberIfSome.mp h)
  · exact .inr h

theorem fst_mem_of_mem_idMembers {id : Option NodeId} {e : Effect} {m : String × Json}
    (h : m ∈ idMembers id e) : m.1 ∈ "id" :: "type" :: Effect.fieldNames := by
  rcases mem_idMembers h with ⟨i, -, rfl⟩ | h
  · exact List.mem_cons_self
  · exact List.mem_cons_of_mem _ (Effect.mem_toMembers h).1

theorem id_not_mem : "id" ∉ "type" :: Effect.fieldNames := by
  decide

theorem fst_ne_id {e : Effect} {m : String × Json} (h : m ∈ e.toMembers) : m.1 ≠ "id" := by
  intro heq
  exact id_not_mem (heq ▸ (Effect.mem_toMembers h).1)

theorem nodup_keys_toMembers (e : Effect) : (e.toMembers.map Prod.fst).Nodup := by
  cases e with
  | damage d =>
      obtain ⟨damageType, formula, canCrit, canMiss, rollNote⟩ := d
      cases canCrit <;> cases canMiss <;> cases rollNote <;>
        simp [Effect.toMembers, Effect.fields, Damage.toMembers, memberIfSome]
  | healing h =>
      obtain ⟨healingType, formula, rollNote⟩ := h
      cases rollNote <;>
        simp [Effect.toMembers, Effect.fields, Healing.toMembers, memberIfSome]
  | condition c =>
      obtain ⟨condition, escape⟩ := c
      cases escape <;>
        simp [Effect.toMembers, Effect.fields, Condition.toMembers, memberIfSome]
  | savingThrow s =>
      obtain ⟨ability, dc⟩ := s
      cases dc <;>
        simp [Effect.toMembers, Effect.fields, SavingThrow.toMembers, memberIfSome]
  | damageOutcome p => simp [Effect.toMembers, Effect.fields, Portion.toMembers]
  | text n => simp [Effect.toMembers, Effect.fields, Note.toMembers]

theorem nodup_keys_idMembers (id : Option NodeId) (e : Effect) :
    ((idMembers id e).map Prod.fst).Nodup := by
  cases id with
  | none => exact nodup_keys_toMembers e
  | some i =>
      refine List.nodup_cons.mpr ⟨fun hmem => ?_, nodup_keys_toMembers e⟩
      obtain ⟨m, hm, heq⟩ := List.mem_map.mp hmem
      exact fst_ne_id hm heq

/-- With distinct names, one value stands under the name of a member. -/
theorem valuesOf_of_mem {ms : Members} (hnd : (ms.map Prod.fst).Nodup) {m : String × Json}
    (hm : m ∈ ms) : valuesOf m.1 ms = [m.2] := by
  induction ms with
  | nil => cases hm
  | cons n ms ih =>
      rw [List.map_cons, List.nodup_cons] at hnd
      rcases List.mem_cons.mp hm with rfl | hm
      · have hother : ∀ k ∈ ms, k.1 ≠ m.1 := by
          intro k hk heq
          exact hnd.1 (heq ▸ List.mem_map_of_mem hk)
        rw [valuesOf_cons, if_pos rfl, valuesOf_of_forall_ne hother]
      · have hne : n.1 ≠ m.1 := by
          intro heq
          exact hnd.1 (heq ▸ List.mem_map_of_mem hm)
        rw [valuesOf_cons, if_neg hne, ih hnd.2 hm]

/-- With distinct names, the order of members does not matter to what stands under a name. -/
theorem valuesOf_perm {ms ns : Members} (h : ms.Perm ns) (hnd : (ns.map Prod.fst).Nodup)
    (name : String) : valuesOf name ms = valuesOf name ns := by
  by_cases hname : ∃ m ∈ ns, m.1 = name
  · obtain ⟨m, hm, rfl⟩ := hname
    rw [valuesOf_of_mem hnd hm,
      valuesOf_of_mem ((h.map Prod.fst).nodup_iff.mpr hnd) (h.mem_iff.mpr hm)]
  · rw [valuesOf_of_forall_ne fun m hm heq => hname ⟨m, hm, heq⟩,
      valuesOf_of_forall_ne fun m hm heq => hname ⟨m, h.mem_iff.mp hm, heq⟩]

theorem ofMembers?_congr {ms ns : Members} (h : ∀ name, valuesOf name ms = valuesOf name ns) :
    Effect.ofMembers? ms = Effect.ofMembers? ns := by
  have hfields : Effect.ofFields? ms = Effect.ofFields? ns := by
    funext typeName
    simp only [Effect.ofFields?, Damage.ofMembers?, Healing.ofMembers?, Condition.ofMembers?,
      SavingThrow.ofMembers?, Portion.ofMembers?, Note.ofMembers?, required?, optional?,
      defaulted?, h]
  rw [Effect.ofMembers?, Effect.ofMembers?, required?, required?, h, hfields]

theorem eq_of_ofText_text {cs : List Char} {s : String} (h : Scalar.ofText cs = .text s) :
    s = String.ofList cs := by
  unfold Scalar.ofText at h
  split at h
  · cases h
  · split at h
    · cases h
    · split at h
      · cases h
      · split at h
        · cases h
        · split at h
          · cases h
          · cases h
            rfl

/-- Free text that is taken for something else is no string. -/
theorem string?_ofText {s : String} (h : ¬ ReadsAsText s) :
    string? (Scalar.ofText s.toList).toJson = none := by
  cases hs : Scalar.ofText s.toList with
  | text t =>
      have heq := eq_of_ofText_text hs
      rw [String.ofList_toList] at heq
      exact absurd (heq ▸ hs) h
  | null => rfl
  | bool b => rfl
  | integer n => rfl
  | double x => rfl

/-- The members as they come back. -/
def spelled (id : Option NodeId) (e : Effect) : Members :=
  (idMembers id e).map respelled

theorem keys_map_respelled (ms : Members) : (ms.map respelled).map Prod.fst = ms.map Prod.fst := by
  rw [List.map_map]
  congr 1
  funext m
  exact fst_respelled m

theorem nodup_keys_spelled (id : Option NodeId) (e : Effect) :
    ((spelled id e).map Prod.fst).Nodup := by
  rw [spelled, keys_map_respelled]
  exact nodup_keys_idMembers id e

section Spelled

variable {id : Option NodeId} {e : Effect}

theorem valuesOf_spelled {m : String × Json} (hm : m ∈ idMembers id e) :
    valuesOf m.1 (spelled id e) = [(respelled m).2] := by
  have hvalues := valuesOf_of_mem (nodup_keys_spelled id e) (List.mem_map_of_mem hm)
  rwa [fst_respelled] at hvalues

/-- What is kept of an effect is the effect, whatever becomes of the id. -/
theorem ofMembers?_spelled (hbare : e.Bare) (hprose : ∀ p ∈ e.prose?, IsWord p.2) :
    Effect.ofMembers? (spelled id e) = some e := by
  have hkept : e.toMembers.map respelled = e.toMembers := by
    refine (List.map_congr_left fun m hm => ?_).trans (List.map_id _)
    rcases kept_or_prose hbare hm with hkept | ⟨p, hp, rfl⟩
    · exact hkept.back
    · exact (kept_word p.1 (hprose p hp)).back
  refine Effect.ofMembers?_eq ?_
  rw [spelled, idMembers, List.map_append, hkept]
  refine (Agree.refl _ _).append_left fun m hm => ?_
  obtain ⟨n, hn, rfl⟩ := List.mem_map.mp hm
  obtain ⟨i, -, rfl⟩ := mem_memberIfSome.mp hn
  rw [fst_respelled]
  exact id_not_mem

theorem mem_toMembers_of_prose {p : String × String} (hp : p ∈ e.prose?) :
    (p.1, .string p.2) ∈ e.toMembers := by
  cases e with
  | damage d =>
      cases hp
      simp [Effect.toMembers, Effect.fields, Damage.toMembers]
  | healing h =>
      cases hp
      simp [Effect.toMembers, Effect.fields, Healing.toMembers]
  | condition c =>
      cases hp
      simp [Effect.toMembers, Effect.fields, Condition.toMembers]
  | savingThrow s => cases hp
  | damageOutcome o => cases hp
  | text n =>
      cases hp
      simp [Effect.toMembers, Effect.fields, Note.toMembers]

theorem ofFields?_eq_none {ms : Members} {p : String × String} (hp : p ∈ e.prose?)
    (h : ms.required? p.1 string? = none) : Effect.ofFields? ms e.typeName = none := by
  cases e with
  | damage d =>
      cases hp
      show (Damage.ofMembers? ms).map _ = none
      simp [Damage.ofMembers?, h]
  | healing d =>
      cases hp
      show (Healing.ofMembers? ms).map _ = none
      simp [Healing.ofMembers?, h]
  | condition c =>
      cases hp
      show (Condition.ofMembers? ms).map _ = none
      simp [Condition.ofMembers?, h]
  | savingThrow s => cases hp
  | damageOutcome o => cases hp
  | text n =>
      cases hp
      show (Note.ofMembers? ms).map _ = none
      simp [Note.ofMembers?, h]

/-- Without its free text, an effect is lost. -/
theorem ofMembers?_spelled_none {p : String × String} (hp : p ∈ e.prose?)
    (h : ¬ ReadsAsText p.2) : Effect.ofMembers? (spelled id e) = none := by
  have hmem : (p.1, Json.string p.2) ∈ idMembers id e :=
    List.mem_append_right _ (mem_toMembers_of_prose hp)
  have hne : p.1 ≠ "id" := fst_ne_id (mem_toMembers_of_prose hp)
  have hfield : (spelled id e).required? p.1 string? = none := by
    rw [required?, valuesOf_spelled hmem, respelled_of_ne hne]
    exact string?_ofText h
  have htype : (spelled id e).required? "type" Effect.typeName? = some e.typeName := by
    have hmem : ("type", Json.string e.typeName) ∈ idMembers id e :=
      List.mem_append_right _ List.mem_cons_self
    rw [required?, valuesOf_spelled hmem, (kept_word "type" (isWord_typeName e)).back]
    rfl
  rw [Effect.ofMembers?, htype]
  exact ofFields?_eq_none hp hfield

/-- Whatever the order of the members, the shorthand is read from what each of them comes back
as. -/
theorem effect?_spell_eq {ms : Members} (hms : ms.Perm (idMembers id e))
    (hvalues : ∀ m ∈ idMembers id e, Writable (valueText m.2)) :
    effect? (spell ms) =
      ((spelled id e).optional? "id" string?).bind fun i =>
        (Effect.ofMembers? (spelled id e)).map fun e => (i, e) := by
  have hnames : ∀ m ∈ ms, m.1 ∈ "id" :: "type" :: Effect.fieldNames := fun m hm =>
    fst_mem_of_mem_idMembers (hms.mem_iff.mp hm)
  have hnodup : (ms.map Prod.fst).Nodup :=
    (hms.map Prod.fst).nodup_iff.mpr (nodup_keys_idMembers id e)
  have hfields : fields? (spell ms) =
      some (ms.map fun m => (m.1, Scalar.ofText (valueText m.2))) := by
    rw [spell, fields?_render, List.map_map]
    · refine congrArg some ?_
      simp only [Function.comp_def, String.ofList_toList]
      refine lastPairs_of_nodup ?_
      rwa [List.map_map]
    · intro f hf
      obtain ⟨m, hm, rfl⟩ := List.mem_map.mp hf
      exact ⟨isKey_of_mem (hnames m hm), hvalues m (hms.mem_iff.mp hm)⟩
  have hmembers : (ms.map fun m => (m.1, Scalar.ofText (valueText m.2))).map member =
      ms.map respelled := by
    rw [List.map_map]
    rfl
  have hleaf : (ms.map respelled).any (fun m => m.1 = "sharedRolls" || m.1 = "on") = false := by
    refine List.any_eq_false.mpr fun m hm => ?_
    obtain ⟨n, hn, rfl⟩ := List.mem_map.mp hm
    have howner : ∀ name ∈ "id" :: "type" :: Effect.fieldNames,
        name ≠ "sharedRolls" ∧ name ≠ "on" := by decide
    obtain ⟨hshared, hon⟩ := howner _ (hnames n hn)
    rw [fst_respelled]
    simp [hshared, hon]
  have hsame : ∀ name, valuesOf name (ms.map respelled) = valuesOf name (spelled id e) :=
    valuesOf_perm (hms.map respelled) (nodup_keys_spelled id e)
  unfold effect?
  rw [hfields]
  dsimp only
  rw [hmembers, hleaf, if_neg Bool.false_ne_true, ofMembers?_congr hsame, optional?, optional?,
    hsame]
  cases Effect.ofMembers? (spelled id e) <;> rfl

theorem optional?_id_none : (spelled none e).optional? "id" string? = some none := by
  have hvalues : valuesOf "id" (spelled none e) = [] := by
    refine valuesOf_of_forall_ne fun m hm => ?_
    obtain ⟨n, hn, rfl⟩ := List.mem_map.mp hm
    rw [fst_respelled]
    exact fst_ne_id hn
  rw [optional?, hvalues]

theorem optional?_id_some {i : NodeId} {v : Json} (h : respelled ("id", .string i) = ("id", v)) :
    (spelled (some i) e).optional? "id" string? = Members.optional? [("id", v)] "id" string? := by
  have hmem : ("id", Json.string i) ∈ idMembers (some i) e := List.mem_cons_self
  have hvalues := valuesOf_spelled hmem
  rw [h] at hvalues
  rw [optional?, optional?, hvalues]
  rfl

end Spelled

/-- The text of an id that was taken for a value: a number as it is printed, and text as it is. -/
def idText? : Scalar → Option String
  | .integer n => some (String.ofList (Text.intText n.toInt))
  | .double x => some (String.ofList x.text)
  | .text s => some s
  | _ => none

/-- An id that comes back as it was: one that is taken for text, or for a number that is printed in
this way. -/
def ReadsAsId (i : NodeId) : Prop :=
  idText? (Scalar.ofText i.toList) = some i

instance (i : NodeId) : Decidable (ReadsAsId i) :=
  inferInstanceAs (Decidable (_ = _))

theorem respelled_id {i : NodeId} (h : ReadsAsId i) :
    respelled ("id", .string i) = ("id", .string i) := by
  show member ("id", Scalar.ofText i.toList) = _
  unfold ReadsAsId at h
  cases hi : Scalar.ofText i.toList with
  | null =>
      rw [hi] at h
      cases h
  | bool b =>
      rw [hi] at h
      cases h
  | integer n =>
      rw [hi] at h
      exact congrArg (fun s => ("id", Json.string s)) (Option.some.inj h)
  | double x =>
      rw [hi] at h
      exact congrArg (fun s => ("id", Json.string s)) (Option.some.inj h)
  | text s =>
      rw [hi] at h
      exact congrArg (fun s => ("id", Json.string s)) (Option.some.inj h)

/-- A bare effect that is written in shorthand comes back with its id, in whatever order its fields
stand, if its free text is taken for text and its id for an id; and it is lost if its free text is
taken for something else. An id that reads as null is none, and one that reads as a truth value
spoils the effect. -/
theorem effect?_spell {id : Option NodeId} {e : Effect} {ms : Members} (hbare : e.Bare)
    (hid : ∀ i ∈ id, Writable i.toList) (hprose : ∀ p ∈ e.prose?, Writable p.2.toList)
    (hms : ms.Perm (idMembers id e)) :
    ((∀ p ∈ e.prose?, ReadsAsText p.2) → (∀ i ∈ id, ReadsAsId i) →
        effect? (spell ms) = some (id, e)) ∧
      ((∃ p ∈ e.prose?, ¬ ReadsAsText p.2) → effect? (spell ms) = none) ∧
      ((∀ p ∈ e.prose?, ReadsAsText p.2) → id = some "null" →
        effect? (spell ms) = some (none, e)) ∧
      (id = some "true" ∨ id = some "false" → effect? (spell ms) = none) := by
  have hvalues : ∀ m ∈ idMembers id e, Writable (valueText m.2) := by
    intro m hm
    rcases mem_idMembers hm with ⟨i, hi, rfl⟩ | hm
    · exact hid i hi
    · rcases kept_or_prose hbare hm with hkept | ⟨p, hp, rfl⟩
      · exact hkept.value
      · exact hprose p hp
  rw [effect?_spell_eq hms hvalues]
  refine ⟨fun htext hids => ?_, ?_, fun htext hnull => ?_, ?_⟩
  · rw [ofMembers?_spelled hbare fun p hp => ⟨hprose p hp, htext p hp⟩]
    cases id with
    | none => rw [optional?_id_none]; rfl
    | some i => rw [optional?_id_some (respelled_id (hids i rfl))]; rfl
  · rintro ⟨p, hp, htext⟩
    rw [ofMembers?_spelled_none hp htext]
    cases (spelled id e).optional? "id" string? <;> rfl
  · subst hnull
    rw [ofMembers?_spelled hbare fun p hp => ⟨hprose p hp, htext p hp⟩,
      optional?_id_some (v := .null) (by rfl)]
    rfl
  · rintro (rfl | rfl)
    · rw [optional?_id_some (v := .bool true) (by rfl)]
      rfl
    · rw [optional?_id_some (v := .bool false) (by rfl)]
      rfl

/-- A number as an id, and a note that holds signs of the notation. -/
theorem effect?_spell_note :
    effect? "@\x7bid=7; type=text; noteType=flavor; text=1 = \x7d\x7d" =
      some (some "7", .text ⟨.flavor, "1 = \x7d"⟩) := by
  have hspell : spell (idMembers (some "7") (.text ⟨.flavor, "1 = \x7d"⟩)) =
      "@\x7bid=7; type=text; noteType=flavor; text=1 = \x7d\x7d" := by
    decide
  have hperm := List.Perm.refl (idMembers (some "7") (.text ⟨.flavor, "1 = \x7d"⟩))
  have hbare : Effect.Bare (.text ⟨.flavor, "1 = \x7d"⟩) := trivial
  have hread := (effect?_spell hbare (by decide) (by decide) hperm).1
    (by decide) (by decide)
  rwa [hspell] at hread

/-- A formula without dice is taken for a number, and the damage is lost. -/
theorem not_forall_effect?_spell :
    ¬ ∀ (id : Option NodeId) (e : Effect) (ms : Members), e.Bare →
      (∀ i ∈ id, Writable i.toList) → (∀ p ∈ e.prose?, Writable p.2.toList) →
      ms.Perm (idMembers id e) → effect? (spell ms) = some (id, e) := by
  intro hall
  have hread := hall none (.damage ⟨.fire, "5", none, none, none⟩)
    (idMembers none (.damage ⟨.fire, "5", none, none, none⟩)) rfl (by decide)
    (by decide) (.refl _)
  have hlost : effect? (spell (idMembers none (.damage ⟨.fire, "5", none, none, none⟩))) =
      none := by
    decide
  rw [hlost] at hread
  cases hread

end Shorthand

end Spellwork
