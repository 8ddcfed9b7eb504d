import Spellwork.Json.Basic

/-!
# Records in Json

Decoders of values and of the fields of records. A decoder answers `none` for a value of the wrong
type or out of range; a field that is repeated spoils its record, and names that no field has are
passed over.
-/

namespace Spellwork.Json

/-! ## Values -/

/-- A string. -/
def string? : Json → Option String
  | .string s => some s
  | _ => none

/-- A truth value. -/
def bool? : Json → Option Bool
  | .bool b => some b
  | _ => none

/-- An integer within bounds, the upper one excluded. -/
def integerIn? (low high : Int) : Json → Option Int
  | .integer n => if low ≤ n ∧ n < high then some n else none
  | _ => none

/-- A natural of 32 bits. -/
def uint32? (v : Json) : Option UInt32 :=
  (v.integerIn? 0 0x100000000).map fun n => UInt32.ofNat n.toNat

/-- A natural of 64 bits. -/
def uint64? (v : Json) : Option UInt64 :=
  (v.integerIn? 0 0x10000000000000000).map fun n => UInt64.ofNat n.toNat

/-- An integer of 32 bits. -/
def int32? (v : Json) : Option Int32 :=
  (v.integerIn? (-0x80000000) 0x80000000).map Int32.ofInt

/-- An integer of 64 bits. -/
def int64? (v : Json) : Option Int64 :=
  (v.integerIn? (-0x8000000000000000) 0x8000000000000000).map Int64.ofInt

/-- The items of an array. -/
def items? : Json → Option (List Json)
  | .array items => some items
  | _ => none

/-- The members of an object. -/
def members? : Json → Option (List (String × Json))
  | .object members => some members
  | _ => none

/-- An array of values of one kind. -/
def list? (decode : Json → Option α) (v : Json) : Option (List α) :=
  match v.items? with
  | some items => items.mapM decode
  | none => none

/-- One of the values that have a name, by its name. The name may also stand as the only key of an
object, with null as its value. -/
def named? (name : α → String) (all : List α) (v : Json) : Option α :=
  match v with
  | .string s => all.find? fun a => name a = s
  | .object [(s, .null)] => all.find? fun a => name a = s
  | _ => none

/-! ## Maps -/

/-- The pairs with the value of a key replaced, or with a new pair at the end. -/
def putPair (key : String) (value : α) : List (String × α) → List (String × α)
  | [] => [(key, value)]
  | (k, a) :: rest => if k = key then (k, value) :: rest else (k, a) :: putPair key value rest

/-- Each key once, with its last value. -/
def lastPairs (pairs : List (String × α)) : List (String × α) :=
  pairs.foldl (fun done p => putPair p.1 p.2 done) []

/-- Puts a pair behind those with smaller keys. -/
def placePair (p : String × α) : List (String × α) → List (String × α)
  | [] => [p]
  | q :: rest => if q.1 < p.1 then q :: placePair p rest else p :: q :: rest

/-- The pairs in the order of their keys. -/
def inKeyOrder (pairs : List (String × α)) : List (String × α) :=
  pairs.foldr placePair []

/-- An object as a map: a repeated key keeps its last value. -/
def map? (decode : Json → Option α) (v : Json) : Option (List (String × α)) :=
  match v.members? with
  | some members =>
    (members.mapM fun m => (decode m.2).map fun a => (m.1, a)).map lastPairs
  | none => none

/-! ## Fields -/

/-- The members of a record. -/
abbrev Members := List (String × Json)

namespace Members

/-- The values of a name, one for each time it stands in the record. -/
def valuesOf (name : String) (ms : Members) : List Json :=
  (ms.filter fun m => m.1 = name).map (·.2)

/-- A field that must be there. -/
def required? (ms : Members) (name : String) (decode : Json → Option α) : Option α :=
  match ms.valuesOf name with
  | [v] => decode v
  | _ => none

/-- A field that may be absent or null. -/
def optional? (ms : Members) (name : String) (decode : Json → Option α) : Option (Option α) :=
  match ms.valuesOf name with
  | [] => some none
  | [.null] => some none
  | [v] => (decode v).map some
  | _ => none

/-- A field with a value to take when it is absent. -/
def defaulted? (ms : Members) (name : String) (default : α) (decode : Json → Option α) :
    Option α :=
  match ms.valuesOf name with
  | [] => some default
  | [v] => decode v
  | _ => none

end Members

/-- Decodes a record from its members. -/
def record? (decode : Members → Option α) (v : Json) : Option α :=
  match v.members? with
  | some ms => decode ms
  | none => none

/-! ## Encoding -/

/-- The value of an option: null for none. -/
def ofOption (encode : α → Json) : Option α → Json
  | none => .null
  | some a => encode a

/-- A member that is left out for none. -/
def memberIfSome (name : String) (encode : α → Json) : Option α → Members
  | none => []
  | some a => [(name, encode a)]

/-- The value of a list. -/
def ofList (encode : α → Json) (as : List α) : Json :=
  .array (as.map encode)

/-- A natural of 32 bits. -/
def ofUInt32 (n : UInt32) : Json :=
  .integer n.toNat

/-- A natural of 64 bits. -/
def ofUInt64 (n : UInt64) : Json :=
  .integer n.toNat

/-- An integer of 64 bits. -/
def ofInt64 (n : Int64) : Json :=
  .integer n.toInt

/-- An integer of 32 bits. -/
def ofInt32 (n : Int32) : Json :=
  .integer n.toInt

/-! ## Laws of maps -/

theorem lookup_cons_eq (k q : String) (a : α) (ps : List (String × α)) :
    ((q, a) :: ps).lookup k = if k = q then some a else ps.lookup k := by
  rw [List.lookup_cons]
  by_cases h : k = q
  · rw [if_pos h, beq_iff_eq.mpr h]
  · rw [if_neg h, beq_eq_false_iff_ne.mpr h]

theorem lookup_putPair (key k : String) (value : α) (ps : List (String × α)) :
    (putPair key value ps).lookup k = if k = key then some value else ps.lookup k := by
  induction ps with
  | nil => exact lookup_cons_eq k key value []
  | cons p ps ih =>
    obtain ⟨q, a⟩ := p
    unfold putPair
    by_cases hq : q = key
    · rw [if_pos hq, lookup_cons_eq, lookup_cons_eq, hq]
      split <;> rfl
    · rw [if_neg hq, lookup_cons_eq, lookup_cons_eq, ih]
      by_cases h : k = q
      · rw [if_pos h, if_pos h, if_neg fun hk => hq (h.symm.trans hk)]
      · rw [if_neg h, if_neg h]

theorem mem_keys_putPair {key k : String} {value : α} {ps : List (String × α)} :
    k ∈ (putPair key value ps).map Prod.fst ↔ k = key ∨ k ∈ ps.map Prod.fst := by
  induction ps with
  | nil => simp [putPair]
  | cons p ps ih =>
    obtain ⟨q, a⟩ := p
    unfold putPair
    by_cases hq : q = key
    · rw [if_pos hq, List.map_cons, List.map_cons, List.mem_cons]
      show k = q ∨ _ ↔ k = key ∨ k = q ∨ _
      rw [hq, ← or_assoc, or_self]
    · rw [if_neg hq, List.map_cons, List.map_cons, List.mem_cons, List.mem_cons, ih]
      exact or_left_comm

theorem nodup_keys_putPair (key : String) (value : α) {ps : List (String × α)}
    (h : (ps.map Prod.fst).Nodup) : ((putPair key value ps).map Prod.fst).Nodup := by
  induction ps with
  | nil => exact List.nodup_cons.mpr ⟨List.not_mem_nil, List.nodup_nil⟩
  | cons p ps ih =>
    obtain ⟨q, a⟩ := p
    rw [List.map_cons, List.nodup_cons] at h
    unfold putPair
    by_cases hq : q = key
    · rw [if_pos hq]
      exact List.nodup_cons.mpr h
    · rw [if_neg hq]
      refine List.nodup_cons.mpr ⟨fun hm => ?_, ih h.2⟩
      rcases mem_keys_putPair.mp hm with heq | hm
      · exact hq heq
      · exact h.1 hm

/-- No key stands twice. -/
theorem nodup_keys_lastPairs (ps : List (String × α)) :
    ((lastPairs ps).map Prod.fst).Nodup := by
  have step : ∀ done : List (String × α), (done.map Prod.fst).Nodup →
      ((ps.foldl (fun done p => putPair p.1 p.2 done) done).map Prod.fst).Nodup := by
    induction ps with
    | nil => exact fun _ h => h
    | cons p ps ih => exact fun done h => ih _ (nodup_keys_putPair p.1 p.2 h)
  exact step [] List.nodup_nil

/-- The last value of a key counts. -/
theorem lookup_lastPairs (k : String) (ps : List (String × α)) :
    (lastPairs ps).lookup k = ps.reverse.lookup k := by
  have step : ∀ done : List (String × α),
      (ps.foldl (fun done p => putPair p.1 p.2 done) done).lookup k =
        (ps.reverse.lookup k).or (done.lookup k) := by
    induction ps with
    | nil => exact fun _ => rfl
    | cons p ps ih =>
      intro done
      rw [List.foldl_cons, ih, List.reverse_cons, List.lookup_append, lookup_putPair,
        lookup_cons_eq, Option.or_assoc]
      congr 1
      split <;> rfl
  rw [lastPairs, step]
  exact Option.or_none

end Spellwork.Json
