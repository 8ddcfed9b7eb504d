import Spellwork.Proofs.Grow
import Spellwork.Proofs.Valid

/-!
# What the loader accepts

The headline: a list of records loads exactly if it is `Acceptable`, the tree then holds the records
as they are (`Describes`), and otherwise the error is the one of `Rejection`. The three kinds of
fault are looked for one after the other: a repeated id, then a record that may not stand where it
says, then a record from which no root is reached. Within each kind the first record of the list
counts.
-/

namespace Spellwork

namespace Tree

open Forest

/-! ## Repeated ids -/

theorem repeatedId?_eq_none_iff {seen : List NodeId} {rs : List Record} :
    repeatedId? seen rs = none ↔
      (∀ r ∈ rs, r.id ∉ seen) ∧ (rs.map Record.id).Nodup := by
  induction rs generalizing seen with
  | nil => simp [repeatedId?]
  | cons x rs ih =>
      unfold repeatedId?
      by_cases hx : x.id ∈ seen
      · simp [hx]
      · simp only [List.contains_eq_mem, hx, decide_false, Bool.false_eq_true, if_false, ih,
          List.mem_cons, not_or, forall_eq_or_imp, List.map_cons, List.nodup_cons, List.mem_map,
          not_exists, not_and, not_false_eq_true, true_and]
        constructor
        · rintro ⟨hrest, hnd⟩
          exact ⟨fun r hr => (hrest r hr).2, fun r hr => (hrest r hr).1, hnd⟩
        · rintro ⟨hseen, hne, hnd⟩
          exact ⟨fun r hr => ⟨hne r hr, hseen r hr⟩, hnd⟩

/-- The id is that of the first record whose id stands on an earlier one. -/
theorem repeatedId?_eq_some_iff {seen : List NodeId} {rs : List Record} {id : NodeId} :
    repeatedId? seen rs = some id ↔
      ∃ front r rest, rs = front ++ r :: rest ∧ r.id = id ∧
        (r.id ∈ seen ∨ r.id ∈ front.map Record.id) ∧
        (∀ s ∈ front, s.id ∉ seen) ∧ (front.map Record.id).Nodup := by
  induction rs generalizing seen with
  | nil => simp [repeatedId?]
  | cons x rs ih =>
      unfold repeatedId?
      by_cases hx : x.id ∈ seen
      · simp only [List.contains_eq_mem, hx, decide_true, if_true, Option.some.injEq]
        constructor
        · rintro rfl
          exact ⟨[], x, rs, rfl, rfl, Or.inl hx, by simp, List.nodup_nil⟩
        · rintro ⟨front, r, rest, hrs, rfl, -, hfront, -⟩
          cases front with
          | nil => rw [(List.cons.inj hrs).1]
          | cons y front =>
              obtain ⟨rfl, -⟩ := List.cons.inj hrs
              exact absurd hx (hfront x (List.mem_cons_self ..))
      · simp only [List.contains_eq_mem, hx, decide_false, Bool.false_eq_true, if_false, ih]
        constructor
        · rintro ⟨front, r, rest, rfl, rfl, hrepeat, hfront, hnd⟩
          refine ⟨x :: front, r, rest, rfl, rfl, ?_, ?_, ?_⟩
          · simpa [or_assoc, or_comm, or_left_comm] using hrepeat
          · intro s hs
            rcases List.mem_cons.mp hs with rfl | hs
            · exact hx
            · exact fun hmem => hfront s hs (List.mem_cons_of_mem _ hmem)
          · refine List.nodup_cons.mpr ⟨fun hmem => ?_, hnd⟩
            obtain ⟨s, hs, hid⟩ := List.mem_map.mp hmem
            exact hfront s hs (hid ▸ List.mem_cons_self ..)
        · rintro ⟨front, r, rest, hrs, rfl, hrepeat, hfront, hnd⟩
          cases front with
          | nil =>
              obtain ⟨rfl, -⟩ := List.cons.inj hrs
              exact absurd hrepeat (by simpa using hx)
          | cons y front =>
              obtain ⟨rfl, rfl⟩ := List.cons.inj hrs
              obtain ⟨hfresh, hnd⟩ := List.nodup_cons.mp hnd
              refine ⟨front, r, rest, rfl, rfl, ?_, ?_, hnd⟩
              · simpa [or_assoc, or_comm, or_left_comm] using hrepeat
              · intro s hs hmem
                rcases List.mem_cons.mp hmem with hid | hmem
                · exact hfresh (hid ▸ List.mem_map_of_mem hs)
                · exact hfront s (List.mem_cons_of_mem _ hs) hmem

/-! ## Places -/

/-- A record may stand in the place that it names: it is a root and no damage outcome, or it names
an effect of the list that admits it. -/
def Allowed (rs : List Record) (r : Record) : Prop :=
  match r.parent with
  | none => r.effect.isDamageOutcome = false
  | some p => ∃ q ∈ rs, q.id = p ∧ q.effect.Admits r.node

theorem allowed_root_iff {rs : List Record} {r : Record} (hp : r.parent = none) :
    Allowed rs r ↔ r.effect.isDamageOutcome = false := by
  rw [Allowed, hp]

theorem allowed_below_iff {rs : List Record} {r : Record} {p : NodeId} (hp : r.parent = some p) :
    Allowed rs r ↔ ∃ q ∈ rs, q.id = p ∧ q.effect.Admits r.node := by
  rw [Allowed, hp]

theorem Allowed.mono {rs rs' : List Record} (hsub : rs ⊆ rs') {r : Record} (h : Allowed rs r) :
    Allowed rs' r := by
  cases hp : r.parent with
  | none => exact (allowed_root_iff hp).mpr ((allowed_root_iff hp).mp h)
  | some p =>
      obtain ⟨q, hq, hid, hadmits⟩ := (allowed_below_iff hp).mp h
      exact (allowed_below_iff hp).mpr ⟨q, hsub hq, hid, hadmits⟩

/-- What is wrong with the place of a record, each fault given that those before it are absent. -/
inductive Fault (rs : List Record) (r : Record) : EditError → Prop where
  | outcomeAsRoot (hp : r.parent = none) (hkind : r.effect.isDamageOutcome = true) :
      Fault rs r (.outcomeAsRoot r.id)
  | missingOutcome {p : NodeId} (hp : r.parent = some p) (ho : r.outcome = none) :
      Fault rs r (.missingOutcome r.id)
  | unknownNode {p : NodeId} {o : Outcome} (hp : r.parent = some p) (ho : r.outcome = some o)
      (habsent : ∀ q ∈ rs, q.id ≠ p) : Fault rs r (.unknownNode p)
  | invalidEdge {q : Record} {o : Outcome} (hp : r.parent = some q.id) (ho : r.outcome = some o)
      (hq : q ∈ rs) (hown : q.effect.canOwn o = false) :
      Fault rs r (.invalidEdge q.id q.effect.typeName o)
  | invalidSharedRoll {q : Record} (hp : r.parent = some q.id)
      (ho : r.outcome = some .sharedRolls) (hq : q ∈ rs)
      (hown : q.effect.canOwn .sharedRolls = true) (hkind : r.effect.isDamage = false) :
      Fault rs r (.invalidSharedRoll q.id r.id r.effect.typeName)

theorem checkEdge_eq_error_iff {owner : Option Effect} {p id : NodeId} {o : Outcome} {e : Effect}
    {err : EditError} :
    checkEdge owner p o id e = .error err ↔
      (owner = none ∧ err = .unknownNode p) ∨
      ∃ w, owner = some w ∧
        ((w.canOwn o = false ∧ err = .invalidEdge p w.typeName o) ∨
          (w.canOwn o = true ∧ o = .sharedRolls ∧ e.isDamage = false ∧
            err = .invalidSharedRoll p id e.typeName)) := by
  constructor
  · intro h
    cases owner with
    | none =>
        cases h
        exact Or.inl ⟨rfl, rfl⟩
    | some w =>
        refine Or.inr ⟨w, rfl, ?_⟩
        unfold checkEdge at h
        dsimp only at h
        split at h
        · rename_i hown
          cases h
          exact Or.inl ⟨by simpa using hown, rfl⟩
        · rename_i hown
          split at h
          · rename_i hshared
            cases h
            simp only [Bool.and_eq_true, decide_eq_true_eq, Bool.not_eq_true'] at hshared
            exact Or.inr ⟨by simpa using hown, hshared.1, hshared.2, rfl⟩
          · cases h
  · rintro (⟨rfl, rfl⟩ | ⟨w, rfl, ⟨hown, rfl⟩ | ⟨hown, rfl, hkind, rfl⟩⟩)
    · rfl
    · simp [checkEdge, hown]
    · simp [checkEdge, hown, hkind]

section Places

variable {rs : List Record} (hnd : (rs.map Record.id).Nodup)

/-- A record with a parent and an outcome is in the wrong place if its edge is wrong. -/
theorem placeError?_edge {r : Record} {p : NodeId} {o : Outcome} (hp : r.parent = some p)
    (ho : r.outcome = some o) :
    (placeError? rs r = none ↔
      checkEdge ((rs.find? fun q => q.id = p).map Record.effect) p o r.id r.effect = .ok ()) ∧
    ∀ e, placeError? rs r = some e ↔
      checkEdge ((rs.find? fun q => q.id = p).map Record.effect) p o r.id r.effect =
        .error e := by
  simp only [placeError?, hp, ho]
  cases checkEdge ((rs.find? fun q => q.id = p).map Record.effect) p o r.id r.effect with
  | error e => simp
  | ok u => simp

theorem owner_eq_none_iff {p : NodeId} :
    (rs.find? fun q => q.id = p).map Record.effect = none ↔ ∀ q ∈ rs, q.id ≠ p := by
  simp [List.find?_eq_none]

include hnd

theorem owner_eq_some_iff {p : NodeId} {w : Effect} :
    (rs.find? fun q => q.id = p).map Record.effect = some w ↔
      ∃ q ∈ rs, q.id = p ∧ q.effect = w := by
  simp only [Option.map_eq_some_iff, Record.find?_id_eq_some_iff hnd, and_assoc]

theorem placeError?_eq_none_iff {r : Record} : placeError? rs r = none ↔ Allowed rs r := by
  cases hp : r.parent with
  | none => simp [placeError?, allowed_root_iff hp, hp]
  | some p =>
      rw [allowed_below_iff hp]
      cases ho : r.outcome with
      | none => simp [placeError?, Effect.Admits, Record.node, hp, ho]
      | some o =>
          rw [(placeError?_edge hp ho).1, checkEdge_eq_ok_iff]
          simp only [owner_eq_some_iff hnd, Effect.Admits, Record.node, ho, Option.some.injEq]
          constructor
          · rintro ⟨w, ⟨q, hq, hid, rfl⟩, hown, hshared⟩
            exact ⟨q, hq, hid, o, rfl, hown, hshared⟩
          · rintro ⟨q, hq, hid, o', rfl, hown, hshared⟩
            exact ⟨q.effect, ⟨q, hq, hid, rfl⟩, hown, hshared⟩

theorem placeError?_eq_some_iff {r : Record} {e : EditError} :
    placeError? rs r = some e ↔ Fault rs r e := by
  constructor
  · intro h
    cases hp : r.parent with
    | none =>
        simp only [placeError?, hp] at h
        split at h
        · rename_i hkind
          cases h
          exact Fault.outcomeAsRoot hp hkind
        · cases h
    | some p =>
        cases ho : r.outcome with
        | none =>
            simp only [placeError?, hp, ho] at h
            cases h
            exact Fault.missingOutcome hp ho
        | some o =>
            have hedge := ((placeError?_edge hp ho).2 e).mp h
            rcases checkEdge_eq_error_iff.mp hedge with ⟨hnone, rfl⟩ |
              ⟨w, hw, ⟨hown, rfl⟩ | ⟨hown, rfl, hkind, rfl⟩⟩
            · exact Fault.unknownNode hp ho (owner_eq_none_iff.mp hnone)
            · obtain ⟨q, hq, rfl, rfl⟩ := (owner_eq_some_iff hnd).mp hw
              exact Fault.invalidEdge hp ho hq hown
            · obtain ⟨q, hq, rfl, rfl⟩ := (owner_eq_some_iff hnd).mp hw
              exact Fault.invalidSharedRoll hp ho hq hown hkind
  · intro h
    cases h with
    | outcomeAsRoot hp hkind => simp [placeError?, hp, hkind]
    | missingOutcome hp ho => simp [placeError?, hp, ho]
    | unknownNode hp ho habsent =>
        rw [(placeError?_edge hp ho).2, checkEdge_eq_error_iff]
        exact Or.inl ⟨owner_eq_none_iff.mpr habsent, rfl⟩
    | @invalidEdge q o hp ho hq hown =>
        rw [(placeError?_edge hp ho).2, checkEdge_eq_error_iff]
        exact Or.inr ⟨q.effect, (owner_eq_some_iff hnd).mpr ⟨q, hq, rfl, rfl⟩,
          Or.inl ⟨hown, rfl⟩⟩
    | @invalidSharedRoll q hp ho hq hown hkind =>
        rw [(placeError?_edge hp ho).2, checkEdge_eq_error_iff]
        exact Or.inr ⟨q.effect, (owner_eq_some_iff hnd).mpr ⟨q, hq, rfl, rfl⟩,
          Or.inr ⟨hown, rfl, hkind, rfl⟩⟩

end Places

/-! ## Accepted lists -/

/-- The lists that are stored trees: distinct ids, places that are allowed, and a chain of parents
from every record to a root. -/
structure Acceptable (rs : List Record) : Prop where
  ids_nodup : (rs.map Record.id).Nodup
  allowed : ∀ r ∈ rs, Allowed rs r
  rooted : ∀ r ∈ rs, Rooted rs r.id

/-- What is reported for a list that is not one: the first record whose id stands on an earlier one,
or else the first with a fault in its place, or else the first from which no root is reached. -/
inductive Rejection (rs : List Record) : StorageError → Prop where
  | duplicate {front rest : List Record} {r : Record} (hrs : rs = front ++ r :: rest)
      (hfront : (front.map Record.id).Nodup) (hrepeat : r.id ∈ front.map Record.id) :
      Rejection rs (.edit (.duplicateId r.id))
  | misplaced {front rest : List Record} {r : Record} {e : EditError}
      (hnd : (rs.map Record.id).Nodup) (hrs : rs = front ++ r :: rest)
      (hfront : ∀ s ∈ front, Allowed rs s) (hfault : Fault rs r e) : Rejection rs (.edit e)
  | cycle {front rest : List Record} {r : Record} (hnd : (rs.map Record.id).Nodup)
      (hallowed : ∀ s ∈ rs, Allowed rs s) (hrs : rs = front ++ r :: rest)
      (hfront : ∀ s ∈ front, Rooted rs s.id) (hlost : ¬ Rooted rs r.id) :
      Rejection rs (.cycle r.id)

/-- A tree holds the records of a list as they are, and in every place in the order of the list. -/
structure Describes (rs : List Record) (t : Tree) : Prop where
  records : t.records.Perm rs
  get? : ∀ id, t.get? id = rs.find? fun r => r.id = id
  roots : t.roots = (rs.filter fun r => r.parent.isNone).map Record.id
  childrenOf : ∀ p o, t.childrenOf p o =
    (rs.filter fun r => r.parent = some p ∧ r.outcome = some o).map Record.id

theorem ofRecords?_of_repeated {rs : List Record} {id : NodeId} (h : repeatedId? [] rs = some id) :
    ofRecords? rs = .error (.edit (.duplicateId id)) := by
  simp [ofRecords?, h]

theorem ofRecords?_of_fault {rs : List Record} (hnd : (rs.map Record.id).Nodup) {e : EditError}
    (h : rs.findSome? (placeError? rs) = some e) : ofRecords? rs = .error (.edit e) := by
  have hrepeat : repeatedId? [] rs = none := repeatedId?_eq_none_iff.mpr ⟨by simp, hnd⟩
  simp [ofRecords?, hrepeat, h]

/-- With nothing else wrong only the records that the walk has missed count: where it has met as
many ids as there are records, it has missed none. -/
theorem ofRecords?_of_allowed {rs : List Record} (hnd : (rs.map Record.id).Nodup)
    (hall : ∀ r ∈ rs, Allowed rs r) :
    ofRecords? rs =
      match rs.find? fun r => !(reachable rs).contains r.id with
      | some r => .error (.cycle r.id)
      | none => .ok (grow rs rs.length none) := by
  have hrepeat : repeatedId? [] rs = none := repeatedId?_eq_none_iff.mpr ⟨by simp, hnd⟩
  have hplace : rs.findSome? (placeError? rs) = none :=
    List.findSome?_eq_none_iff.mpr fun r hr => (placeError?_eq_none_iff hnd).mpr (hall r hr)
  simp only [ofRecords?, hrepeat, hplace]
  split
  · rename_i hlen
    have hmet := (length_reachable_eq_iff hnd).mp hlen
    have hnone : (rs.find? fun r => !(reachable rs).contains r.id) = none :=
      List.find?_eq_none.mpr fun r hr => by simpa using (mem_reachable_iff hnd).mpr (hmet r hr)
    rw [hnone]
  · rfl

theorem find?_missed_eq_none_iff {rs : List Record} (hnd : (rs.map Record.id).Nodup) :
    (rs.find? fun r => !(reachable rs).contains r.id) = none ↔ ∀ r ∈ rs, Rooted rs r.id := by
  simp [List.find?_eq_none, mem_reachable_iff hnd]

theorem find?_missed_eq_some_iff {rs : List Record} (hnd : (rs.map Record.id).Nodup)
    {r : Record} :
    (rs.find? fun r => !(reachable rs).contains r.id) = some r ↔
      ¬ Rooted rs r.id ∧ ∃ front rest, rs = front ++ r :: rest ∧ ∀ s ∈ front, Rooted rs s.id := by
  simp [List.find?_eq_some_iff_append, mem_reachable_iff hnd]

theorem findSome?_placeError?_eq_some_iff {rs : List Record} (hnd : (rs.map Record.id).Nodup)
    {e : EditError} :
    rs.findSome? (placeError? rs) = some e ↔
      ∃ front r rest, rs = front ++ r :: rest ∧ Fault rs r e ∧ ∀ s ∈ front, Allowed rs s := by
  simp only [List.findSome?_eq_some_iff, placeError?_eq_some_iff hnd, placeError?_eq_none_iff hnd]

theorem findSome?_placeError?_eq_none_iff {rs : List Record} (hnd : (rs.map Record.id).Nodup) :
    rs.findSome? (placeError? rs) = none ↔ ∀ r ∈ rs, Allowed rs r := by
  simp only [List.findSome?_eq_none_iff, placeError?_eq_none_iff hnd]

/-! ## Success -/

theorem ofRecords?_eq_ok_iff {rs : List Record} {t : Tree} :
    ofRecords? rs = .ok t ↔ Acceptable rs ∧ t = grow rs rs.length none := by
  constructor
  · intro h
    cases hrepeat : repeatedId? [] rs with
    | some id =>
        rw [ofRecords?_of_repeated hrepeat] at h
        cases h
    | none =>
        have hnd := (repeatedId?_eq_none_iff.mp hrepeat).2
        cases hplace : rs.findSome? (placeError? rs) with
        | some e =>
            rw [ofRecords?_of_fault hnd hplace] at h
            cases h
        | none =>
            have hall := (findSome?_placeError?_eq_none_iff hnd).mp hplace
            rw [ofRecords?_of_allowed hnd hall] at h
            split at h
            · cases h
            · rename_i hmissed
              cases h
              exact ⟨⟨hnd, hall, (find?_missed_eq_none_iff hnd).mp hmissed⟩, rfl⟩
  · rintro ⟨h, rfl⟩
    rw [ofRecords?_of_allowed h.ids_nodup h.allowed,
      (find?_missed_eq_none_iff h.ids_nodup).mpr h.rooted]

theorem Grown.filter_parent {rs : List Record} {t : Tree} (h : Grown rs t) (hnd : t.ids.Nodup)
    {p : NodeId} (hp : p ∈ t.ids) :
    (t.records.filter fun r => r.parent = some p) = recordsOf rs (some p) := by
  obtain ⟨n, hn, rfl⟩ := List.mem_map.mp hp
  obtain ⟨c, hc⟩ := exists_mem_subtrees hn
  rw [← map_record_rootLabels hnd hc, h.below _ hc, List.map_map]
  refine (List.map_congr_left (g := id) fun r hr => ?_).trans (List.map_id _)
  -- the record of the node names the parent that the record names
  have hparent : r.parent = some n.id := (mem_recordsOf.mp hr).2
  rw [Function.comp_apply, ← hparent, Record.record_node, id_eq]

theorem describes_grow {rs : List Record} (h : Acceptable rs) :
    Describes rs (grow rs rs.length none) := by
  have hnd := h.ids_nodup
  have hgrown := grown_grow hnd
  have hndt := nodup_ids_grow hnd
  have hperm := records_grow_perm hnd h.rooted
  refine ⟨hperm, fun id => Option.ext fun r => ?_, ?_, fun p o => ?_⟩
  · rw [get?_eq_some_iff hndt, Record.find?_id_eq_some_iff hnd, hperm.mem_iff]
  · rw [Tree.roots, hgrown.roots, List.map_map]
    rfl
  · rw [childrenOf_eq hndt]
    by_cases hp : p ∈ (grow rs rs.length none).ids
    · rw [Record.filter_place, hgrown.filter_parent hndt hp, filter_recordsOf]
    · -- nothing names an id that is not there
      have hnone : ((grow rs rs.length none).records.filter fun r => r.parent = some p) = [] :=
        filter_recordsBelow_of_not_mem (by simp) hp
      have hnone' := hperm.filter fun r => r.parent = some p
      rw [hnone] at hnone'
      rw [Record.filter_place, Record.filter_place rs, hnone, ← hnone'.nil_eq]

theorem valid_grow {rs : List Record} (h : Acceptable rs) : Valid (grow rs rs.length none) := by
  have hgrown := grown_grow h.ids_nodup
  refine ⟨nodup_ids_grow h.ids_nodup, fun n hn => ?_, fun s hs n hn => ?_, fun s hs => ?_⟩
  · have hroot := h.allowed _ (hgrown.mem_rootLabels_iff.mp hn)
    exact (allowed_root_iff rfl).mp hroot
  · have hchild := h.allowed _ ((hgrown.mem_below_iff hs).mp hn)
    obtain ⟨q, hq, hid, hadmits⟩ := (allowed_below_iff rfl).mp hchild
    -- the record of the node above is the one that the place was checked against
    obtain ⟨above, habove⟩ := exists_record_of_label (mem_labels_of_mem_subtrees hs)
    rw [Record.eq_of_id h.ids_nodup hq (hgrown.record_mem habove) hid] at hadmits
    exact hadmits
  · rw [hgrown.below s hs, List.map_map]
    exact ordered_recordsOf rs s.1.id

/-! ## Failure -/

theorem ofRecords?_eq_error_iff {rs : List Record} {e : StorageError} :
    ofRecords? rs = .error e ↔ Rejection rs e := by
  constructor
  · intro h
    cases hrepeat : repeatedId? [] rs with
    | some id =>
        rw [ofRecords?_of_repeated hrepeat] at h
        cases h
        obtain ⟨front, r, rest, hrs, rfl, hmem, -, hfront⟩ := repeatedId?_eq_some_iff.mp hrepeat
        exact Rejection.duplicate hrs hfront (hmem.resolve_left List.not_mem_nil)
    | none =>
        have hnd := (repeatedId?_eq_none_iff.mp hrepeat).2
        cases hplace : rs.findSome? (placeError? rs) with
        | some e' =>
            rw [ofRecords?_of_fault hnd hplace] at h
            cases h
            obtain ⟨front, r, rest, hrs, hfault, hfront⟩ :=
              (findSome?_placeError?_eq_some_iff hnd).mp hplace
            exact Rejection.misplaced hnd hrs hfront hfault
        | none =>
            have hall := (findSome?_placeError?_eq_none_iff hnd).mp hplace
            rw [ofRecords?_of_allowed hnd hall] at h
            split at h
            · rename_i hmissed
              cases h
              obtain ⟨hlost, front, rest, hrs, hfront⟩ := (find?_missed_eq_some_iff hnd).mp hmissed
              exact Rejection.cycle hnd hall hrs hfront hlost
            · cases h
  · intro h
    cases h with
    | @duplicate front rest r hrs hfront hrepeat =>
        exact ofRecords?_of_repeated (repeatedId?_eq_some_iff.mpr
          ⟨front, r, rest, hrs, rfl, Or.inr hrepeat, by simp, hfront⟩)
    | @misplaced front rest r e hnd hrs hfront hfault =>
        exact ofRecords?_of_fault hnd ((findSome?_placeError?_eq_some_iff hnd).mpr
          ⟨front, r, rest, hrs, hfault, hfront⟩)
    | @cycle front rest r hnd hallowed hrs hfront hlost =>
        have hmissed := (find?_missed_eq_some_iff hnd).mpr ⟨hlost, front, rest, hrs, hfront⟩
        rw [ofRecords?_of_allowed hnd hallowed, hmissed]

/-- The loader accepts the acceptable lists and no others, what it returns is the tree of the list,
and what it reports otherwise is the first fault in the order of `Rejection`. -/
theorem ofRecords?_classifies (rs : List Record) :
    ((∃ t, ofRecords? rs = .ok t) ↔ Acceptable rs) ∧
      (∀ t, ofRecords? rs = .ok t → Describes rs t) ∧
      ∀ e, ofRecords? rs = .error e ↔ Rejection rs e := by
  refine ⟨⟨?_, ?_⟩, ?_, fun e => ofRecords?_eq_error_iff⟩
  · rintro ⟨t, ht⟩
    exact (ofRecords?_eq_ok_iff.mp ht).1
  · intro h
    exact ⟨_, ofRecords?_eq_ok_iff.mpr ⟨h, rfl⟩⟩
  · intro t ht
    obtain ⟨h, rfl⟩ := ofRecords?_eq_ok_iff.mp ht
    exact describes_grow h

end Tree

end Spellwork
