import Spellwork.Effect.Edit
import Spellwork.Proofs.Forest

/-!
# A tree seen through its records

Every way of looking at a tree is a filter on its records, once its ids are distinct: the record of
an id, the roots, and the children under an outcome. The last two are one thing, the ids listed in a
place (`Tree.listing`), and a place lists exactly the records that name it (`listing_eq`). This is
what ties the two halves of a stored tree together, the header of an effect and the list that holds
it.
-/

namespace Spellwork

/-- The place that a record names. One that names a parent without an outcome names none. -/
def Record.slot? (r : Record) : Option Slot :=
  match r.parent, r.outcome with
  | none, _ => some none
  | some p, some o => some (some (p, o))
  | some _, none => none

/-- The record of a node below a parent. -/
def Node.record (parent : Option NodeId) (n : Node) : Record :=
  ⟨n.id, parent, n.outcome, n.effect⟩

@[simp] theorem Node.node_record (parent : Option NodeId) (n : Node) :
    (n.record parent).node = n := rfl

@[simp] theorem Record.record_node (r : Record) : r.node.record r.parent = r := rfl

@[simp] theorem Record.id_node (r : Record) : r.node.id = r.id := rfl

theorem Record.slot?_eq_root_iff {r : Record} : r.slot? = some none ↔ r.parent = none := by
  obtain ⟨id, parent, outcome, effect⟩ := r
  cases parent <;> cases outcome <;> simp [slot?]

theorem Record.slot?_eq_below_iff {r : Record} {p : NodeId} {o : Outcome} :
    r.slot? = some (some (p, o)) ↔ r.parent = some p ∧ r.outcome = some o := by
  obtain ⟨id, parent, outcome, effect⟩ := r
  cases parent <;> cases outcome <;> simp [slot?]

/-! ## Records with distinct ids -/

/-- The records in a place are, of those with its parent, the ones with its outcome. -/
theorem Record.filter_place (rs : List Record) (p : NodeId) (o : Outcome) :
    (rs.filter fun r => r.parent = some p ∧ r.outcome = some o) =
      (rs.filter fun r => r.parent = some p).filter fun r => r.outcome = some o := by
  rw [List.filter_filter]
  refine List.filter_congr fun r _ => ?_
  by_cases ho : r.outcome = some o <;> simp [ho]

/-- The branches under an outcome are those of the records with it. -/
theorem Record.filter_branches (rs : List Record) (o : Outcome) :
    ((rs.filterMap fun r => r.outcome.map fun o => (o, r.id)).filter fun b => b.1 = o).map (·.2) =
      (rs.filter fun r => r.outcome = some o).map Record.id := by
  induction rs with
  | nil => rfl
  | cons r rs ih =>
      cases ho : r.outcome with
      | none => simpa [ho] using ih
      | some o' => by_cases heq : o' = o <;> simpa [ho, heq] using ih

section Distinct

variable {rs : List Record}

theorem Record.eq_of_id (hnd : (rs.map Record.id).Nodup) {r s : Record} (hr : r ∈ rs)
    (hs : s ∈ rs) (hid : r.id = s.id) : r = s :=
  List.inj_on_of_nodup_map hnd hr hs hid

/-- Where ids are distinct, looking for one finds what has it. -/
theorem find?_key_eq_some_iff {α : Type u} {key : α → NodeId} {xs : List α}
    (hnd : (xs.map key).Nodup) {id : NodeId} {x : α} :
    xs.find? (fun y => key y = id) = some x ↔ x ∈ xs ∧ key x = id := by
  constructor
  · intro h
    exact ⟨List.mem_of_find?_eq_some h, by simpa using List.find?_some h⟩
  · rintro ⟨hx, rfl⟩
    cases hf : xs.find? fun y => key y = key x with
    | none => exact absurd (decide_eq_true rfl) (List.find?_eq_none.mp hf x hx)
    | some y =>
        have hkey : key y = key x := by simpa using List.find?_some hf
        rw [List.inj_on_of_nodup_map hnd (List.mem_of_find?_eq_some hf) hx hkey]

theorem Record.find?_id_eq_some_iff (hnd : (rs.map Record.id).Nodup) {id : NodeId} {r : Record} :
    rs.find? (fun s => s.id = id) = some r ↔ r ∈ rs ∧ r.id = id :=
  find?_key_eq_some_iff hnd

/-- How often an id stands among those of the records with a property. -/
theorem Record.count_id_filter (hnd : (rs.map Record.id).Nodup) (p : Record → Bool) {r : Record}
    (hr : r ∈ rs) : ((rs.filter p).map Record.id).count r.id = if p r then 1 else 0 := by
  have hsub : ((rs.filter p).map Record.id).Nodup :=
    (List.filter_sublist.map Record.id).nodup hnd
  split
  · rename_i hp
    exact List.count_eq_one_of_mem hsub
      (List.mem_map_of_mem (List.mem_filter.mpr ⟨hr, hp⟩))
  · rename_i hp
    refine List.count_eq_zero_of_not_mem fun hmem => hp ?_
    obtain ⟨s, hs, hid⟩ := List.mem_map.mp hmem
    obtain ⟨hsrs, hps⟩ := List.mem_filter.mp hs
    rwa [Record.eq_of_id hnd hsrs hr hid] at hps

end Distinct

namespace Tree

open Forest

/-- The ids of a tree, an id before those below it. -/
def ids (t : Tree) : List NodeId :=
  t.labels.map Node.id

theorem mem_ids_node {id : NodeId} {n : Node} {c r : Tree} :
    id ∈ ids (.node n c r) ↔ id = n.id ∨ id ∈ ids c ∨ id ∈ ids r := by
  simp [ids]

theorem nodup_ids_node {n : Node} {c r : Tree} (h : (ids (.node n c r)).Nodup) :
    n.id ∉ ids c ∧ n.id ∉ ids r ∧ (ids c).Nodup ∧ (ids r).Nodup ∧ ∀ id ∈ ids c, id ∉ ids r := by
  simp only [ids, labels_node, List.map_cons, List.map_append, List.nodup_cons,
    List.mem_append, not_or] at h
  obtain ⟨⟨hc, hr⟩, happend⟩ := h
  obtain ⟨hndc, hndr, hdisj⟩ := List.nodup_append.mp happend
  exact ⟨hc, hr, hndc, hndr, fun id hidc hidr => hdisj id hidc id hidr rfl⟩

theorem id_mem_ids_of_mem_subtrees {t : Tree} {s : Node × Tree} (h : s ∈ t.subtrees) :
    s.1.id ∈ t.ids :=
  List.mem_map_of_mem (mem_labels_of_mem_subtrees h)

/-- The ids that stand in a place. -/
def listing (t : Tree) : Slot → List NodeId
  | none => t.roots
  | some (p, o) => t.childrenOf p o

/-! ## Records and nodes -/

theorem map_node_recordsBelow (q : Option NodeId) (t : Tree) :
    (recordsBelow q t).map Record.node = t.labels := by
  induction t generalizing q with
  | nil => rfl
  | node n c r ihc ihr => simp [recordsBelow, ihc, ihr, Record.node]

theorem map_id_recordsBelow (q : Option NodeId) (t : Tree) :
    (recordsBelow q t).map Record.id = t.ids := by
  rw [ids, ← map_node_recordsBelow q, List.map_map]
  rfl

theorem map_id_records (t : Tree) : t.records.map Record.id = t.ids :=
  map_id_recordsBelow none t

theorem recordsBelow_append (q : Option NodeId) (s t : Tree) :
    recordsBelow q (s ++ t) = recordsBelow q s ++ recordsBelow q t := by
  induction s with
  | nil => rfl
  | node n c r _ ih => simp [recordsBelow, ih]

theorem recordsBelow_map {f : Node → Node} (hid : ∀ n, (f n).id = n.id) (q : Option NodeId)
    (t : Tree) :
    recordsBelow q (t.map f) = (recordsBelow q t).map fun r => (f r.node).record r.parent := by
  induction t generalizing q with
  | nil => rfl
  | node n c r ihc ihr => simp [recordsBelow, ihc, ihr, hid, Node.record, Record.node]

/-- A change to every effect is one to every record. -/
theorem flatten_map_effect (f : Effect → Effect) (t : Tree) :
    flatten (t.map fun n => { n with effect := f n.effect }) =
      t.flatten.map fun r => { r with effect := f r.effect } := by
  have hid : ∀ n : Node, Node.id { n with effect := f n.effect } = n.id := fun _ => rfl
  rw [flatten, flattenUnder, records, recordsBelow_map hid, flatten, flattenUnder, records,
    List.map_map, List.map_map]
  refine List.map_congr_left fun r _ => ?_
  obtain ⟨id, parent, outcome, effect⟩ := r
  cases parent <;> rfl

/-- A record is that of a root, or it names the node directly above it as its parent. -/
theorem mem_recordsBelow_iff {q : Option NodeId} {t : Tree} {r : Record} :
    r ∈ recordsBelow q t ↔ (r.parent = q ∧ r.node ∈ t.rootLabels) ∨
      ∃ s ∈ t.subtrees, r.parent = some s.1.id ∧ r.node ∈ s.2.rootLabels := by
  induction t generalizing q with
  | nil => simp [recordsBelow]
  | node n c k ihc ihk =>
      simp only [recordsBelow, List.mem_cons, List.mem_append, ihc, ihk, rootLabels_node,
        subtrees_node]
      constructor
      · rintro (rfl | (⟨hp, hn⟩ | ⟨s, hs, hp⟩) | ⟨hp, hn⟩ | ⟨s, hs, hp⟩)
        · exact Or.inl ⟨rfl, Or.inl rfl⟩
        · exact Or.inr ⟨(n, c), Or.inl rfl, hp, hn⟩
        · exact Or.inr ⟨s, Or.inr (Or.inl hs), hp⟩
        · exact Or.inl ⟨hp, Or.inr hn⟩
        · exact Or.inr ⟨s, Or.inr (Or.inr hs), hp⟩
      · rintro (⟨rfl, rfl | hn⟩ | ⟨s, rfl | hs | hs, hp⟩)
        · exact Or.inl rfl
        · exact Or.inr (Or.inr (Or.inl ⟨rfl, hn⟩))
        · exact Or.inr (Or.inl (Or.inl hp))
        · exact Or.inr (Or.inl (Or.inr ⟨s, hs, hp⟩))
        · exact Or.inr (Or.inr (Or.inr ⟨s, hs, hp⟩))

theorem record_mem_of_root {t : Tree} {n : Node} (h : n ∈ t.rootLabels) :
    n.record none ∈ t.records :=
  mem_recordsBelow_iff.mpr (Or.inl ⟨rfl, h⟩)

theorem record_mem_of_child {t : Tree} {s : Node × Tree} {n : Node} (hs : s ∈ t.subtrees)
    (h : n ∈ s.2.rootLabels) : n.record (some s.1.id) ∈ t.records :=
  mem_recordsBelow_iff.mpr (Or.inr ⟨s, hs, rfl, h⟩)

theorem exists_record_of_label {t : Tree} {n : Node} (h : n ∈ t.labels) :
    ∃ q, n.record q ∈ t.records := by
  rcases mem_labels_iff.mp h with hroot | ⟨s, hs, hn⟩
  · exact ⟨none, record_mem_of_root hroot⟩
  · exact ⟨_, record_mem_of_child hs hn⟩

/-- A record that names a parent stands below it. -/
theorem exists_subtree_of_record {t : Tree} {r : Record} {p : NodeId} (h : r ∈ t.records)
    (hp : r.parent = some p) : ∃ s ∈ t.subtrees, s.1.id = p ∧ r.node ∈ s.2.rootLabels := by
  rcases mem_recordsBelow_iff.mp h with ⟨hnone, -⟩ | ⟨s, hs, hsp, hn⟩
  · rw [hp] at hnone
    cases hnone
  · exact ⟨s, hs, Option.some.inj (hsp.symm.trans hp), hn⟩

theorem root_of_record {t : Tree} {r : Record} (h : r ∈ t.records) (hp : r.parent = none) :
    r.node ∈ t.rootLabels := by
  rcases mem_recordsBelow_iff.mp h with ⟨-, hn⟩ | ⟨s, -, hsp, -⟩
  · exact hn
  · rw [hp] at hsp
    cases hsp

theorem mem_ids_iff {t : Tree} {id : NodeId} : id ∈ t.ids ↔ ∃ r ∈ t.records, r.id = id := by
  rw [← map_id_records, List.mem_map]

/-! ## The record of an id -/

theorem get?_eq_some_iff {t : Tree} (hnd : t.ids.Nodup) {id : NodeId} {r : Record} :
    t.get? id = some r ↔ r ∈ t.records ∧ r.id = id := by
  rw [← map_id_records] at hnd
  exact Record.find?_id_eq_some_iff hnd

theorem contains_iff {t : Tree} {id : NodeId} : t.contains id = true ↔ id ∈ t.ids := by
  simp only [contains, get?, List.find?_isSome, decide_eq_true_eq, mem_ids_iff]

theorem mem_ids_of_record {t : Tree} {r : Record} (hr : r ∈ t.records) : r.id ∈ t.ids :=
  mem_ids_iff.mpr ⟨r, hr, rfl⟩

theorem mem_ids_of_get? {t : Tree} {id : NodeId} {r : Record} (hr : t.get? id = some r) :
    id ∈ t.ids :=
  contains_iff.mp (Option.isSome_iff_exists.mpr ⟨r, hr⟩)

/-- A record of a tree names a parent that is there. -/
theorem parent_mem_ids {t : Tree} {r : Record} (hr : r ∈ t.records) {p : NodeId}
    (hp : r.parent = some p) : p ∈ t.ids := by
  obtain ⟨s, hs, rfl, -⟩ := exists_subtree_of_record hr hp
  exact id_mem_ids_of_mem_subtrees hs

/-! ## Slots -/

theorem parent_isNone_of_mem_recordsBelow {p : NodeId} {t : Tree} {r : Record}
    (h : r ∈ recordsBelow (some p) t) : r.parent.isNone = false := by
  rcases mem_recordsBelow_iff.mp h with ⟨hp, -⟩ | ⟨s, -, hp, -⟩
  · rw [hp]
    rfl
  · rw [hp]
    rfl

/-- The records without a parent are those of the roots. -/
theorem filter_records_root (t : Tree) :
    (t.records.filter fun r => r.parent.isNone) = t.rootLabels.map (Node.record none) := by
  have hbelow : ∀ (p : NodeId) (c : Tree),
      (recordsBelow (some p) c).filter (fun r => r.parent.isNone) = [] := by
    intro p c
    refine List.filter_eq_nil_iff.mpr fun r hr => ?_
    simp [parent_isNone_of_mem_recordsBelow hr]
  unfold records
  induction t with
  | nil => rfl
  | node n c k _ ih => simp [recordsBelow, hbelow, ih, Node.record]

theorem roots_eq (t : Tree) :
    t.roots = (t.records.filter fun r => r.parent.isNone).map Record.id := by
  rw [filter_records_root, List.map_map]
  rfl

theorem filter_recordsBelow_of_not_mem {q : Option NodeId} {p : NodeId} {t : Tree}
    (hq : q ≠ some p) (hp : p ∉ t.ids) :
    (recordsBelow q t).filter (fun r => r.parent = some p) = [] := by
  refine List.filter_eq_nil_iff.mpr fun r hr => ?_
  rcases mem_recordsBelow_iff.mp hr with ⟨hrq, -⟩ | ⟨s, hs, hrs, -⟩
  · simpa [hrq] using hq
  · have hmem : s.1.id ∈ t.ids := List.mem_map_of_mem (mem_labels_of_mem_subtrees hs)
    simp only [hrs, Option.some.injEq, decide_eq_true_eq]
    exact fun heq => hp (heq ▸ hmem)

theorem filter_recordsBelow_self {p : NodeId} {t : Tree} (hp : p ∉ t.ids) :
    (recordsBelow (some p) t).filter (fun r => r.parent = some p) =
      t.rootLabels.map (Node.record (some p)) := by
  induction t with
  | nil => rfl
  | node n c k _ ih =>
      rw [mem_ids_node, not_or, not_or] at hp
      have hc : (recordsBelow (some n.id) c).filter (fun r => r.parent = some p) = [] :=
        filter_recordsBelow_of_not_mem (fun heq => hp.1 (Option.some.inj heq).symm) hp.2.1
      simp [recordsBelow, hc, ih hp.2.2, Node.record]

/-- The records that name an effect as their parent are those of the roots below it. -/
theorem filter_recordsBelow {q : Option NodeId} {p : NodeId} {t : Tree} (hnd : t.ids.Nodup)
    (hq : q ≠ some p) :
    (recordsBelow q t).filter (fun r => r.parent = some p) =
      ((t.below? fun n => n.id = p).elim [] rootLabels).map (Node.record (some p)) := by
  induction t generalizing q with
  | nil => rfl
  | node n c k ihc ihk =>
      obtain ⟨hnc, hnk, hndc, hndk, hdisj⟩ := nodup_ids_node hnd
      have hhead : decide (q = some p) = false := decide_eq_false hq
      simp only [recordsBelow, List.filter_cons, hhead, Bool.false_eq_true, if_false,
        List.filter_append]
      by_cases hid : n.id = p
      · -- the node itself: nothing beside what stands below it can name it
        subst hid
        rw [filter_recordsBelow_self hnc, filter_recordsBelow_of_not_mem hq hnk]
        simp [below?]
      · have hnp : some n.id ≠ some p := fun heq => hid (Option.some.inj heq)
        rw [ihc hndc hnp]
        cases hb : c.below? fun m => m.id = p with
        | none =>
            rw [ihk hndk hq]
            simp [below?, hid, hb]
        | some d =>
            obtain ⟨m, hm, hmp⟩ := mem_subtrees_of_below? hb
            have hmp : m.id = p := of_decide_eq_true hmp
            have hpc : p ∈ ids c :=
              hmp ▸ List.mem_map_of_mem (mem_labels_of_mem_subtrees hm)
            rw [filter_recordsBelow_of_not_mem hq (hdisj p hpc)]
            simp [below?, hid, hb]

theorem subtree_eq_of_id {t : Tree} (hnd : t.ids.Nodup) {s s' : Node × Tree}
    (hs : s ∈ t.subtrees) (hs' : s' ∈ t.subtrees) (hid : s.1.id = s'.1.id) : s = s' := by
  refine List.inj_on_of_nodup_map (f := fun s : Node × Tree => s.1.id) ?_ hs hs' hid
  rw [ids, ← map_fst_subtrees, List.map_map] at hnd
  exact hnd

/-- What stands below a node, through the records that name it. -/
theorem map_record_rootLabels {t : Tree} (hnd : t.ids.Nodup) {s : Node × Tree}
    (hs : s ∈ t.subtrees) :
    s.2.rootLabels.map (Node.record (some s.1.id)) =
      t.records.filter fun r => r.parent = some s.1.id := by
  rw [records, filter_recordsBelow hnd (by simp)]
  cases hb : t.below? fun n => n.id = s.1.id with
  | none =>
      have hne := below?_eq_none_iff.mp hb s.1 (mem_labels_of_mem_subtrees hs)
      exact absurd rfl (of_decide_eq_false hne)
  | some c =>
      obtain ⟨n, hn, hid⟩ := mem_subtrees_of_below? hb
      rw [← subtree_eq_of_id hnd hn hs (of_decide_eq_true hid)]
      rfl

theorem branches_eq {t : Tree} (hnd : t.ids.Nodup) (p : NodeId) :
    t.branches p = (t.records.filter fun r => r.parent = some p).filterMap
      fun r => r.outcome.map fun o => (o, r.id) := by
  rw [records, filter_recordsBelow hnd (by simp), List.filterMap_map]
  unfold branches
  cases t.below? fun n => n.id = p <;> rfl

/-- What stands below a node, with its outcomes. -/
theorem branches_of_mem_subtrees {t : Tree} (hnd : t.ids.Nodup) {s : Node × Tree}
    (hs : s ∈ t.subtrees) :
    t.branches s.1.id = s.2.rootLabels.filterMap fun n => n.outcome.map fun o => (o, n.id) := by
  rw [branches_eq hnd, ← map_record_rootLabels hnd hs, List.filterMap_map]
  rfl

theorem childrenOf_eq {t : Tree} (hnd : t.ids.Nodup) (p : NodeId) (o : Outcome) :
    t.childrenOf p o =
      (t.records.filter fun r => r.parent = some p ∧ r.outcome = some o).map Record.id := by
  rw [childrenOf, branches_eq hnd, Record.filter_branches, Record.filter_place]

theorem childrenOf_of_not_mem {t : Tree} (hnd : t.ids.Nodup) {p : NodeId} (hp : p ∉ t.ids)
    (o : Outcome) : t.childrenOf p o = [] := by
  have hnone : (t.records.filter fun r => r.parent = some p) = [] :=
    filter_recordsBelow_of_not_mem (by simp) hp
  rw [childrenOf_eq hnd, Record.filter_place, hnone]
  rfl

/-- A place lists exactly the records that name it, in their order. -/
theorem listing_eq {t : Tree} (hnd : t.ids.Nodup) (s : Slot) :
    t.listing s = (t.records.filter fun r => r.slot? = some s).map Record.id := by
  cases s with
  | none =>
      simp only [listing, roots_eq, Record.slot?_eq_root_iff]
      congr 2
      funext r
      cases r.parent <;> rfl
  | some s =>
      obtain ⟨p, o⟩ := s
      simp only [listing, childrenOf_eq hnd, Record.slot?_eq_below_iff]

end Tree

end Spellwork
