import Spellwork.Proofs.Reachable
import Spellwork.Proofs.WellFormed

/-!
# Storing and loading

Loading the records of a valid tree gives the tree back: the records determine what stands below
every node, and there is one forest like that (`Grown.unique`). Storing does not write all of a tree
down, though. A root may carry an outcome, which only a loaded list can have put there, and storing
leaves it out. So trees that operations build come back as they were, and a loaded tree comes back
with the outcomes of its roots cleared.
-/

namespace Spellwork

namespace Tree

open Forest

/-! ## Loading the records of a tree -/

theorem Valid.acceptable {t : Tree} (h : Valid t) : Acceptable t.records where
  ids_nodup := h.record_ids_nodup
  allowed := by
    intro r hr
    cases hp : r.parent with
    | none => exact (allowed_root_iff hp).mpr (h.root_kind r.node (root_of_record hr hp))
    | some p =>
        rw [allowed_below_iff hp]
        obtain ⟨q, hq, hadmits⟩ := h.owner_of_record hr hp
        obtain ⟨hmem, hid⟩ := (get?_eq_some_iff h.ids_nodup).mp hq
        exact ⟨q, hmem, hid, hadmits⟩
  rooted := fun _ hr => rooted_of_mem_records hr

/-- Siblings in order are left in their order, so a valid tree is the one that its records grow. -/
theorem Valid.grown {t : Tree} (h : Valid t) : Grown t.records t where
  roots := by
    rw [recordsOf, filter_records_root, List.map_map]
    exact (List.map_id _).symm
  below := by
    intro s hs
    have hfilter := map_record_rootLabels h.ids_nodup hs
    have hordered : Ordered ((t.records.filter fun r => r.parent = some s.1.id).map
        Record.outcome) := by
      rw [← hfilter, List.map_map]
      exact h.ordered s hs
    rw [recordsOf_of_ordered hordered, ← hfilter, List.map_map]
    exact (List.map_id _).symm

theorem Valid.ofRecords?_records {t : Tree} (h : Valid t) : ofRecords? t.records = .ok t := by
  have hacceptable := h.acceptable
  refine ofRecords?_eq_ok_iff.mpr ⟨hacceptable, ?_⟩
  exact h.grown.unique (grown_grow hacceptable.ids_nodup)

/-! ## What storing leaves out -/

/-- A tree with the outcomes of its roots cleared. -/
def clearRoots : Tree → Tree
  | .nil => .nil
  | .node n children rest => .node { n with outcome := none } children (clearRoots rest)

theorem map_rehome_recordsBelow (p : NodeId) (t : Tree) :
    (recordsBelow (some p) t).map (rehome none none) = recordsBelow (some p) t := by
  refine (List.map_congr_left (g := id) fun r hr => ?_).trans (List.map_id _)
  simp [rehome, parent_isNone_of_mem_recordsBelow hr]

theorem flatten_eq (t : Tree) : t.flatten = t.clearRoots.records := by
  unfold flatten flattenUnder records
  induction t with
  | nil => rfl
  | node n c r _ ih =>
      simp only [recordsBelow, clearRoots, List.map_cons, List.map_append,
        map_rehome_recordsBelow, ih]
      rfl

theorem ids_clearRoots (t : Tree) : t.clearRoots.ids = t.ids := by
  unfold ids
  induction t with
  | nil => rfl
  | node n c r _ ih => simp [clearRoots, ih]

theorem rootLabels_clearRoots (t : Tree) :
    t.clearRoots.rootLabels = t.rootLabels.map fun n => { n with outcome := none } := by
  induction t with
  | nil => rfl
  | node n c r _ ih => simp [clearRoots, ih]

theorem exists_of_mem_subtrees_clearRoots {t : Tree} {s : Node × Tree}
    (h : s ∈ t.clearRoots.subtrees) : ∃ n, (n, s.2) ∈ t.subtrees ∧ s.1.effect = n.effect := by
  induction t with
  | nil => cases h
  | node n c r _ ih =>
      rcases List.mem_cons.mp h with rfl | h
      · exact ⟨n, by simp, rfl⟩
      · rcases List.mem_append.mp h with h | h
        · exact ⟨s.1, by simp [h], rfl⟩
        · obtain ⟨m, hm, heffect⟩ := ih h
          exact ⟨m, by simp [hm], heffect⟩

theorem Valid.clearRoots {t : Tree} (h : Valid t) : Valid t.clearRoots where
  ids_nodup := by
    rw [ids_clearRoots]
    exact h.ids_nodup
  root_kind := by
    intro n hn
    rw [rootLabels_clearRoots] at hn
    obtain ⟨m, hm, rfl⟩ := List.mem_map.mp hn
    exact h.root_kind m hm
  admits := by
    intro s hs n hn
    obtain ⟨m, hm, heffect⟩ := exists_of_mem_subtrees_clearRoots hs
    rw [heffect]
    exact h.admits _ hm n hn
  ordered := by
    intro s hs
    obtain ⟨m, hm, -⟩ := exists_of_mem_subtrees_clearRoots hs
    exact h.ordered (m, s.2) hm

theorem Valid.ofRecords?_flatten {t : Tree} (h : Valid t) :
    ofRecords? t.flatten = .ok t.clearRoots := by
  rw [flatten_eq]
  exact h.clearRoots.ofRecords?_records

/-- No root carries an outcome. -/
def RootsBare (t : Tree) : Prop :=
  ∀ n ∈ t.rootLabels, n.outcome = none

theorem clearRoots_eq_iff {t : Tree} : t.clearRoots = t ↔ RootsBare t := by
  unfold RootsBare
  induction t with
  | nil => simp [Tree.clearRoots]
  | node n c r _ ih =>
      obtain ⟨id, outcome, effect⟩ := n
      simp only [Tree.clearRoots, Forest.node.injEq, Node.mk.injEq, true_and, and_true, ih,
        rootLabels_node, List.mem_cons, forall_eq_or_imp]
      exact and_congr_left' eq_comm

theorem RootsBare.flatten_eq {t : Tree} (h : RootsBare t) : t.flatten = t.records := by
  rw [Tree.flatten_eq, clearRoots_eq_iff.mpr h]

/-! ## Trees that operations build -/

theorem Edit.rootsBare {t t' : Tree} (h : Edit t t') (ht : RootsBare t) : RootsBare t' := by
  -- only insertion adds a root, and it adds one without an outcome
  have hmap : ∀ f : Node → Node, (∀ n, (f n).outcome = n.outcome) → RootsBare (t.map f) := by
    intro f hf n hn
    rw [rootLabels_map] at hn
    obtain ⟨m, hm, rfl⟩ := List.mem_map.mp hn
    exact (hf m).trans (ht m hm)
  cases h with
  | insert hok =>
      rcases insert_cases hok with ⟨-, -, -, rfl⟩ | ⟨p, o, -, -, -, -, -, -, rfl⟩
      · intro n hn
        rw [rootLabels_append, List.mem_append] at hn
        rcases hn with hn | hn
        · exact ht n hn
        · rw [List.mem_singleton.mp hn]
      · intro n hn
        rw [rootLabels_placeBelow] at hn
        exact ht n hn
  | update hok =>
      obtain ⟨r, -, -, rfl⟩ := update_eq_ok_iff.mp hok
      exact hmap _ (outcome_adjustNode _ _)
  | delete hok =>
      obtain ⟨-, rfl⟩ := delete_eq_ok_iff.mp hok
      intro n hn
      rw [rootLabels_prune] at hn
      exact ht n (List.mem_filter.mp hn).1
  | recast hf => exact hmap _ hf.outcome

theorem Edits.rootsBare {t t' : Tree} (h : Edits t t') (ht : RootsBare t) : RootsBare t' := by
  induction h with
  | refl => exact ht
  | tail _ hedit ih => exact hedit.rootsBare ih

theorem Built.rootsBare {t : Tree} (h : Built t) : RootsBare t := by
  induction h with
  | empty => exact fun _ hn => by cases hn
  | plant hok => exact (Outline.edits_plant hok).rootsBare fun _ hn => by cases hn
  | step _ hs ih => exact hs.edits.rootsBare ih

/-- A tree that operations have built is what loading makes of its stored records. -/
theorem Built.load_flatten {t : Tree} (h : Built t) : ofRecords? t.flatten = .ok t := by
  rw [h.reachable.valid.ofRecords?_flatten, clearRoots_eq_iff.mpr h.rootsBare]

theorem load_flatten_sharedRoll : ofRecords? sharedRoll.flatten = .ok sharedRoll :=
  Built.load_flatten built_sharedRoll

/-! ## Trees that are loaded -/

/-- A tree loaded from records is stored and loaded again without complaint, and comes back with the
outcomes of its roots cleared: as it was exactly if no record without a parent has an outcome. -/
theorem load_flatten_iff {rs : List Record} {t : Tree} (h : ofRecords? rs = .ok t) :
    ofRecords? t.flatten = .ok t.clearRoots ∧
      (ofRecords? t.flatten = .ok t ↔ ∀ r ∈ rs, r.parent = none → r.outcome = none) := by
  obtain ⟨hacceptable, rfl⟩ := ofRecords?_eq_ok_iff.mp h
  have hload := (valid_grow hacceptable).ofRecords?_flatten
  refine ⟨hload, ?_⟩
  rw [hload, Except.ok.injEq, clearRoots_eq_iff, RootsBare]
  have hgrown := grown_grow hacceptable.ids_nodup
  constructor
  · intro hbare r hr hp
    have hroot : r.node ∈ (grow rs rs.length none).rootLabels := by
      rwa [hgrown.mem_rootLabels_iff, ← hp, Record.record_node]
    exact hbare r.node hroot
  · intro hbare n hn
    exact hbare (n.record none) (hgrown.mem_rootLabels_iff.mp hn) rfl

theorem load_flatten_iff_reverse :
    ofRecords? sharedRoll.records.reverse = .ok sharedRoll ∧
      ofRecords? sharedRoll.flatten = .ok sharedRoll := by
  have hload : ofRecords? sharedRoll.records.reverse = .ok sharedRoll := by decide
  exact ⟨hload, (load_flatten_iff hload).2.mpr (by decide)⟩

/-- A record without a parent that has an outcome all the same. -/
def strayRecord : Record :=
  ⟨"r", none, some .miss, .condition ⟨"prone", none⟩⟩

/-- The tree of the stray record loads, but is not what its stored records load into. -/
theorem load_flatten_stray :
    ofRecords? [strayRecord] = .ok (.leaf strayRecord.node) ∧
      ofRecords? (flatten (.leaf strayRecord.node)) ≠ .ok (.leaf strayRecord.node) := by
  decide

end Tree

end Spellwork
