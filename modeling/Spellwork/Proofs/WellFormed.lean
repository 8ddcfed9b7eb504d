import Spellwork.Proofs.Grow
import Spellwork.Proofs.Valid

/-!
# What users of a tree rely on

A tree is looked at through its records, its roots, its edges and its walk, and all of these tell
the same story. `WellFormed` says so in terms of what can be looked up alone; it follows from the
invariant. The walk over the edges of a valid tree meets its ids in the order of its records.
-/

namespace Spellwork

namespace Tree

open Forest

/-- Every id is found under itself and listed in one place, the one that its record names; what is
listed is there; chains of parents end in roots; owners, shared rolls and roots are of the right
kind; and the edges of an effect are the places below it that are not empty, in the order of
outcomes. -/
structure WellFormed (t : Tree) : Prop where
  key : ∀ id r, t.get? id = some r → r.id = id
  listed_once : ∀ id r, t.get? id = some r →
    ∃ place, r.slot? = some place ∧ ∀ s, (t.listing s).count id = if s = place then 1 else 0
  listed_exists : ∀ s, ∀ id ∈ t.listing s, ∃ r, t.get? id = some r
  rooted : ∀ id r, t.get? id = some r → Rooted t.records id
  owned : ∀ p o, t.childrenOf p o ≠ [] → ∃ r, t.get? p = some r ∧ r.effect.canOwn o = true
  shared : ∀ p id r, id ∈ t.childrenOf p .sharedRolls → t.get? id = some r →
    r.effect.isDamage = true
  root_kind : ∀ id r, id ∈ t.roots → t.get? id = some r → r.effect.isDamageOutcome = false
  edges_some : ∀ p es, t.edges? p = some es →
    es ≠ [] ∧ (es.Pairwise fun e f => e.1.rank < f.1.rank) ∧
      ∀ e ∈ es, e.2 ≠ [] ∧ e.2 = t.childrenOf p e.1
  edges_none : ∀ p, t.edges? p = none → ∀ o, t.childrenOf p o = []

namespace Valid

variable {t : Tree}

theorem exists_slot (h : Valid t) {r : Record} (hr : r ∈ t.records) : ∃ s, r.slot? = some s := by
  cases hp : r.parent with
  | none => exact ⟨none, Record.slot?_eq_root_iff.mpr hp⟩
  | some p =>
      obtain ⟨s, hs, -, hn⟩ := exists_subtree_of_record hr hp
      obtain ⟨o, ho, -⟩ := h.admits s hs r.node hn
      exact ⟨some (p, o), Record.slot?_eq_below_iff.mpr ⟨hp, ho⟩⟩

/-- A child stands below an effect that is there and admits it. -/
theorem owner_of_record (h : Valid t) {r : Record} (hr : r ∈ t.records) {p : NodeId}
    (hp : r.parent = some p) : ∃ q, t.get? p = some q ∧ q.effect.Admits r.node := by
  obtain ⟨s, hs, rfl, hn⟩ := exists_subtree_of_record hr hp
  obtain ⟨q, hq⟩ := exists_record_of_label (mem_labels_of_mem_subtrees hs)
  exact ⟨_, (get?_eq_some_iff h.ids_nodup).mpr ⟨hq, rfl⟩, h.admits s hs r.node hn⟩

theorem exists_record_of_listing (h : Valid t) {s : Slot} {id : NodeId} (hid : id ∈ t.listing s) :
    ∃ r, t.get? id = some r ∧ r ∈ t.records ∧ r.slot? = some s := by
  rw [listing_eq h.ids_nodup, List.mem_map] at hid
  obtain ⟨r, hr, rfl⟩ := hid
  obtain ⟨hmem, hslot⟩ := List.mem_filter.mp hr
  exact ⟨r, (get?_eq_some_iff h.ids_nodup).mpr ⟨hmem, rfl⟩, hmem, of_decide_eq_true hslot⟩

theorem pairwise_branches (h : Valid t) (p : NodeId) :
    (t.branches p).Pairwise fun a b => a.1.rank ≤ b.1.rank := by
  unfold branches
  cases hb : t.below? fun n => n.id = p with
  | none => exact List.Pairwise.nil
  | some c =>
      obtain ⟨n, hn, -⟩ := mem_subtrees_of_below? hb
      rw [List.pairwise_filterMap]
      refine (List.pairwise_map.mp (h.ordered _ hn)).imp fun {m m'} hle => ?_
      intro b hb b' hb'
      obtain ⟨o, ho, rfl⟩ := Option.map_eq_some_iff.mp hb
      obtain ⟨o', ho', rfl⟩ := Option.map_eq_some_iff.mp hb'
      rw [notAfter_iff, ho, ho'] at hle
      exact hle

theorem wellFormed (h : Valid t) : WellFormed t := by
  have hget : ∀ {id : NodeId} {r : Record}, t.get? id = some r ↔ r ∈ t.records ∧ r.id = id :=
    get?_eq_some_iff h.ids_nodup
  refine ⟨?_, ?_, ?_, ?_, ?_, ?_, ?_, ?_, ?_⟩
  · intro id r hr
    exact (hget.mp hr).2
  · intro id r hr
    obtain ⟨hmem, rfl⟩ := hget.mp hr
    obtain ⟨place, hplace⟩ := h.exists_slot hmem
    refine ⟨place, hplace, fun s => ?_⟩
    rw [listing_eq h.ids_nodup, Record.count_id_filter h.record_ids_nodup _ hmem, hplace]
    simp [eq_comm]
  · intro s id hid
    obtain ⟨r, hr, -⟩ := h.exists_record_of_listing hid
    exact ⟨r, hr⟩
  · intro id r hr
    obtain ⟨hmem, rfl⟩ := hget.mp hr
    exact rooted_of_mem_records hmem
  · intro p o hne
    obtain ⟨id, hid⟩ := List.exists_mem_of_ne_nil _ hne
    obtain ⟨r, -, hmem, hslot⟩ := h.exists_record_of_listing (s := some (p, o)) hid
    obtain ⟨hp, ho⟩ := Record.slot?_eq_below_iff.mp hslot
    obtain ⟨q, hq, o', ho', hown, -⟩ := h.owner_of_record hmem hp
    obtain rfl := Option.some.inj (ho.symm.trans ho')
    exact ⟨q, hq, hown⟩
  · intro p id r hid hr
    obtain ⟨r', hr', hmem, hslot⟩ := h.exists_record_of_listing (s := some (p, .sharedRolls)) hid
    obtain rfl := Option.some.inj (hr.symm.trans hr')
    obtain ⟨hp, ho⟩ := Record.slot?_eq_below_iff.mp hslot
    obtain ⟨q, -, o, ho', -, hshared⟩ := h.owner_of_record hmem hp
    exact hshared (Option.some.inj (ho'.symm.trans ho))
  · intro id r hid hr
    obtain ⟨r', hr', hmem, hslot⟩ := h.exists_record_of_listing (s := none) hid
    obtain rfl := Option.some.inj (hr.symm.trans hr')
    exact h.root_kind r.node (root_of_record hmem (Record.slot?_eq_root_iff.mp hslot))
  · intro p es hes
    obtain ⟨rfl, hne⟩ := edges?_eq_some_iff.mp hes
    have hordered := h.pairwise_branches p
    exact ⟨hne, pairwise_gather hordered, fun e he =>
      ⟨ids_ne_nil_of_mem_gather he, ids_of_mem_gather hordered he⟩⟩
  · intro p hnone o
    rw [childrenOf, edges?_eq_none_iff.mp hnone]
    rfl

/-! ## The walk -/

theorem successors_eq (t : Tree) (p : NodeId) : t.successors p = (t.branches p).map Prod.snd := by
  rw [successors, getD_edges?]
  exact flatMap_snd_gather (t.branches p)

/-- A walk goes on from a node to those directly below it. -/
theorem successors_of_mem_subtrees (h : Valid t) {s : Node × Tree} (hs : s ∈ t.subtrees) :
    t.successors s.1.id = s.2.rootLabels.map Node.id := by
  rw [successors_eq, branches_of_mem_subtrees h.ids_nodup hs, List.map_filterMap]
  -- every child has an outcome, so none is left out
  rw [← List.filterMap_eq_map]
  refine List.filterMap_congr fun n hn => ?_
  obtain ⟨o, ho, -⟩ := h.admits s hs n hn
  simp [ho]

/-- The walk from the roots over the edges meets the ids in the order of the records. -/
theorem preorder_eq (h : Valid t) : t.preorder = t.ids :=
  walk_eq_ids (fun _ hs => h.successors_of_mem_subtrees hs) (Nat.le_refl _)

theorem filterMap_get?_preorder (h : Valid t) : t.preorder.filterMap t.get? = t.records := by
  rw [h.preorder_eq, ← map_id_records, List.filterMap_map]
  have hget : ∀ r ∈ t.records, (t.get? ∘ Record.id) r = some r := fun r hr =>
    (get?_eq_some_iff h.ids_nodup).mpr ⟨hr, rfl⟩
  rw [List.filterMap_congr hget, List.filterMap_some]

end Valid

end Tree

end Spellwork
