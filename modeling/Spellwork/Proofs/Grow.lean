import Spellwork.Proofs.Ancestry
import Spellwork.Proofs.Siblings

/-!
# Trees grown from records

What the loader makes of a list of records with distinct ids, whatever cycles it holds. The forest
it grows has, below the roots and below every node, just the records that name that place
(`Grown`), and there is only one such forest. It is finite because the chain of parents above a node
is a lineage: the bound on the depth is met only where nothing is left to grow. Its ids are those
with a chain of parents up to a root, each one once, so the walk that the loader counts with is over
before the records run out.
-/

namespace Spellwork

namespace Tree

open Forest

/-! ## Walks over a forest -/

/-- Where the ids after an id are those of its children, a walk from the roots meets all ids. -/
theorem walk_eq_ids {next : NodeId → List NodeId} {fuel : Nat} {t : Tree}
    (hnext : ∀ s ∈ t.subtrees, next s.1.id = s.2.rootLabels.map Node.id) (hfuel : t.size ≤ fuel) :
    walk next fuel t.roots = t.ids := by
  induction fuel generalizing t with
  | zero =>
      cases t with
      | nil => rfl
      | node n c r =>
          simp only [size] at hfuel
          omega
  | succ fuel ih =>
      cases t with
      | nil => rfl
      | node n c r =>
          -- what is on the stack after a step are the roots of the children and the rest
          have hsize : size (c ++ r) ≤ fuel := by
            rw [← length_labels, labels_append, List.length_append, length_labels, length_labels]
            simp only [size] at hfuel
            omega
          have hstep := ih (t := c ++ r) (fun s hs => hnext s (by
            rw [subtrees_append, List.mem_append] at hs
            simpa using Or.inr hs)) hsize
          have hchild : next n.id = c.rootLabels.map Node.id := hnext (n, c) (by simp)
          have hstack : next n.id ++ Tree.roots r = Tree.roots (c ++ r) := by
            rw [hchild, Tree.roots, Tree.roots, rootLabels_append, List.map_append]
          show n.id :: walk next fuel (next n.id ++ Tree.roots r) = _
          rw [hstack, hstep]
          simp [ids]

/-! ## The forest of a list of records -/

/-- The forest of some records, given what stands below each of them. -/
def ofChildren (below : Record → Tree) (l : List Record) : Tree :=
  l.foldr (fun r rest => .node r.node (below r) rest) .nil

theorem grow_succ (rs : List Record) (fuel : Nat) (q : Option NodeId) :
    grow rs (fuel + 1) q = ofChildren (fun r => grow rs fuel (some r.id)) (recordsOf rs q) := rfl

theorem rootLabels_ofChildren (below : Record → Tree) (l : List Record) :
    (ofChildren below l).rootLabels = l.map Record.node := by
  induction l with
  | nil => rfl
  | cons r l ih => exact congrArg (r.node :: ·) ih

theorem mem_subtrees_ofChildren {below : Record → Tree} {l : List Record} {s : Node × Tree}
    (h : s ∈ (ofChildren below l).subtrees) :
    ∃ r ∈ l, s = (r.node, below r) ∨ s ∈ (below r).subtrees := by
  induction l with
  | nil => cases h
  | cons r l ih =>
      rcases List.mem_cons.mp h with rfl | h
      · exact ⟨r, List.mem_cons_self .., Or.inl rfl⟩
      · rcases List.mem_append.mp h with h | h
        · exact ⟨r, List.mem_cons_self .., Or.inr h⟩
        · obtain ⟨r', hr', hs⟩ := ih h
          exact ⟨r', List.mem_cons_of_mem _ hr', hs⟩

theorem ids_ofChildren (below : Record → Tree) (l : List Record) :
    (ofChildren below l).ids = l.flatMap fun r => r.id :: (below r).ids := by
  induction l with
  | nil => rfl
  | cons r l ih =>
      rw [List.flatMap_cons, ← ih]
      simp [ids, ofChildren]

/-- A forest in which every place holds the records that name it, as the loader orders them. -/
structure Grown (rs : List Record) (t : Tree) : Prop where
  roots : t.rootLabels = (recordsOf rs none).map Record.node
  below : ∀ s ∈ t.subtrees, s.2.rootLabels = (recordsOf rs (some s.1.id)).map Record.node

namespace Grown

variable {rs : List Record} {t : Tree}

theorem unique (h : Grown rs t) {t' : Tree} (h' : Grown rs t') : t = t' :=
  @eq_of_children _ (fun n => (recordsOf rs (some n.id)).map Record.node) t t' h.below h'.below
    (h.roots.trans h'.roots.symm)

theorem mem_rootLabels_iff (h : Grown rs t) {n : Node} :
    n ∈ t.rootLabels ↔ n.record none ∈ rs := by
  rw [h.roots, mem_map_node_recordsOf]

theorem mem_below_iff (h : Grown rs t) {s : Node × Tree} (hs : s ∈ t.subtrees) {n : Node} :
    n ∈ s.2.rootLabels ↔ n.record (some s.1.id) ∈ rs := by
  rw [h.below s hs, mem_map_node_recordsOf]

theorem record_mem (h : Grown rs t) {r : Record} (hr : r ∈ t.records) : r ∈ rs := by
  cases hp : r.parent with
  | none =>
      have hmem := h.mem_rootLabels_iff.mp (root_of_record hr hp)
      rwa [← hp, Record.record_node] at hmem
  | some p =>
      obtain ⟨s, hs, rfl, hn⟩ := exists_subtree_of_record hr hp
      have hmem := (h.mem_below_iff hs).mp hn
      rwa [← hp, Record.record_node] at hmem

theorem mem_ids (h : Grown rs t) {id : NodeId} (hid : Rooted rs id) : id ∈ t.ids := by
  induction hid with
  | @root r hr hp =>
      have hroot : r.node ∈ t.rootLabels := by
        rwa [h.mem_rootLabels_iff, ← hp, Record.record_node]
      exact List.mem_map_of_mem (f := Node.id) (mem_labels_of_mem_rootLabels hroot)
  | @child r p hr hp _ ih =>
      obtain ⟨n, hn, rfl⟩ := List.mem_map.mp ih
      obtain ⟨c, hc⟩ := exists_mem_subtrees hn
      have hbelow : r.node ∈ c.rootLabels := by
        rwa [h.mem_below_iff hc, ← hp, Record.record_node]
      exact List.mem_map_of_mem (f := Node.id) (mem_labels_iff.mpr (Or.inr ⟨_, hc, hbelow⟩))

/-- Grown from records with distinct ids, a forest holds those from which a root is reached. -/
theorem mem_records_iff (h : Grown rs t) (hnd : (rs.map Record.id).Nodup) {r : Record} :
    r ∈ t.records ↔ r ∈ rs ∧ Rooted rs r.id := by
  constructor
  · intro hr
    exact ⟨h.record_mem hr, (rooted_of_mem_records hr).mono fun _ => h.record_mem⟩
  · rintro ⟨hr, hrooted⟩
    obtain ⟨r', hr', hid⟩ := mem_ids_iff.mp (h.mem_ids hrooted)
    rwa [Record.eq_of_id hnd (h.record_mem hr') hr hid] at hr'

end Grown

/-! ## Growing along lineages -/

section Lineages

variable {rs : List Record}

theorem lineage_of_mem_recordsOf {above : List NodeId} (h : Lineage rs above) {r : Record}
    (hr : r ∈ recordsOf rs above.head?) : Lineage rs (r.id :: above) := by
  obtain ⟨hmem, hp⟩ := mem_recordsOf.mp hr
  exact h.cons hmem hp

/-- Every id grown below a lineage continues it. -/
theorem lineage_of_mem_grow {fuel : Nat} {above : List NodeId} (h : Lineage rs above)
    {id : NodeId} (hid : id ∈ (grow rs fuel above.head?).ids) :
    ∃ between, Lineage rs (id :: (between ++ above)) := by
  induction fuel generalizing above with
  | zero => cases hid
  | succ fuel ih =>
      rw [grow_succ, ids_ofChildren, List.mem_flatMap] at hid
      obtain ⟨r, hr, hid⟩ := hid
      have hlineage := lineage_of_mem_recordsOf h hr
      rcases List.mem_cons.mp hid with rfl | hid
      · exact ⟨[], hlineage⟩
      · obtain ⟨between, hbetween⟩ := ih hlineage hid
        exact ⟨between ++ [r.id], by simpa using hbetween⟩

variable (hnd : (rs.map Record.id).Nodup)

include hnd

theorem nodup_ids_recordsOf (q : Option NodeId) : ((recordsOf rs q).map Record.id).Nodup := by
  rw [((recordsOf_perm rs q).map Record.id).nodup_iff]
  exact (List.filter_sublist.map Record.id).nodup hnd

theorem nodup_grow {fuel : Nat} {above : List NodeId} (h : Lineage rs above) :
    (grow rs fuel above.head?).ids.Nodup := by
  induction fuel generalizing above with
  | zero => exact List.nodup_nil
  | succ fuel ih =>
      -- an id met at or below a sibling has a lineage through that sibling
      have hthrough : ∀ r ∈ recordsOf rs above.head?, ∀ id ∈ r.id :: (grow rs fuel (some r.id)).ids,
          ∃ a, a.head? = some id ∧ Lineage rs a ∧ ∃ b, a = b ++ r.id :: above := by
        intro r hr id hid
        have hlineage := lineage_of_mem_recordsOf h hr
        rcases List.mem_cons.mp hid with rfl | hid
        · exact ⟨_, rfl, hlineage, [], rfl⟩
        · obtain ⟨between, hbetween⟩ := lineage_of_mem_grow hlineage hid
          exact ⟨_, rfl, hbetween, id :: between, rfl⟩
      rw [grow_succ, ids_ofChildren, List.nodup_flatMap]
      constructor
      · intro r hr
        have hlineage := lineage_of_mem_recordsOf h hr
        refine List.nodup_cons.mpr ⟨fun hmem => ?_, ih hlineage⟩
        obtain ⟨between, hbetween⟩ := lineage_of_mem_grow hlineage hmem
        exact absurd (hbetween.nodup hnd) (by simp)
      · have hne : (recordsOf rs above.head?).Pairwise fun r r' => r.id ≠ r'.id :=
          List.pairwise_map.mp (nodup_ids_recordsOf hnd above.head?)
        refine hne.imp_of_mem fun {r r'} hr hr' hids => ?_
        intro id hid hid'
        obtain ⟨a, ha, hline, b, rfl⟩ := hthrough r hr id hid
        obtain ⟨a', ha', hline', b', rfl⟩ := hthrough r' hr' id hid'
        have heq := Lineage.eq_of_head hnd hline hline' (ha.trans ha'.symm)
        have hlen := congrArg List.length heq
        simp only [List.length_append, List.length_cons] at hlen
        have htail := (List.append_inj heq (by omega)).2
        exact hids (List.cons.inj htail).1

theorem rootLabels_grow {fuel : Nat} {above : List NodeId} (h : Lineage rs above)
    (hfuel : rs.length ≤ above.length + fuel) :
    (grow rs fuel above.head?).rootLabels = (recordsOf rs above.head?).map Record.node := by
  cases fuel with
  | succ fuel => exact rootLabels_ofChildren _ _
  | zero =>
      -- a record here would make a lineage longer than the list
      have hnone : recordsOf rs above.head? = [] := by
        refine List.eq_nil_iff_forall_not_mem.mpr fun r hr => ?_
        have hlen := (lineage_of_mem_recordsOf h hr).length_le hnd
        simp only [List.length_cons] at hlen
        omega
      rw [hnone]
      rfl

theorem below_grow {fuel : Nat} {above : List NodeId} (h : Lineage rs above)
    (hfuel : rs.length ≤ above.length + fuel) :
    ∀ s ∈ (grow rs fuel above.head?).subtrees,
      s.2.rootLabels = (recordsOf rs (some s.1.id)).map Record.node := by
  induction fuel generalizing above with
  | zero => exact fun s hs => by cases hs
  | succ fuel ih =>
      intro s hs
      obtain ⟨r, hr, hs⟩ := mem_subtrees_ofChildren hs
      have hlineage := lineage_of_mem_recordsOf h hr
      have hless : rs.length ≤ (r.id :: above).length + fuel := by
        simp only [List.length_cons]
        omega
      rcases hs with rfl | hs
      · exact rootLabels_grow hnd hlineage hless
      · exact ih hlineage hless s hs

end Lineages

/-! ## What the loader grows -/

section Loader

variable {rs : List Record} (hnd : (rs.map Record.id).Nodup)

include hnd

theorem grown_grow : Grown rs (grow rs rs.length none) := by
  have hstart : Lineage rs [] := trivial
  have hfuel : rs.length ≤ ([] : List NodeId).length + rs.length := by simp
  exact ⟨rootLabels_grow hnd hstart hfuel, below_grow hnd hstart hfuel⟩

theorem nodup_ids_grow : (grow rs rs.length none).ids.Nodup := by
  have hstart : Lineage rs [] := trivial
  exact nodup_grow hnd hstart

theorem mem_ids_grow_iff {id : NodeId} : id ∈ (grow rs rs.length none).ids ↔ Rooted rs id := by
  refine ⟨fun h => ?_, (grown_grow hnd).mem_ids⟩
  obtain ⟨r, hr, rfl⟩ := mem_ids_iff.mp h
  exact (((grown_grow hnd).mem_records_iff hnd).mp hr).2

theorem size_grow_le : (grow rs rs.length none).size ≤ rs.length := by
  have hsub : (grow rs rs.length none).ids ⊆ rs.map Record.id := by
    intro id hid
    obtain ⟨r, hr, rfl⟩ := mem_ids_iff.mp hid
    exact List.mem_map_of_mem ((grown_grow hnd).record_mem hr)
  have hle := (List.subperm_of_subset (nodup_ids_grow hnd) hsub).length_le
  rwa [ids, List.length_map, length_labels, List.length_map] at hle

/-- The walk over records is over after as many steps as there are records: with more it meets the
same ids, also where there are cycles. -/
theorem walk_recordsOf {fuel : Nat} (hfuel : rs.length ≤ fuel) :
    walk (fun id => (recordsOf rs (some id)).map Record.id) fuel
      ((recordsOf rs none).map Record.id) = (grow rs rs.length none).ids := by
  have hgrown := grown_grow hnd
  have hroots : (recordsOf rs none).map Record.id = roots (grow rs rs.length none) := by
    rw [roots, hgrown.roots, List.map_map]
    rfl
  rw [hroots]
  refine walk_eq_ids (fun s hs => ?_) (Nat.le_trans (size_grow_le hnd) hfuel)
  rw [hgrown.below s hs, List.map_map]
  rfl

theorem reachable_eq : reachable rs = (grow rs rs.length none).ids :=
  walk_recordsOf hnd (Nat.le_refl _)

theorem mem_reachable_iff {id : NodeId} : id ∈ reachable rs ↔ Rooted rs id := by
  rw [reachable_eq hnd, mem_ids_grow_iff hnd]

theorem records_grow_perm (hrooted : ∀ r ∈ rs, Rooted rs r.id) :
    (grow rs rs.length none).records.Perm rs := by
  have hndt : (grow rs rs.length none).records.Nodup := by
    refine List.Nodup.of_map Record.id ?_
    rw [map_id_records]
    exact nodup_ids_grow hnd
  rw [List.perm_ext_iff_of_nodup hndt (hnd.of_map _)]
  intro r
  rw [(grown_grow hnd).mem_records_iff hnd]
  exact ⟨And.left, fun hr => ⟨hr, hrooted r hr⟩⟩

/-- The walk meets as many ids as there are records exactly if no chain of parents is a cycle. -/
theorem length_reachable_eq_iff :
    (reachable rs).length = rs.length ↔ ∀ r ∈ rs, Rooted rs r.id := by
  constructor
  · intro hlen r hr
    rw [← mem_reachable_iff hnd]
    have hndr : (reachable rs).Nodup := by
      rw [reachable_eq hnd]
      exact nodup_ids_grow hnd
    have hsub : reachable rs ⊆ rs.map Record.id := by
      intro id hid
      obtain ⟨r, hr, rfl⟩ := ((mem_reachable_iff hnd).mp hid).exists_record
      exact List.mem_map_of_mem hr
    have hle : (rs.map Record.id).length ≤ (reachable rs).length := by
      rw [List.length_map]
      exact Nat.le_of_eq hlen.symm
    have hperm : (reachable rs).Perm (rs.map Record.id) :=
      (List.subperm_of_subset hndr hsub).perm_of_length_le hle
    exact hperm.mem_iff.mpr (List.mem_map_of_mem hr)
  · intro hrooted
    rw [reachable_eq hnd, ← map_id_records, List.length_map,
      (records_grow_perm hnd hrooted).length_eq]

end Loader

end Tree

end Spellwork
