import Mathlib.Logic.Relation
import Spellwork.Proofs.WellFormed

/-!
# What stands below an effect

The ids below an effect are told in three ways: as the walk that `descendants` makes over the edges,
as the ids with the effect among their ancestors, and as the labels of the forest below its node.
All three agree (`Valid.descendants_of_mem_subtrees`, `Valid.mem_ids_iff_isAncestor`), and among the
records of the tree the effect and those ids are one block (`exists_block`).
-/

namespace Spellwork

namespace Forest

variable {α : Type u}

/-- A node and the nodes below it are among those of the forest, in their order. -/
theorem subtrees_sublist {t : Forest α} {s : α × Forest α} (h : s ∈ t.subtrees) :
    (s :: s.2.subtrees).Sublist t.subtrees := by
  induction t with
  | nil => cases h
  | node a c r ihc ihr =>
      simp only [subtrees_node, List.mem_cons, List.mem_append] at h
      rcases h with rfl | h | h
      · exact (List.sublist_append_left c.subtrees r.subtrees).cons_cons (a, c)
      · exact ((ihc h).trans (List.sublist_append_left c.subtrees r.subtrees)).cons (a, c)
      · exact ((ihr h).trans (List.sublist_append_right c.subtrees r.subtrees)).cons (a, c)

theorem subtrees_subset {t : Forest α} {s : α × Forest α} (h : s ∈ t.subtrees) :
    s.2.subtrees ⊆ t.subtrees :=
  fun _ hx => (subtrees_sublist h).subset (List.mem_cons_of_mem s hx)

theorem labels_sublist {t : Forest α} {s : α × Forest α} (h : s ∈ t.subtrees) :
    (s.1 :: s.2.labels).Sublist t.labels := by
  have hsub := (subtrees_sublist h).map Prod.fst
  rwa [List.map_cons, map_fst_subtrees, map_fst_subtrees] at hsub

/-- Where no label has the property nothing is pruned. -/
theorem prune_eq_self {p : α → Bool} {t : Forest α} (h : ∀ a ∈ t.labels, p a = false) :
    t.prune p = t := by
  induction t with
  | nil => rfl
  | node a c r ihc ihr =>
      have ha : ¬ p a = true := by rw [h a (by simp)]; exact Bool.false_ne_true
      rw [prune, if_neg ha, ihc fun b hb => h b (by simp [hb]), ihr fun b hb => h b (by simp [hb])]

end Forest

namespace Tree

open Forest

/-! ## Ancestors -/

/-- The record of the second id names the first as its parent. -/
def IsParent (t : Tree) (p id : NodeId) : Prop :=
  ∃ r, t.get? id = some r ∧ r.parent = some p

/-- A chain of parents leads from the second id to the first. -/
def IsAncestor (t : Tree) : NodeId → NodeId → Prop :=
  Relation.TransGen t.IsParent

theorem exists_subtree_of_id {t : Tree} {id : NodeId} (h : id ∈ t.ids) :
    ∃ s ∈ t.subtrees, s.1.id = id := by
  obtain ⟨n, hn, rfl⟩ := List.mem_map.mp h
  obtain ⟨c, hc⟩ := exists_mem_subtrees hn
  exact ⟨(n, c), hc, rfl⟩

theorem length_ids (t : Tree) : t.ids.length = t.size := by
  rw [ids, List.length_map, length_labels]

theorem ids_sublist {t : Tree} {s : Node × Tree} (h : s ∈ t.subtrees) :
    (s.1.id :: s.2.ids).Sublist t.ids :=
  (labels_sublist h).map Node.id

theorem recordsBelow_subset {t : Tree} {s : Node × Tree} (h : s ∈ t.subtrees) :
    recordsBelow (some s.1.id) s.2 ⊆ t.records := by
  intro r hr
  refine mem_recordsBelow_iff.mpr (Or.inr ?_)
  rcases mem_recordsBelow_iff.mp hr with ⟨hp, hn⟩ | ⟨x, hx, hp, hn⟩
  · exact ⟨s, h, hp, hn⟩
  · exact ⟨x, subtrees_subset h hx, hp, hn⟩

/-- What stands below a node of a subtree stands below the root of that subtree. -/
theorem ids_subset_of_mem_ids {t : Tree} (hnd : t.ids.Nodup) {s x : Node × Tree}
    (hs : s ∈ t.subtrees) (hx : x ∈ t.subtrees) (hbelow : x.1.id ∈ s.1.id :: s.2.ids) :
    x.2.ids ⊆ s.2.ids := by
  rcases List.mem_cons.mp hbelow with hroot | hmem
  · rw [subtree_eq_of_id hnd hx hs hroot]
    exact List.Subset.refl _
  · obtain ⟨y, hy, hid⟩ := exists_subtree_of_id hmem
    rw [← subtree_eq_of_id hnd (subtrees_subset hs hy) hx hid]
    exact List.map_subset Node.id (labels_subset_of_mem_subtrees hy)

theorem mem_ids_of_parent {t : Tree} (hnd : t.ids.Nodup) {s : Node × Tree} (hs : s ∈ t.subtrees)
    {r : Record} (hr : r ∈ t.records) {p : NodeId} (hp : r.parent = some p)
    (hbelow : p ∈ s.1.id :: s.2.ids) : r.id ∈ s.2.ids := by
  obtain ⟨x, hx, rfl, hn⟩ := exists_subtree_of_record hr hp
  have hmem : r.id ∈ ids x.2 :=
    List.mem_map_of_mem (f := Node.id) (mem_labels_of_mem_rootLabels hn)
  exact ids_subset_of_mem_ids hnd hs hx hbelow hmem

theorem isAncestor_of_mem_ids {t f : Tree} (hnd : t.ids.Nodup) {p : NodeId}
    (hsub : recordsBelow (some p) f ⊆ t.records) {id : NodeId} (hid : id ∈ f.ids) :
    t.IsAncestor p id := by
  induction f generalizing p with
  | nil => cases hid
  | node n c r ihc ihr =>
      obtain ⟨hn, hrest⟩ := List.cons_subset.mp hsub
      obtain ⟨hc, hr⟩ := List.append_subset.mp hrest
      have hparent : t.IsParent p n.id := ⟨_, (get?_eq_some_iff hnd).mpr ⟨hn, rfl⟩, rfl⟩
      rcases mem_ids_node.mp hid with rfl | hid | hid
      · exact .single hparent
      · exact .head hparent (ihc hc hid)
      · exact ihr hr hid

namespace Valid

variable {t : Tree}

/-- The ids below a node are those with the node among their ancestors. -/
theorem mem_ids_iff_isAncestor (h : Valid t) {s : Node × Tree} (hs : s ∈ t.subtrees)
    {id : NodeId} : id ∈ s.2.ids ↔ t.IsAncestor s.1.id id := by
  refine ⟨isAncestor_of_mem_ids h.ids_nodup (recordsBelow_subset hs), fun hid => ?_⟩
  have hchild : ∀ {p x : NodeId}, t.IsParent p x → p ∈ s.1.id :: s.2.ids → x ∈ s.2.ids := by
    rintro p x ⟨r, hget, hp⟩ hbelow
    obtain ⟨hr, rfl⟩ := (get?_eq_some_iff h.ids_nodup).mp hget
    exact mem_ids_of_parent h.ids_nodup hs hr hp hbelow
  induction hid with
  | single hparent => exact hchild hparent List.mem_cons_self
  | tail _ hparent ih => exact hchild hparent (List.mem_cons_of_mem _ ih)

/-! ## The walk below an effect -/

theorem not_mem_ids_self (h : Valid t) {s : Node × Tree} (hs : s ∈ t.subtrees) :
    s.1.id ∉ s.2.ids :=
  (List.nodup_cons.mp ((ids_sublist hs).nodup h.ids_nodup)).1

/-- A walk that starts at a node meets it and the ids below it, and then it is over. -/
theorem walk_of_mem_subtrees (h : Valid t) {s : Node × Tree} (hs : s ∈ t.subtrees) {fuel : Nat}
    (hfuel : t.size ≤ fuel) : walk t.successors fuel [s.1.id] = s.1.id :: s.2.ids := by
  have hsize : (Forest.node s.1 s.2 .nil).size ≤ fuel := by
    have hle := (labels_sublist hs).length_le
    rw [List.length_cons, length_labels, length_labels] at hle
    simp only [size]
    omega
  have hnext : ∀ x ∈ (Forest.node s.1 s.2 .nil).subtrees,
      t.successors x.1.id = x.2.rootLabels.map Node.id := by
    intro x hx
    rw [subtrees_node, subtrees_nil, List.append_nil] at hx
    exact h.successors_of_mem_subtrees ((subtrees_sublist hs).subset hx)
  have hwalk := walk_eq_ids hnext hsize
  simpa [Tree.roots, ids] using hwalk

theorem descendants_of_mem_subtrees (h : Valid t) {s : Node × Tree} (hs : s ∈ t.subtrees) :
    t.descendants s.1.id = s.2.ids := by
  have hself := h.not_mem_ids_self hs
  rw [descendants, h.walk_of_mem_subtrees hs (Nat.le_refl _), List.filter_cons_of_neg (by simp)]
  refine List.filter_eq_self.mpr fun id hid => decide_eq_true fun heq => ?_
  exact hself (heq ▸ hid)

/-- The ids of a forest of the tree are its roots, each with what stands below it. -/
theorem ids_eq_flatMap (h : Valid t) {f : Tree} (hsub : f.subtrees ⊆ t.subtrees) :
    f.ids = f.roots.flatMap fun id => id :: t.descendants id := by
  induction f with
  | nil => rfl
  | node n c r _ ih =>
      rw [subtrees_node, List.cons_subset, List.append_subset] at hsub
      have hdesc : t.descendants n.id = ids c := h.descendants_of_mem_subtrees hsub.1
      have hroots : Tree.roots (.node n c r) = n.id :: Tree.roots r := rfl
      rw [hroots, List.flatMap_cons, hdesc, ← ih hsub.2.2]
      simp [ids]

end Valid

/-! ## Blocks of records -/

/-- Among the records of a forest a node and what stands below it are one block, and to put another
node below it changes nothing outside of that block. -/
theorem exists_block {t : Tree} (hnd : t.ids.Nodup) {s : Node × Tree} (hs : s ∈ t.subtrees)
    (q : Option NodeId) :
    ∃ p front back,
      recordsBelow q t = front ++ s.1.record p :: recordsBelow (some s.1.id) s.2 ++ back ∧
        ∀ n, recordsBelow q (placeBelow s.1.id n t) =
          front ++ s.1.record p :: recordsBelow (some s.1.id) (placeAmong n s.2) ++ back := by
  induction t generalizing q with
  | nil => cases hs
  | node m c r ihc ihr =>
      obtain ⟨hmc, hmr, hndc, hndr, hdisj⟩ := nodup_ids_node hnd
      simp only [subtrees_node, List.mem_cons, List.mem_append] at hs
      rcases hs with rfl | hs | hs
      · refine ⟨q, [], recordsBelow q r, rfl, fun n => ?_⟩
        rw [placeBelow, if_pos rfl]
        rfl
      · have hid : s.1.id ∈ ids c := id_mem_ids_of_mem_subtrees hs
        have hne : m.id ≠ s.1.id := fun heq => hmc (by rw [heq]; exact hid)
        obtain ⟨p, front, back, heq, hplace⟩ := ihc hndc hs (some m.id)
        refine ⟨p, m.record q :: front, back ++ recordsBelow q r, ?_, fun n => ?_⟩
        · rw [recordsBelow, heq]
          simp [Node.record]
        · rw [placeBelow, if_neg hne, placeBelow_of_not_mem (hdisj s.1.id hid), recordsBelow,
            hplace]
          simp [Node.record]
      · have hid : s.1.id ∈ ids r := id_mem_ids_of_mem_subtrees hs
        have hne : m.id ≠ s.1.id := fun heq => hmr (by rw [heq]; exact hid)
        have hnc : s.1.id ∉ ids c := fun hmem => hdisj s.1.id hmem hid
        obtain ⟨p, front, back, heq, hplace⟩ := ihr hndr hs q
        refine ⟨p, m.record q :: (recordsBelow (some m.id) c ++ front), back, ?_, fun n => ?_⟩
        · rw [recordsBelow, heq]
          simp [Node.record]
        · rw [placeBelow, if_neg hne, placeBelow_of_not_mem hnc, recordsBelow, hplace]
          simp [Node.record]

theorem map_id_block (p : Option NodeId) (s : Node × Tree) :
    (s.1.record p :: recordsBelow (some s.1.id) s.2).map Record.id = s.1.id :: s.2.ids := by
  rw [List.map_cons, map_id_recordsBelow]
  rfl

/-- Where all goes that stands below what goes, pruning is a filter on the records. -/
theorem recordsBelow_prune {t : Tree} {gone : Node → Bool}
    (hclosed : ∀ s ∈ t.subtrees, gone s.1 = true → ∀ n ∈ s.2.labels, gone n = true)
    (q : Option NodeId) :
    recordsBelow q (t.prune gone) = (recordsBelow q t).filter fun r => !gone r.node := by
  induction t generalizing q with
  | nil => rfl
  | node n c r ihc ihr =>
      have hrest := ihr (fun s hs => hclosed s (by simp [hs])) q
      have hhead : (⟨n.id, q, n.outcome, n.effect⟩ : Record).node = n := rfl
      unfold prune
      rw [recordsBelow, List.filter_cons, List.filter_append, hhead]
      by_cases hn : gone n = true
      · -- every record below a node that goes is one that goes
        have hbelow : (recordsBelow (some n.id) c).filter (fun r => !gone r.node) = [] := by
          refine List.filter_eq_nil_iff.mpr fun x hx => ?_
          have hlabel : x.node ∈ c.labels := by
            rw [← map_node_recordsBelow (some n.id)]
            exact List.mem_map_of_mem hx
          simp [hclosed (n, c) (by simp) hn x.node hlabel]
        rw [if_pos hn, hrest, hbelow, if_neg (by simp [hn])]
        rfl
      · have hchildren := ihc (fun s hs => hclosed s (by simp [hs])) (some n.id)
        rw [if_neg hn, recordsBelow, hchildren, hrest, if_pos (by simpa using hn)]

end Tree

end Spellwork
