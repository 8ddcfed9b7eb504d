import Spellwork.Proofs.Removal

/-!
# What an insertion adds

An insertion puts one record into a tree, right behind what stands below the siblings that it comes
behind, and taking the new effect away again gives the tree back. Both rest on the place among the
siblings: those it comes behind are a front part of them (`exists_placeAmong`), and pruning passes
by a node that it takes away (`prune_placeBelow`).
-/

namespace Spellwork

namespace Tree

open Forest

/-! ## Taking the new node away again -/

theorem prune_append (gone : Node → Bool) (s t : Tree) :
    Forest.prune gone (s ++ t) = Forest.prune gone s ++ Forest.prune gone t := by
  induction s with
  | nil => rfl
  | node n c r _ ih =>
      rw [node_append, prune, prune]
      split
      · exact ih
      · rw [ih, node_append]

theorem prune_leaf {gone : Node → Bool} {n : Node} (hn : gone n = true) :
    Forest.prune gone (.leaf n) = .nil :=
  if_pos hn

theorem prune_placeAmong {gone : Node → Bool} {n : Node} (hn : gone n = true) (t : Tree) :
    Forest.prune gone (placeAmong n t) = Forest.prune gone t := by
  induction t with
  | nil => exact prune_leaf hn
  | node m c r _ ih =>
      unfold placeAmong
      split
      · rw [prune, prune, ih]
      · rw [prune, if_pos hn]

/-- Where a new node goes that has just been put below an effect, the rest goes as it would have
gone before. -/
theorem prune_placeBelow {gone : Node → Bool} {n : Node} (hn : gone n = true) (p : NodeId)
    (t : Tree) : Forest.prune gone (placeBelow p n t) = Forest.prune gone t := by
  induction t with
  | nil => rfl
  | node m c r ihc ihr =>
      unfold placeBelow
      split
      · rw [prune, prune, prune_placeAmong hn]
      · rw [prune, prune, ihc, ihr]

theorem mem_subtrees_placeBelow_self {p : NodeId} {n : Node} {t : Tree} (hp : p ∈ t.ids) :
    (n, Forest.nil) ∈ (placeBelow p n t).subtrees := by
  induction t with
  | nil => cases hp
  | node m c r ihc ihr =>
      unfold placeBelow
      by_cases hid : m.id = p
      · rw [if_pos hid]
        simp [mem_subtrees_placeAmong]
      · rw [if_neg hid]
        rcases mem_ids_node.mp hp with hp | hp | hp
        · exact absurd hp.symm hid
        · simp [ihc hp]
        · simp [ihr hp]

/-- A new node without anything below it is all that its removal takes away. -/
theorem Valid.delete_leaf {t t' : Tree} (h' : Valid t') {n : Node} (hfresh : n.id ∉ t.ids)
    (hn : (n, Forest.nil) ∈ t'.subtrees)
    (hprune : ∀ gone : Node → Bool, gone n = true → t'.prune gone = t.prune gone) :
    t'.delete n.id = .ok t := by
  have hdoomed : doomed n.id t'.flatten = [n.id] := doomed_flatten h' hn
  refine delete_eq_ok_iff.mpr ⟨id_mem_ids_of_mem_subtrees hn, ?_⟩
  rw [hdoomed, hprune _ (by simp)]
  refine (prune_eq_self fun m hm => Bool.eq_false_iff.mpr fun hgone => hfresh ?_).symm
  rw [← List.mem_singleton.mp (List.contains_iff_mem.mp hgone)]
  exact List.mem_map_of_mem hm

/-! ## The place of the new record -/

/-- Among ordered siblings a newcomer goes behind a front part of them, those that its outcome does
not come before. -/
theorem exists_placeAmong {n : Node} {t : Tree} (h : Ordered (t.rootLabels.map Node.outcome)) :
    ∃ older younger : Tree, t = older ++ younger ∧ placeAmong n t = older ++ .node n .nil younger ∧
      older.rootLabels = t.rootLabels.filter fun m => notAfter m.outcome n.outcome := by
  induction t with
  | nil => exact ⟨.nil, .nil, rfl, rfl, rfl⟩
  | node m c r _ ih =>
      obtain ⟨hm, hr⟩ := List.pairwise_cons.mp h
      by_cases hmn : notAfter m.outcome n.outcome = true
      · obtain ⟨older, younger, hsplit, hplace, hroots⟩ := ih hr
        refine ⟨.node m c older, younger, ?_, ?_, ?_⟩
        · rw [node_append, ← hsplit]
        · rw [placeAmong, if_pos hmn, hplace, node_append]
        · rw [rootLabels_node, rootLabels_node, List.filter_cons, if_pos hmn, hroots]
      · -- all behind the first are later than the newcomer, too
        have hlate : ∀ m' ∈ m :: r.rootLabels, ¬ notAfter m'.outcome n.outcome = true := by
          intro m' hm'
          rcases List.mem_cons.mp hm' with rfl | hmem
          · exact hmn
          · exact fun hle => hmn (notAfter_trans (hm _ (List.mem_map_of_mem hmem)) hle)
        refine ⟨.nil, .node m c r, rfl, ?_, ?_⟩
        · rw [placeAmong, if_neg hmn, nil_append]
        · rw [rootLabels_node, List.filter_eq_nil_iff.mpr hlate, rootLabels_nil]

/-! ## The siblings that a newcomer comes behind -/

/-- The ids in a place and in those before it below the same effect, edge by edge. -/
def elders (t : Tree) : Slot → List NodeId
  | none => t.roots
  | some (p, o) =>
    (((t.edges? p).getD []).filter fun edge => edge.1.rank ≤ o.rank).flatMap (·.2)

/-- Picking edges by their outcomes is picking the branches taken together in them. -/
theorem flatMap_filter_edges (es : List (Outcome × List NodeId)) (p : Outcome → Bool) :
    (es.filter fun e => p e.1).flatMap (·.2) =
      ((es.flatMap branchesOf).filter fun b => p b.1).map (·.2) := by
  induction es with
  | nil => rfl
  | cons e es ih =>
      rw [List.flatMap_cons, List.filter_append, List.map_append, ← ih]
      by_cases he : p e.1 = true
      · have hall : (branchesOf e).filter (fun b => p b.1) = branchesOf e :=
          List.filter_eq_self.mpr fun b hb => by rwa [fst_of_mem_branchesOf hb]
        have hids : (branchesOf e).map (·.2) = e.2 := by
          simp [branchesOf, List.map_map, Function.comp_def]
        rw [List.filter_cons, if_pos he, List.flatMap_cons, hall, hids]
      · have hnone : (branchesOf e).filter (fun b => p b.1) = [] :=
          List.filter_eq_nil_iff.mpr fun b hb => by rwa [fst_of_mem_branchesOf hb]
        rw [List.filter_cons, if_neg he, hnone, List.map_nil, List.nil_append]

theorem Valid.elders_eq {t : Tree} (h : Valid t) {s : Node × Tree} (hs : s ∈ t.subtrees)
    (o : Outcome) :
    t.elders (some (s.1.id, o)) =
      (s.2.rootLabels.filter fun n => notAfter n.outcome (some o)).map Node.id := by
  have hsome : ∀ n ∈ s.2.rootLabels, ∃ o', n.outcome = some o' := by
    intro n hn
    obtain ⟨o', ho', -⟩ := h.admits s hs n hn
    exact ⟨o', ho'⟩
  rw [elders, getD_edges?, flatMap_filter_edges _ fun o' => o'.rank ≤ o.rank, flatMap_gather,
    branches_of_mem_subtrees h.ids_nodup hs]
  generalize s.2.rootLabels = l at hsome
  induction l with
  | nil => rfl
  | cons n l ih =>
      obtain ⟨o', ho'⟩ := hsome n List.mem_cons_self
      have hrest := ih fun m hm => hsome m (List.mem_cons_of_mem n hm)
      by_cases hle : o'.rank ≤ o.rank
      · simpa [ho', notAfter, hle] using hrest
      · simpa [ho', notAfter, hle] using hrest

/-! ## Insertion -/

theorem Valid.delete_insert {t t' : Tree} (h : Valid t) {slot : Slot} {id : NodeId} {e : Effect}
    (hok : t.insert slot id e = .ok t') : t'.delete id = .ok t := by
  have h' := h.insert hok
  rcases insert_cases hok with ⟨-, hfresh, -, rfl⟩ | ⟨p, o, r, -, hfresh, hr, -, -, rfl⟩
  · refine h'.delete_leaf (n := ⟨id, none, e⟩) hfresh (by simp [leaf]) fun gone hgone => ?_
    rw [prune_append, prune_leaf hgone]
    exact Forest.append_nil _
  · exact h'.delete_leaf (n := ⟨id, some o, e⟩) hfresh
      (mem_subtrees_placeBelow_self (mem_ids_of_get? hr)) fun gone hgone =>
        prune_placeBelow hgone p t

/-- The records of a tree around the place of a newcomer: behind the record of the effect above, if
there is one, and behind all that stands in the place or before it. -/
theorem Valid.exists_insert_block {t t' : Tree} (h : Valid t) {slot : Slot} {id : NodeId}
    {e : Effect} (hok : t.insert slot id e = .ok t') :
    ∃ before within after, t.records = before ++ within ++ after ∧
      t'.records = before ++ within ++ ⟨id, slot.map Prod.fst, slot.map Prod.snd, e⟩ :: after ∧
      before.getLast?.map Record.id = slot.map Prod.fst ∧
      within.map Record.id = (t.elders slot).flatMap fun child => child :: t.descendants child := by
  rcases insert_cases hok with ⟨rfl, -, -, rfl⟩ | ⟨p, o, r, rfl, -, hr, -, -, rfl⟩
  · refine ⟨[], t.records, [], by simp, ?_, rfl, ?_⟩
    · rw [records, recordsBelow_append]
      rfl
    · rw [map_id_records]
      exact h.ids_eq_flatMap (List.Subset.refl t.subtrees)
  · obtain ⟨s, hs, rfl⟩ := exists_subtree_of_id (mem_ids_of_get? hr)
    obtain ⟨q, front, back, hrecords, hplace⟩ := exists_block h.ids_nodup hs none
    obtain ⟨older, younger, hsplit, hamong, hroots⟩ :=
      exists_placeAmong (n := ⟨id, some o, e⟩) (h.ordered s hs)
    have hsub : older.subtrees ⊆ t.subtrees := by
      refine List.Subset.trans ?_ (subtrees_subset hs)
      rw [hsplit, subtrees_append]
      exact List.subset_append_left _ _
    refine ⟨front ++ [s.1.record q], recordsBelow (some s.1.id) older,
      recordsBelow (some s.1.id) younger ++ back, ?_, ?_, ?_, ?_⟩
    · rw [records, hrecords, hsplit, recordsBelow_append]
      simp
    · rw [records, hplace, hamong, recordsBelow_append, recordsBelow, recordsBelow]
      simp
    · simp [Node.record]
    · rw [map_id_recordsBelow, h.elders_eq hs o, h.ids_eq_flatMap hsub, Tree.roots, hroots]

/-- Taking a newly inserted effect away again gives back the tree as it was. Among the stored
records the insertion has added the one of the effect, right behind all that stands below the
siblings in its place and in the places before it; those follow the record of the effect above. -/
theorem Reachable.insert_block {t t' : Tree} (h : Reachable t) {slot : Slot} {id : NodeId}
    {e : Effect} (hok : t.insert slot id e = .ok t') :
    t'.delete id = .ok t ∧
      ∃ before within after, t.flatten = before ++ within ++ after ∧
        t'.flatten = before ++ within ++ ⟨id, slot.map Prod.fst, slot.map Prod.snd, e⟩ :: after ∧
        before.getLast?.map Record.id = slot.map Prod.fst ∧
        within.map Record.id =
          (t.elders slot).flatMap fun child => child :: t.descendants child := by
  obtain ⟨before, within, after, hrecords, hinserted, hlast, hwithin⟩ :=
    h.valid.exists_insert_block hok
  refine ⟨h.valid.delete_insert hok, before.map (rehome none none), within.map (rehome none none),
    after.map (rehome none none), ?_, ?_, ?_, ?_⟩
  · rw [flatten, flattenUnder, hrecords, List.map_append, List.map_append]
  · have hnew : rehome none none ⟨id, slot.map Prod.fst, slot.map Prod.snd, e⟩ =
        ⟨id, slot.map Prod.fst, slot.map Prod.snd, e⟩ := by
      cases slot <;> rfl
    rw [flatten, flattenUnder, hinserted, List.map_append, List.map_append, List.map_cons, hnew]
  · rw [List.getLast?_map, Option.map_map, ← hlast]
    exact congrArg (Option.map · before.getLast?) (funext id_rehome)
  · rw [List.map_map, ← hwithin]
    exact List.map_congr_left fun r _ => id_rehome r

theorem insert_block_gradedFailures :
    ∃ t', gradedFailures.insert (some ("save", .failedSaveBy 5)) "slow" (.condition ⟨"slow", none⟩) =
        .ok t' ∧
      t'.delete "slow" = .ok gradedFailures ∧
      ∃ before within after, gradedFailures.flatten = before ++ within ++ after ∧
        t'.flatten = before ++ within ++
          ⟨"slow", some "save", some (.failedSaveBy 5), .condition ⟨"slow", none⟩⟩ :: after ∧
        before.getLast?.map Record.id = some "save" ∧
        within.map Record.id = ["fire", "prone"] := by
  obtain ⟨t', hok⟩ : ∃ t', gradedFailures.insert (some ("save", .failedSaveBy 5)) "slow"
      (.condition ⟨"slow", none⟩) = .ok t' := ⟨_, rfl⟩
  obtain ⟨hdelete, before, within, after, hflatten, hinserted, hlast, hwithin⟩ :=
    Reachable.insert_block built_gradedFailures.reachable hok
  have hids : ((gradedFailures.elders (some ("save", .failedSaveBy 5))).flatMap fun child =>
      child :: gradedFailures.descendants child) = ["fire", "prone"] := by decide
  exact ⟨t', hok, hdelete, before, within, after, hflatten, hinserted, hlast, hwithin.trans hids⟩

end Tree

end Spellwork
