import Spellwork.Proofs.Descendants
import Spellwork.Proofs.Drafts
import Spellwork.Proofs.Reachable

/-!
# The order of walks

A walk takes ids from a stack until none is left, and nothing keeps it from meeting an id again
(`Walks`). Over the edges of a tree it is over all the same, and what it has met is the recursive
order (`Enumerates`): an effect, then outcome by outcome its children, each one with all below it.
The bound that `walk` counts down is never what ends it. The same walk over loaded records passes
by the cycles that there may be among them, since none can be entered from a root.
-/

namespace Spellwork

/-! ## Every outcome -/

namespace Outcome

/-- Every outcome, in order. -/
def inOrder : List Outcome :=
  plain ++ (List.range UInt32.size).map fun margin => failedSaveBy (.ofNat margin)

theorem mem_inOrder (o : Outcome) : o ∈ inOrder := by
  rcases mem_plain_or_graded o with hplain | ⟨margin, rfl⟩
  · exact List.mem_append_left _ hplain
  · refine List.mem_append_right _ (List.mem_map.mpr ⟨margin.toNat, ?_, ?_⟩)
    · exact List.mem_range.mpr margin.toNat_lt
    · rw [UInt32.ofNat_toNat]

theorem pairwise_inOrder : inOrder.Pairwise fun a b => a.rank < b.rank := by
  have hgraded : ∀ margin ∈ List.range UInt32.size,
      rank (failedSaveBy (.ofNat margin)) = 6 + margin := by
    intro margin hmargin
    rw [rank, UInt32.toNat_ofNat_of_lt' (List.mem_range.mp hmargin)]
  refine List.pairwise_append.mpr ⟨by decide, ?_, fun a ha b hb => ?_⟩
  · refine List.pairwise_map.mpr (List.pairwise_lt_range.imp_of_mem fun {m k} hm hk hlt => ?_)
    rw [hgraded m hm, hgraded k hk]
    omega
  · obtain ⟨margin, hmargin, rfl⟩ := List.mem_map.mp hb
    have hlow : a.rank < 6 := by
      revert a
      decide
    rw [hgraded margin hmargin]
    omega

end Outcome

namespace Tree

open Forest

/-! ## Outcome by outcome -/

/-- The children of an effect, outcome by outcome, are the ids that a walk goes on with. -/
theorem Valid.flatMap_childrenOf {t : Tree} (h : Valid t) (id : NodeId) :
    Outcome.inOrder.flatMap (t.childrenOf id) = t.successors id := by
  have hordered : Ordered ((t.branches id).map fun b => some b.1) :=
    List.pairwise_map.mpr ((h.pairwise_branches id).imp fun hle => notAfter_iff.mpr hle)
  have hbranches := flatMap_filter_of_ordered hordered Outcome.pairwise_inOrder
    fun b _ => ⟨b.1, Outcome.mem_inOrder b.1, rfl⟩
  simp only [Option.some.injEq] at hbranches
  rw [Valid.successors_eq, ← hbranches, List.map_flatMap]
  rfl

/-! ## Walks without a bound -/

/-- A walk that comes to its end: it takes the id on top of the stack, puts those that follow it in
its place, and has met these ids when the stack is empty. -/
inductive Walks (next : NodeId → List NodeId) : (stack met : List NodeId) → Prop where
  | done : Walks next [] []
  | step {id : NodeId} {stack met : List NodeId} (h : Walks next (next id ++ stack) met) :
      Walks next (id :: stack) (id :: met)

section Walks

variable {next : NodeId → List NodeId} {stack met : List NodeId}

theorem Walks.unique (h : Walks next stack met) {met' : List NodeId}
    (h' : Walks next stack met') : met = met' := by
  induction h generalizing met' with
  | done =>
      cases h'
      rfl
  | step _ ih =>
      cases h' with
      | step h' => rw [ih h']

/-- A bounded walk that meets fewer ids than its bound has come to its end. -/
theorem walks_walk {fuel : Nat} (h : (walk next fuel stack).length < fuel) :
    Walks next stack (walk next fuel stack) := by
  induction fuel generalizing stack with
  | zero => exact absurd h (Nat.not_lt_zero _)
  | succ fuel ih =>
      cases stack with
      | nil => exact .done
      | cons id stack => exact .step (ih (Nat.lt_of_succ_lt_succ h))

/-- Where a bounded walk has come to its end, what it has met is all that the walk meets. -/
theorem walks_iff {fuel : Nat} (hwalk : walk next fuel stack = met) (h : met.length < fuel)
    {met' : List NodeId} : Walks next stack met' ↔ met' = met := by
  subst hwalk
  constructor
  · exact fun h' => h'.unique (walks_walk h)
  · rintro rfl
    exact walks_walk h

end Walks

/-! ## The recursive order -/

/-- The recursive order of effects that stand side by side: each one, then what stands below it,
outcome by outcome and under one outcome in the order of the list, and then the next. -/
inductive Enumerates (t : Tree) : (siblings order : List NodeId) → Prop where
  | nil : Enumerates t [] []
  | cons {id : NodeId} {siblings below after : List NodeId}
      (hbelow : Enumerates t (Outcome.inOrder.flatMap (t.childrenOf id)) below)
      (hafter : Enumerates t siblings after) : Enumerates t (id :: siblings) (id :: (below ++ after))

theorem Enumerates.unique {t : Tree} {siblings order order' : List NodeId}
    (h : Enumerates t siblings order) (h' : Enumerates t siblings order') : order = order' := by
  induction h generalizing order' with
  | nil =>
      cases h'
      rfl
  | cons _ _ ihbelow ihafter =>
      cases h' with
      | cons hbelow hafter => rw [ihbelow hbelow, ihafter hafter]

theorem Valid.enumerates {t : Tree} (h : Valid t) {f : Tree} (hsub : f.subtrees ⊆ t.subtrees) :
    Enumerates t f.roots f.ids := by
  induction f with
  | nil => exact .nil
  | node n c r ihc ihr =>
      rw [subtrees_node, List.cons_subset, List.append_subset] at hsub
      have hids : ids (.node n c r) = n.id :: (ids c ++ ids r) := by simp [ids]
      have hchildren : t.successors n.id = Tree.roots c := h.successors_of_mem_subtrees hsub.1
      rw [hids]
      refine .cons ?_ (ihr hsub.2.2)
      rw [h.flatMap_childrenOf, hchildren]
      exact ihc hsub.2.1

/-! ## What walks over a tree give -/

/-- The walk from the roots comes to its end with the recursive order, in which every id stands once
and every parent before its children. The walk from an id comes to its end with that id and its
descendants, which are the ids right behind it that have it among their ancestors. -/
structure Traversed (t : Tree) : Prop where
  walk : ∀ met, Walks t.successors t.roots met ↔ met = t.preorder
  recursive : ∀ order, Enumerates t t.roots order ↔ order = t.preorder
  once : ∀ id, t.preorder.count id = if t.contains id then 1 else 0
  parent_first : ∀ p id, t.IsParent p id → [p, id].Sublist t.preorder
  walk_below : ∀ id, t.contains id = true →
    ∀ met, Walks t.successors [id] met ↔ met = id :: t.descendants id
  descendants_next : ∀ id, t.contains id = true →
    ∃ front back, t.preorder = front ++ id :: t.descendants id ++ back
  mem_descendants : ∀ id, t.contains id = true →
    ∀ x, x ∈ t.descendants id ↔ t.IsAncestor id x

namespace Valid

variable {t : Tree}

theorem walks_roots_iff (h : Valid t) (met : List NodeId) :
    Walks t.successors t.roots met ↔ met = t.preorder := by
  have hnext : ∀ s ∈ t.subtrees, t.successors s.1.id = s.2.rootLabels.map Node.id :=
    fun _ hs => h.successors_of_mem_subtrees hs
  rw [h.preorder_eq]
  exact walks_iff (walk_eq_ids hnext (Nat.le_succ t.size)) (by rw [length_ids]; omega)

theorem walks_below_iff (h : Valid t) {s : Node × Tree} (hs : s ∈ t.subtrees)
    (met : List NodeId) :
    Walks t.successors [s.1.id] met ↔ met = s.1.id :: t.descendants s.1.id := by
  have hlength := (ids_sublist hs).length_le
  rw [length_ids] at hlength
  rw [h.descendants_of_mem_subtrees hs]
  exact walks_iff (h.walk_of_mem_subtrees hs (Nat.le_succ t.size)) (by omega)

theorem preorder_eq_append (h : Valid t) {s : Node × Tree} (hs : s ∈ t.subtrees) :
    ∃ front back, t.preorder = front ++ s.1.id :: t.descendants s.1.id ++ back := by
  obtain ⟨p, front, back, heq, -⟩ := exists_block h.ids_nodup hs none
  refine ⟨front.map Record.id, back.map Record.id, ?_⟩
  rw [h.preorder_eq, h.descendants_of_mem_subtrees hs, ← map_id_records, records, heq,
    List.map_append, List.map_append, map_id_block]

theorem traversal (h : Valid t) : Traversed t where
  walk := h.walks_roots_iff
  recursive := by
    have henum := h.enumerates (List.Subset.refl t.subtrees)
    intro order
    rw [h.preorder_eq]
    constructor
    · exact fun h' => h'.unique henum
    · rintro rfl
      exact henum
  once := by
    intro id
    rw [h.preorder_eq]
    by_cases hid : id ∈ t.ids
    · rw [if_pos (contains_iff.mpr hid)]
      exact List.count_eq_one_of_mem h.ids_nodup hid
    · rw [if_neg fun hc => hid (contains_iff.mp hc)]
      exact List.count_eq_zero_of_not_mem hid
  parent_first := by
    rintro p id ⟨r, hget, hp⟩
    obtain ⟨hr, rfl⟩ := (get?_eq_some_iff h.ids_nodup).mp hget
    obtain ⟨s, hs, rfl, hn⟩ := exists_subtree_of_record hr hp
    obtain ⟨front, back, heq⟩ := h.preorder_eq_append hs
    have hmem : r.id ∈ t.descendants s.1.id := by
      rw [h.descendants_of_mem_subtrees hs]
      exact List.mem_map_of_mem (f := Node.id) (mem_labels_of_mem_rootLabels hn)
    have hblock : [s.1.id, r.id].Sublist (s.1.id :: t.descendants s.1.id) :=
      (List.singleton_sublist.mpr hmem).cons_cons s.1.id
    rw [heq]
    exact (hblock.trans (List.sublist_append_right front _)).trans (List.sublist_append_left _ back)
  walk_below := by
    intro id hid
    obtain ⟨s, hs, rfl⟩ := exists_subtree_of_id (contains_iff.mp hid)
    exact h.walks_below_iff hs
  descendants_next := by
    intro id hid
    obtain ⟨s, hs, rfl⟩ := exists_subtree_of_id (contains_iff.mp hid)
    exact h.preorder_eq_append hs
  mem_descendants := by
    intro id hid x
    obtain ⟨s, hs, rfl⟩ := exists_subtree_of_id (contains_iff.mp hid)
    rw [h.descendants_of_mem_subtrees hs]
    exact h.mem_ids_iff_isAncestor hs

end Valid

/-! ## What the walk over loaded records gives -/

/-- The walk with which the loader looks for cycles comes to its end whatever cycles there are. -/
theorem walks_recordsOf_iff {rs : List Record} (hnd : (rs.map Record.id).Nodup)
    (met : List NodeId) :
    Walks (fun id => (recordsOf rs (some id)).map Record.id) ((recordsOf rs none).map Record.id)
      met ↔ met = reachable rs := by
  have hlength : (reachable rs).length ≤ rs.length := by
    rw [reachable_eq hnd, length_ids]
    exact size_grow_le hnd
  have hwalk := walk_recordsOf hnd (Nat.le_succ rs.length)
  rw [← reachable_eq hnd] at hwalk
  exact walks_iff hwalk (by omega)

/-- All walks come to their end: those over a tree that operations can produce, with the recursive
order, and the one over the records that are being loaded. -/
theorem Reachable.traversed {t : Tree} (h : Reachable t) :
    Traversed t ∧
      ∀ rs : List Record, (rs.map Record.id).Nodup → ∀ met,
        Walks (fun id => (recordsOf rs (some id)).map Record.id)
          ((recordsOf rs none).map Record.id) met ↔ met = reachable rs :=
  ⟨h.valid.traversal, fun _ hnd => walks_recordsOf_iff hnd⟩

/-- A root beside damage and more damage that name each other as their parents. -/
def cyclicRecords : List Record :=
  [⟨"a", some "b", some .hit, .damage ⟨.cold, "1", none, none, none⟩⟩,
    ⟨"b", some "a", some .hit, .damage ⟨.fire, "1", none, none, none⟩⟩,
    ⟨"c", none, none, .condition ⟨"prone", none⟩⟩]

theorem traversed_gradedFailures :
    Walks gradedFailures.successors gradedFailures.roots ["save", "fire", "prone", "stunned"] ∧
      Enumerates gradedFailures gradedFailures.roots ["save", "fire", "prone", "stunned"] ∧
      gradedFailures.IsAncestor "save" "stunned" ∧
      (cyclicRecords.map Record.id).Nodup ∧
      Walks (fun id => (recordsOf cyclicRecords (some id)).map Record.id)
        ((recordsOf cyclicRecords none).map Record.id) ["c"] := by
  obtain ⟨htree, hloading⟩ := Reachable.traversed built_gradedFailures.reachable
  have horder : ["save", "fire", "prone", "stunned"] = gradedFailures.preorder := by decide
  have hnd : (cyclicRecords.map Record.id).Nodup := by decide
  refine ⟨(htree.walk _).mpr horder, (htree.recursive _).mpr horder, ?_, hnd, ?_⟩
  · exact (htree.mem_descendants "save" (by decide) "stunned").mp (by decide)
  · exact (hloading cyclicRecords hnd _).mpr (by decide)

end Tree

end Spellwork
