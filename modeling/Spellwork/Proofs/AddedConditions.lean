import Spellwork.Proofs.RoundTrip
import Spellwork.Proofs.Scaling

/-!
# Conditions that scaling adds

A delta adds its condition under an id that depends on nothing but the condition and the place of
the delta in its list. Scaling one tree twice therefore gives the same tree twice, and scaling what
has been scaled adds nothing: an id that is taken stays with the effect that has it. So the deltas
do not decide alone how many conditions are added. They name the newcomers (`newcomers`), and one
after the other those are admitted whose ids are free (`admitted`).
-/

namespace Spellwork

/-- The condition that a delta adds, if it is one that adds a condition. -/
def Delta.added? (d : Delta) : Option String :=
  if d.operation = .addCondition then d.condition else none

namespace Upcast

open Spellwork.Tree

/-- The roots that deltas are to add, the first delta at the place `index` of its list. -/
def newcomers (index : Nat) (ds : List Delta) : List Node :=
  (ds.zipIdx index).filterMap fun d => d.1.added?.map (newcomer d.2)

/-- Of newcomers one after the other, those whose ids are not taken. -/
def admitted (taken : List NodeId) : List Node → List Node
  | [] => []
  | n :: ns => if n.id ∈ taken then admitted taken ns else n :: admitted (taken ++ [n.id]) ns

/-! ## Newcomers -/

theorem newcomers_cons (index : Nat) (d : Delta) (ds : List Delta) :
    newcomers index (d :: ds) =
      (d.added?.map (newcomer index)).toList ++ newcomers (index + 1) ds := by
  rw [newcomers, List.zipIdx_cons, List.filterMap_cons]
  cases d.added? <;> rfl

/-- The newcomers are the conditions of the deltas, in their order. -/
theorem effect_newcomers (index : Nat) (ds : List Delta) :
    (newcomers index ds).map Node.effect =
      (ds.filterMap Delta.added?).map fun condition => .condition { condition } := by
  induction ds generalizing index with
  | nil => rfl
  | cons d ds ih =>
      rw [newcomers_cons, List.map_append, ih, List.filterMap_cons]
      cases d.added? <;> rfl

theorem length_newcomers (index : Nat) (ds : List Delta) :
    (newcomers index ds).length = (ds.filterMap Delta.added?).length := by
  have hlength := congrArg List.length (effect_newcomers index ds)
  rwa [List.length_map, List.length_map] at hlength

/-! ## Admission -/

theorem admitted_sublist (taken : List NodeId) (ns : List Node) :
    (admitted taken ns).Sublist ns := by
  induction ns generalizing taken with
  | nil => exact List.Sublist.refl []
  | cons n ns ih =>
      unfold admitted
      split
      · exact (ih taken).cons n
      · exact (ih _).cons_cons n

/-- After admission every newcomer's id is there. -/
theorem mem_taken_or_admitted {taken : List NodeId} {ns : List Node} {n : Node} (h : n ∈ ns) :
    n.id ∈ taken ++ (admitted taken ns).map Node.id := by
  induction ns generalizing taken with
  | nil => cases h
  | cons m ns ih =>
      unfold admitted
      split
      · rename_i htaken
        rcases List.mem_cons.mp h with rfl | h
        · exact List.mem_append_left _ htaken
        · exact ih h
      · rw [List.map_cons, ← List.singleton_append, ← List.append_assoc]
        rcases List.mem_cons.mp h with rfl | h
        · simp
        · exact ih h

theorem admitted_eq_nil {taken : List NodeId} {ns : List Node} (h : ∀ n ∈ ns, n.id ∈ taken) :
    admitted taken ns = [] := by
  induction ns with
  | nil => rfl
  | cons n ns ih =>
      rw [admitted, if_pos (h n List.mem_cons_self)]
      exact ih fun m hm => h m (List.mem_cons_of_mem n hm)

/-- All newcomers are admitted if their ids are distinct and none of them is taken. -/
theorem length_admitted_eq_iff {taken : List NodeId} {ns : List Node} :
    (admitted taken ns).length = ns.length ↔
      (ns.map Node.id).Nodup ∧ ∀ n ∈ ns, n.id ∉ taken := by
  induction ns generalizing taken with
  | nil => simp [admitted]
  | cons n ns ih =>
      unfold admitted
      split
      · rename_i htaken
        have hle := (admitted_sublist taken ns).length_le
        rw [List.length_cons]
        exact iff_of_false (by omega) fun h => h.2 n List.mem_cons_self htaken
      · rename_i hfree
        rw [List.length_cons, List.length_cons, Nat.add_right_cancel_iff, ih]
        simp only [List.map_cons, List.nodup_cons, List.mem_map, List.mem_append,
          List.mem_cons, not_or, not_exists, not_and, forall_eq_or_imp, forall_and]
        tauto

theorem newCondition_eq (taken : List NodeId) (index : Nat) (d : Delta) :
    newCondition taken index d = admitted taken (d.added?.map (newcomer index)).toList := by
  cases hop : d.operation with
  | addCondition =>
      cases hcondition : d.condition with
      | none => simp [newCondition, Delta.added?, hop, hcondition, admitted]
      | some condition => simp [newCondition, Delta.added?, hop, hcondition, admitted]
  | _ => simp [newCondition, Delta.added?, hop, admitted]

theorem admitted_append (taken : List NodeId) (ns ms : List Node) :
    admitted taken (ns ++ ms) =
      admitted taken ns ++ admitted (taken ++ (admitted taken ns).map Node.id) ms := by
  induction ns generalizing taken with
  | nil => simp [admitted]
  | cons n ns ih =>
      by_cases htaken : n.id ∈ taken
      · simp only [List.cons_append, admitted, if_pos htaken, ih]
      · simp [admitted, htaken, ih]

/-- The roots that deltas add are the newcomers admitted. -/
theorem newConditions_eq (taken : List NodeId) (index : Nat) (ds : List Delta) :
    newConditions taken index ds = admitted taken (newcomers index ds) := by
  induction ds generalizing taken index with
  | nil => rfl
  | cons d ds ih => rw [newConditions, newcomers_cons, admitted_append, newCondition_eq, ih]

/-! ## The scaled tree -/

/-- A scaled tree has the newcomers admitted behind its roots, with nothing below them. -/
theorem get?_of_mem_admitted {t : Tree} (h : Valid t) (steps : UInt32) {ds : List Delta} {n : Node}
    (hn : n ∈ admitted t.ids (newcomers 0 ds)) :
    (scaledTree t steps ds).get? n.id = some (n.record none) := by
  refine (get?_eq_some_iff (Valid.scaledTree h steps ds).ids_nodup).mpr ⟨?_, rfl⟩
  rw [records_scaledTree, newConditions_eq]
  exact List.mem_append_right _ (List.mem_map_of_mem hn)

theorem size_scaledTree (t : Tree) (steps : UInt32) (ds : List Delta) :
    (scaledTree t steps ds).size = t.size + (admitted t.ids (newcomers 0 ds)).length := by
  have hlength := congrArg List.length (ids_scaledTree t steps ds)
  rw [newConditions_eq, List.length_append, List.length_map, ids, ids, List.length_map,
    List.length_map, Forest.length_labels, Forest.length_labels] at hlength
  exact hlength

theorem size_scaledTree_eq_iff {t : Tree} {steps : UInt32} {ds : List Delta} :
    (scaledTree t steps ds).size = t.size + (ds.filterMap Delta.added?).length ↔
      ((newcomers 0 ds).map Node.id).Nodup ∧ ∀ n ∈ newcomers 0 ds, n.id ∉ t.ids := by
  rw [size_scaledTree, Nat.add_left_cancel_iff, ← length_newcomers 0 ds, length_admitted_eq_iff]

/-- Once scaled, a tree has the ids of all newcomers. -/
theorem mem_ids_scaledTree (t : Tree) (steps : UInt32) {ds : List Delta} {n : Node}
    (hn : n ∈ newcomers 0 ds) : n.id ∈ (scaledTree t steps ds).ids := by
  rw [ids_scaledTree, newConditions_eq]
  exact mem_taken_or_admitted hn

/-- To a tree that has all the ids already, scaling adds nothing. -/
theorem ids_scaledTree_of_taken {t : Tree} {ds : List Delta}
    (h : ∀ n ∈ newcomers 0 ds, n.id ∈ t.ids) (steps : UInt32) :
    (scaledTree t steps ds).ids = t.ids := by
  rw [ids_scaledTree, newConditions_eq, admitted_eq_nil h, List.map_nil, List.append_nil]

theorem select_upcast {scaling : Scaling} (h : scaling.mode = .upcast) (choice : Option UInt64) :
    select scaling choice = .ok (scaling.deltas, none) := by
  simp only [select, h]

end Upcast

open Upcast

/-- Scaling by a fixed list adds, behind the roots and in the order of the list, the conditions
whose ids are free, each one as a root. These are as many as the list has if their ids are distinct
and new to the tree. What has been scaled and stored has all of them, and gains none from the same
list. -/
theorem Tree.Valid.conditions_added {t : Tree} (h : Valid t) {scaling : Scaling}
    (hmode : scaling.mode = .upcast) {steps : UInt32} (hsteps : steps ≠ 0)
    (choice : Option UInt64) :
    ∃ t' added, scaleTree t scaling steps choice = .ok (t', none) ∧
      added = admitted t.ids (newcomers 0 scaling.deltas) ∧
      (added.map Node.effect).Sublist
        ((scaling.deltas.filterMap Delta.added?).map fun condition => .condition { condition }) ∧
      t'.ids = t.ids ++ added.map Node.id ∧ t'.roots = t.roots ++ added.map Node.id ∧
      (∀ n ∈ added, t'.get? n.id = some (n.record none)) ∧
      (t'.size = t.size + (scaling.deltas.filterMap Delta.added?).length ↔
        ((newcomers 0 scaling.deltas).map Node.id).Nodup ∧
          ∀ n ∈ newcomers 0 scaling.deltas, n.id ∉ t.ids) ∧
      ∃ u, ofRecords? t'.flatten = .ok u ∧ ∀ steps' choice', steps' ≠ 0 →
        ∃ u', scaleTree u scaling steps' choice' = .ok (u', none) ∧ u'.ids = u.ids := by
  have hvalid := Valid.scaledTree h steps scaling.deltas
  refine ⟨_, _, scaleTree_of_select h (select_upcast hmode choice) hsteps, rfl, ?_, ?_, ?_,
    fun n hn => get?_of_mem_admitted h steps hn, size_scaledTree_eq_iff, ?_⟩
  · rw [← effect_newcomers 0]
    exact (admitted_sublist t.ids _).map Node.effect
  · rw [ids_scaledTree, newConditions_eq]
  · rw [roots_scaledTree, newConditions_eq]
  · refine ⟨_, hvalid.ofRecords?_flatten, fun steps' choice' hsteps' => ?_⟩
    refine ⟨_, scaleTree_of_select hvalid.clearRoots (select_upcast hmode choice') hsteps', ?_⟩
    refine ids_scaledTree_of_taken (fun n hn => ?_) steps'
    rw [ids_clearRoots]
    exact mem_ids_scaledTree t steps hn

/-- More dice, a delta that lacks its condition, and one that has it. -/
def searing : Scaling :=
  .upcast [.moreDice 1 8, { operation := .addCondition }, .newCondition "burning"]

theorem Tree.conditions_added_fireball :
    ∃ t' u, scaleTree fireball searing 2 none = .ok (t', none) ∧ t'.size = fireball.size + 1 ∧
      t'.roots = ["save", "omKy2d22tfpU5DtJ"] ∧
      ofRecords? t'.flatten = .ok u ∧
      ∃ u', scaleTree u searing 1 none = .ok (u', none) ∧ u'.ids = u.ids := by
  have hmode : searing.mode = .upcast := rfl
  have hsteps : (2 : UInt32) ≠ 0 := by decide
  obtain ⟨t', added, hscale, rfl, -, -, hroots, -, hsize, u, hload, hagain⟩ :=
    Valid.conditions_added built_fireball.reachable.valid hmode hsteps none
  have hids : (newcomers 0 searing.deltas).map Node.id = ["omKy2d22tfpU5DtJ"] := by
    decide +kernel
  have hfree : ((newcomers 0 searing.deltas).map Node.id).Nodup ∧
      ∀ n ∈ newcomers 0 searing.deltas, n.id ∉ fireball.ids := by
    rw [← List.forall_mem_map (P := fun id => id ∉ fireball.ids), hids]
    decide
  have hcount : (searing.deltas.filterMap Delta.added?).length = 1 := by decide
  rw [(admitted_sublist _ _).eq_of_length (length_admitted_eq_iff.mpr hfree), hids] at hroots
  rw [hcount] at hsize
  exact ⟨t', u, hscale, hsize.mpr hfree, hroots, hload, hagain 1 none (by decide)⟩

/-- Not every condition of a list is added: what the list has been applied to has them already. -/
theorem Tree.not_forall_conditions_added :
    ¬ ∀ (t : Tree) (scaling : Scaling) (steps : UInt32) (choice : Option UInt64), Valid t →
      scaling.mode = .upcast → steps ≠ 0 →
        ∃ t' label, scaleTree t scaling steps choice = .ok (t', label) ∧
          t'.size = t.size + (scaling.deltas.filterMap Delta.added?).length := by
  intro hadded
  have hone : (1 : UInt32) ≠ 0 := by decide
  have hvalid : Valid (scaledTree fireball 1 searing.deltas) :=
    Valid.scaledTree built_fireball.reachable.valid 1 searing.deltas
  obtain ⟨t', label, hscale, hsize⟩ :=
    hadded (scaledTree fireball 1 searing.deltas) searing 1 none hvalid rfl hone
  rw [scaleTree_of_select hvalid (select_upcast rfl none) hone] at hscale
  cases hscale
  have htaken : ∀ n ∈ newcomers 0 searing.deltas,
      n.id ∈ (scaledTree fireball 1 searing.deltas).ids :=
    fun n hn => mem_ids_scaledTree fireball 1 hn
  have hcount : (searing.deltas.filterMap Delta.added?).length = 1 := by decide
  rw [size_scaledTree, admitted_eq_nil htaken, List.length_nil, hcount] at hsize
  omega

end Spellwork
