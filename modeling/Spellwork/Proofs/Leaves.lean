import Spellwork.Effect.Outline
import Spellwork.Proofs.Siblings
import Spellwork.Proofs.Valid

/-!
# Planting leaves without ids

Drafts that stand for single effects receive the next ids of the mint, one each. They are planted
among the roots or below one root, each in the place of its outcome; nothing can go wrong but that
two ids coincide (`toOption_plantDrafts_roots`, `toOption_plantDrafts_below`).
-/

namespace Spellwork

open Spellwork.Forest Spellwork.Tree

namespace Random.Mint

theorem take_succ (n : Nat) (m : Mint) :
    m.take (n + 1) = (m.next.1 :: (m.next.2.take n).1, (m.next.2.take n).2) := by
  rw [take]

theorem length_take (n : Nat) (m : Mint) : (m.take n).1.length = n := by
  induction n generalizing m with
  | zero => rfl
  | succ n ih => rw [take_succ, List.length_cons, ih]

theorem take_add (k n : Nat) (m : Mint) :
    m.take (k + n) = ((m.take k).1 ++ ((m.take k).2.take n).1, ((m.take k).2.take n).2) := by
  induction k generalizing m with
  | zero => rw [Nat.zero_add]; rfl
  | succ k ih => rw [Nat.succ_add, take_succ, take_succ, ih, List.cons_append]

end Random.Mint

namespace Outline

/-! ## Naming -/

/-- Effects with their outcomes as drafts without ids. -/
def draftLeaves (ds : List (Option Outcome × Effect)) : Forest Draft :=
  leaves (ds.map fun d => ⟨none, d.1, d.2⟩)

/-- Effects with their outcomes under ids. -/
def named (ids : List NodeId) (ds : List (Option Outcome × Effect)) : List Node :=
  List.zipWith (fun id d => ⟨id, d.1, d.2⟩) ids ds

theorem map_id_named {ids : List NodeId} {ds : List (Option Outcome × Effect)}
    (h : ids.length = ds.length) : (named ids ds).map Node.id = ids := by
  induction ids generalizing ds with
  | nil => rfl
  | cons id ids ih =>
      cases ds with
      | nil => cases h
      | cons d ds => exact congrArg (id :: ·) (ih (Nat.succ.inj h))

theorem map_content_named {ids : List NodeId} {ds : List (Option Outcome × Effect)}
    (h : ids.length = ds.length) :
    (named ids ds).map (fun n => (n.outcome, n.effect)) = ds := by
  induction ids generalizing ds with
  | nil =>
      cases ds with
      | nil => rfl
      | cons d ds => cases h
  | cons id ids ih =>
      cases ds with
      | nil => cases h
      | cons d ds => exact congrArg (d :: ·) (ih (Nat.succ.inj h))

/-- Placed by their outcomes, the named effects are the placed effects, named. -/
theorem map_content_placeAll_named {ids : List NodeId} {ds : List (Option Outcome × Effect)}
    (h : ids.length = ds.length) :
    (placeAll Node.outcome [] (named ids ds)).map (fun n => (n.outcome, n.effect)) =
      placeAll Prod.fst [] ds := by
  have hkey : ∀ n : Node, Prod.fst (n.outcome, n.effect) = n.outcome := fun _ => rfl
  rw [map_placeAll hkey, map_content_named h]
  rfl

theorem perm_id_placeAll_named {ids : List NodeId} {ds : List (Option Outcome × Effect)}
    (h : ids.length = ds.length) :
    ((placeAll Node.outcome [] (named ids ds)).map Node.id).Perm ids := by
  have hperm : (placeAll Node.outcome [] (named ids ds)).Perm (named ids ds) :=
    placeAll_perm [] (named ids ds)
  have hids := hperm.map Node.id
  rwa [map_id_named h] at hids

/-! ## One leaf -/

theorem slotOf_none (o : Option Outcome) : slotOf none o = none := by
  cases o <;> rfl

theorem toOption_plantDrafts_nil (parent : Option NodeId) (t : Tree) (mint : Random.Mint) :
    (plantDrafts parent .nil t mint).toOption = some (t, mint) := by
  rw [plantDrafts]
  rfl

/-- A draft without an id takes the next one. -/
theorem toOption_plantDrafts_node (parent : Option NodeId) (o : Option Outcome) (e : Effect)
    (children rest : Forest Draft) (t : Tree) (mint : Random.Mint) :
    (plantDrafts parent (.node ⟨none, o, e⟩ children rest) t mint).toOption =
      (t.insert (slotOf parent o) mint.next.1 e).toOption.bind fun t =>
        (plantDrafts (some mint.next.1) children t mint.next.2).toOption.bind fun planted =>
          (plantDrafts parent rest planted.1 planted.2).toOption := by
  rw [plantDrafts]
  dsimp only
  cases t.insert (slotOf parent o) mint.next.1 e with
  | error err => rfl
  | ok t' =>
      simp only [Except.toOption, Option.bind_some]
      cases plantDrafts (some mint.next.1) children t' mint.next.2 <;> rfl

theorem toOption_plantDrafts_leaf (parent : Option NodeId) (o : Option Outcome) (e : Effect)
    (rest : Forest Draft) (t : Tree) (mint : Random.Mint) :
    (plantDrafts parent (.node ⟨none, o, e⟩ .nil rest) t mint).toOption =
      (t.insert (slotOf parent o) mint.next.1 e).toOption.bind fun t =>
        (plantDrafts parent rest t mint.next.2).toOption := by
  simp only [toOption_plantDrafts_node, toOption_plantDrafts_nil, Option.bind_some]

theorem ids_leaves (l : List Node) : Tree.ids (leaves l) = l.map Node.id := by
  rw [Tree.ids, labels_leaves]

theorem ids_node_leaves (n : Node) (l : List Node) :
    Tree.ids (.node n (leaves l) .nil) = n.id :: l.map Node.id := by
  simp [Tree.ids, labels_leaves]

theorem toOption_insert_root {t : Tree} {id : NodeId} {e : Effect}
    (hkind : e.isDamageOutcome = false) :
    (t.insert none id e).toOption =
      if id ∈ t.ids then none else some (t ++ .leaf ⟨id, none, e⟩) := by
  by_cases hmem : id ∈ t.ids
  · rw [if_pos hmem]
    simp [Tree.insert, attach, contains_iff.mpr hmem, Except.toOption]
  · have hfresh : t.contains id = false := Bool.eq_false_iff.mpr fun h => hmem (contains_iff.mp h)
    rw [if_neg hmem]
    simp [Tree.insert, attach, hfresh, hkind, Except.toOption]

theorem toOption_insert_below {root : Node} {c : Tree} {o : Outcome} {id : NodeId} {e : Effect}
    (hown : root.effect.canOwn o = true) (hshared : o = .sharedRolls → e.isDamage = true) :
    (Tree.insert (some (root.id, o)) id e (.node root c .nil)).toOption =
      if id ∈ Tree.ids (.node root c .nil) then none
      else some (.node root (placeAmong ⟨id, some o, e⟩ c) .nil) := by
  by_cases hmem : id ∈ Tree.ids (.node root c .nil)
  · rw [if_pos hmem]
    simp [Tree.insert, attach, contains_iff.mpr hmem, Except.toOption]
  · have hfresh : Tree.contains (.node root c .nil) id = false :=
      Bool.eq_false_iff.mpr fun h => hmem (contains_iff.mp h)
    have hget : (Tree.get? (.node root c .nil) root.id).map Record.effect = some root.effect := by
      simp [Tree.get?, records, recordsBelow]
    have hedge : checkEdge (some root.effect) root.id o id e = .ok () :=
      checkEdge_eq_ok_iff.mpr ⟨root.effect, rfl, hown, hshared⟩
    rw [if_neg hmem]
    simp [Tree.insert, attach, hfresh, hget, hedge, placeBelow, Except.toOption]

theorem placeAmong_leaves (n : Node) (l : List Node) :
    placeAmong n (leaves l) = leaves (placeBy Node.outcome n l) := by
  induction l with
  | nil => rfl
  | cons m l ih =>
      rw [leaves_cons, placeAmong, placeBy, ih]
      split <;> rfl

/-! ## One after the other -/

/-- A taken id is met again, and a fresh one may be counted with those done. -/
theorem nodup_append_cons_iff {α : Type} {x : α} {done later done' : List α}
    (hperm : done'.Perm (x :: done)) :
    (done ++ x :: later).Nodup ↔ (done' ++ later).Nodup :=
  List.perm_middle.nodup_iff.trans (hperm.append_right later).nodup_iff.symm

theorem not_nodup_append_cons {α : Type} {x : α} {done later : List α} (h : x ∈ done) :
    ¬ (done ++ x :: later).Nodup := fun hnd =>
  (List.nodup_append.mp hnd).2.2 x h x List.mem_cons_self rfl

theorem toOption_plantDrafts_roots {ds : List (Option Outcome × Effect)}
    (hkind : ∀ d ∈ ds, d.1 = none ∧ d.2.isDamageOutcome = false) (done : List Node)
    (hdone : (done.map Node.id).Nodup) (mint : Random.Mint) :
    (plantDrafts none (draftLeaves ds) (leaves done) mint).toOption =
      if (done.map Node.id ++ (mint.take ds.length).1).Nodup then
        some (leaves (done ++ named (mint.take ds.length).1 ds), (mint.take ds.length).2)
      else none := by
  induction ds generalizing done mint with
  | nil =>
      rw [if_pos (by simpa [Random.Mint.take] using hdone)]
      simp [draftLeaves, plantDrafts, Random.Mint.take, named, Except.toOption]
  | cons d ds ih =>
      obtain ⟨⟨houtcome, hdamage⟩, hrest⟩ := List.forall_mem_cons.mp hkind
      obtain ⟨o, e⟩ := d
      obtain rfl : o = none := houtcome
      have hstep : (plantDrafts none (draftLeaves ((none, e) :: ds)) (leaves done) mint).toOption =
          (Tree.insert none mint.next.1 e (leaves done)).toOption.bind fun t =>
            (plantDrafts none (draftLeaves ds) t mint.next.2).toOption :=
        toOption_plantDrafts_leaf none none e (draftLeaves ds) (leaves done) mint
      rw [hstep, toOption_insert_root hdamage, ids_leaves, List.length_cons,
        Random.Mint.take_succ]
      obtain ⟨id, later⟩ := mint.next
      by_cases htaken : id ∈ done.map Node.id
      · rw [if_pos htaken, if_neg (not_nodup_append_cons htaken)]
        rfl
      · have hids : (done ++ [(⟨id, none, e⟩ : Node)]).map Node.id = done.map Node.id ++ [id] :=
          List.map_append
        have hperm := List.perm_append_singleton id (done.map Node.id)
        have hnew : ((done ++ [(⟨id, none, e⟩ : Node)]).map Node.id).Nodup := by
          rw [hids]
          exact hperm.nodup_iff.mpr (List.nodup_cons.mpr ⟨htaken, hdone⟩)
        have hleaf : leaves done ++ .leaf ⟨id, none, e⟩ = leaves (done ++ [⟨id, none, e⟩]) :=
          (leaves_append done [⟨id, none, e⟩]).symm
        rw [if_neg htaken, Option.bind_some, hleaf, ih hrest _ hnew, hids]
        simp only [nodup_append_cons_iff hperm, named, List.zipWith_cons_cons, List.append_assoc,
          List.singleton_append]

theorem toOption_plantDrafts_below (root : Node) {ds : List (Option Outcome × Effect)}
    (hadmits : ∀ d ∈ ds, ∀ id, root.effect.Admits ⟨id, d.1, d.2⟩) (done : List Node)
    (hdone : (root.id :: done.map Node.id).Nodup) (mint : Random.Mint) :
    (plantDrafts (some root.id) (draftLeaves ds) (.node root (leaves done) .nil) mint).toOption =
      if (root.id :: done.map Node.id ++ (mint.take ds.length).1).Nodup then
        some (.node root (leaves (placeAll Node.outcome done
          (named (mint.take ds.length).1 ds))) .nil, (mint.take ds.length).2)
      else none := by
  induction ds generalizing done mint with
  | nil =>
      rw [if_pos (by simpa [Random.Mint.take] using hdone)]
      simp [draftLeaves, plantDrafts, Random.Mint.take, named, placeAll, Except.toOption]
  | cons d ds ih =>
      obtain ⟨hfirst, hrest⟩ := List.forall_mem_cons.mp hadmits
      obtain ⟨o', e⟩ := d
      obtain ⟨o, houtcome, hown, hshared⟩ := hfirst root.id
      obtain rfl : o' = some o := houtcome
      have hstep : (plantDrafts (some root.id) (draftLeaves ((some o, e) :: ds))
            (.node root (leaves done) .nil) mint).toOption =
          (Tree.insert (some (root.id, o)) mint.next.1 e
            (.node root (leaves done) .nil)).toOption.bind fun t =>
              (plantDrafts (some root.id) (draftLeaves ds) t mint.next.2).toOption :=
        toOption_plantDrafts_leaf (some root.id) (some o) e (draftLeaves ds) _ mint
      rw [hstep, toOption_insert_below hown hshared, ids_node_leaves, List.length_cons,
        Random.Mint.take_succ]
      obtain ⟨id, later⟩ := mint.next
      by_cases htaken : id ∈ root.id :: done.map Node.id
      · rw [if_pos htaken, if_neg (not_nodup_append_cons htaken)]
        rfl
      · have hperm : (root.id :: (placeBy Node.outcome ⟨id, some o, e⟩ done).map Node.id).Perm
            (id :: root.id :: done.map Node.id) :=
          (((placeBy_perm _ done).map Node.id).cons root.id).trans (List.Perm.swap id root.id _)
        have hnew := hperm.nodup_iff.mpr (List.nodup_cons.mpr ⟨htaken, hdone⟩)
        rw [if_neg htaken, Option.bind_some, placeAmong_leaves, ih hrest _ hnew]
        simp only [nodup_append_cons_iff hperm, named, List.zipWith_cons_cons, placeAll,
          List.foldl_cons]

theorem toOption_plantDrafts_root {e : Effect} (hkind : e.isDamageOutcome = false)
    {ds : List (Option Outcome × Effect)} (hadmits : ∀ d ∈ ds, ∀ id, e.Admits ⟨id, d.1, d.2⟩)
    (mint : Random.Mint) :
    (plantDrafts none (.node ⟨none, none, e⟩ (draftLeaves ds) .nil) .nil mint).toOption =
      if (mint.take (ds.length + 1)).1.Nodup then
        some (.node ⟨mint.next.1, none, e⟩ (leaves (placeAll Node.outcome []
          (named (mint.next.2.take ds.length).1 ds))) .nil, (mint.take (ds.length + 1)).2)
      else none := by
  have hinsert : ∀ id, (Tree.insert none id e .nil).toOption = some (.leaf ⟨id, none, e⟩) :=
    fun id => (toOption_insert_root hkind).trans (if_neg List.not_mem_nil)
  rw [toOption_plantDrafts_node, slotOf_none, hinsert, Option.bind_some, Random.Mint.take_succ]
  obtain ⟨id, later⟩ := mint.next
  have hbelow : (plantDrafts (some id) (draftLeaves ds) (.leaf ⟨id, none, e⟩) later).toOption = _ :=
    toOption_plantDrafts_below ⟨id, none, e⟩ hadmits [] (List.nodup_singleton id) later
  simp only [List.map_nil, List.cons_append, List.nil_append] at hbelow
  dsimp only
  rw [hbelow]
  split
  · rw [Option.bind_some, toOption_plantDrafts_nil]
  · rfl

/-! ## From nothing -/

/-- Planted from nothing, drafts become a tree of some shape with the next ids of the mint, unless
two of these coincide; then they cannot be planted. -/
structure Becomes (ds : Forest Draft) (mint : Random.Mint)
    (shape : Forest (Option Outcome × Effect)) : Prop where
  planted : (mint.take shape.size).1.Nodup →
    ∃ t later, (plantDrafts none ds .nil mint).toOption = some (t, later) ∧
      t.map (fun n => (n.outcome, n.effect)) = shape ∧ t.ids.Perm (mint.take shape.size).1
  refused : ¬ (mint.take shape.size).1.Nodup → (plantDrafts none ds .nil mint).toOption = none

theorem becomes_leaves {ds : List (Option Outcome × Effect)}
    (hkind : ∀ d ∈ ds, d.1 = none ∧ d.2.isDamageOutcome = false) (mint : Random.Mint) :
    Becomes (draftLeaves ds) mint (leaves ds) := by
  have hplant := toOption_plantDrafts_roots hkind [] List.nodup_nil mint
  have hlength := Random.Mint.length_take ds.length mint
  rw [leaves_nil, List.map_nil, List.nil_append, List.nil_append] at hplant
  constructor <;> rw [size_leaves, hplant] <;> intro hnd
  · rw [if_pos hnd]
    refine ⟨_, _, rfl, ?_, ?_⟩
    · rw [map_leaves, map_content_named hlength]
    · rw [ids_leaves, map_id_named hlength]
  · rw [if_neg hnd]

/-- Below one root the leaves come to stand in the order of their outcomes. -/
theorem becomes_root {e : Effect} (hkind : e.isDamageOutcome = false)
    {ds : List (Option Outcome × Effect)} (hadmits : ∀ d ∈ ds, ∀ id, e.Admits ⟨id, d.1, d.2⟩)
    (mint : Random.Mint) :
    Becomes (.node ⟨none, none, e⟩ (draftLeaves ds) .nil) mint
      (.node (none, e) (leaves (placeAll Prod.fst [] ds)) .nil) := by
  have hsize : Forest.size (.node (none, e) (leaves (placeAll Prod.fst [] ds)) .nil) =
      ds.length + 1 := by
    have hperm : (placeAll Prod.fst [] ds).Perm ds := placeAll_perm [] ds
    simp [Forest.size, size_leaves, hperm.length_eq]
  have hlength := Random.Mint.length_take ds.length mint.next.2
  constructor <;> rw [hsize, toOption_plantDrafts_root hkind hadmits] <;> intro hnd
  · rw [if_pos hnd]
    refine ⟨_, _, rfl, ?_, ?_⟩
    · rw [map_node, map_leaves, map_content_placeAll_named hlength]
      rfl
    · rw [ids_node_leaves, Random.Mint.take_succ]
      dsimp only
      exact (perm_id_placeAll_named hlength).cons mint.next.1
  · rw [if_neg hnd]

end Outline

end Spellwork
