import Mathlib.Data.List.Sort
import Spellwork.Arena.Basic
import Spellwork.Proofs.WellFormed

/-!
# The arena that holds a tree

Every tree has an arena that holds it (`Arena.ofTree`): the same records under their ids, the same
edges, the same roots. For a valid tree all that is looked up in its arena is what is looked up in
the tree, the walk and the stored records included. What an arena holds is in turn told by what is
looked up in it, as long as its edges are in order (`Arena.eq_of_looks`). So to show that an
operation on the arena of a tree gives the arena of another tree it is enough to look up ids and
places on both sides, and for that there is one lemma for each of the writes.
-/

namespace Spellwork

namespace Tree

/-! ## Edges in order -/

/-- Edges by ascending outcome, each of them leading somewhere. -/
structure Tidy (es : EdgeLists) : Prop where
  ascending : es.Pairwise fun e f => e.1.rank < f.1.rank
  leads : ∀ e ∈ es, e.2 ≠ []

theorem tidy_nil : Tidy [] where
  ascending := List.Pairwise.nil
  leads := fun _ h => by cases h

theorem Tidy.leading_eq {es : EdgeLists} (h : Tidy es) : leading es = es :=
  List.filter_eq_self.mpr fun e he => by simpa using h.leads e he

theorem listUnder_cons (e : Outcome × List NodeId) (es : EdgeLists) (o : Outcome) :
    listUnder (e :: es) o = if e.1 = o then e.2 else listUnder es o := by
  unfold listUnder
  by_cases he : e.1 = o <;> simp [he]

theorem listUnder_eq_nil {es : EdgeLists} {o : Outcome} (h : ∀ e ∈ es, e.1 ≠ o) :
    listUnder es o = [] := by
  induction es with
  | nil => rfl
  | cons e es ih =>
      rw [listUnder_cons, if_neg (h e List.mem_cons_self)]
      exact ih fun f hf => h f (List.mem_cons_of_mem e hf)

/-- With ascending outcomes an edge is the one that is found under its outcome. -/
theorem listUnder_of_mem {es : EdgeLists} (h : es.Pairwise fun e f => e.1.rank < f.1.rank)
    {e : Outcome × List NodeId} (he : e ∈ es) : listUnder es e.1 = e.2 := by
  induction es with
  | nil => cases he
  | cons f es ih =>
      obtain ⟨hf, hes⟩ := List.pairwise_cons.mp h
      rw [listUnder_cons]
      rcases List.mem_cons.mp he with rfl | he
      · exact if_pos rfl
      · rw [if_neg fun heq => Nat.ne_of_lt (hf e he) (congrArg Outcome.rank heq), ih hes he]

theorem Tidy.mem_iff {es : EdgeLists} (h : Tidy es) {e : Outcome × List NodeId} :
    e ∈ es ↔ listUnder es e.1 = e.2 ∧ e.2 ≠ [] := by
  refine ⟨fun he => ⟨listUnder_of_mem h.ascending he, h.leads e he⟩, fun ⟨hunder, hne⟩ => ?_⟩
  by_contra hnot
  have hnone : ∀ f ∈ es, f.1 ≠ e.1 := by
    intro f hf heq
    have hsame : f.2 = e.2 := by rw [← listUnder_of_mem h.ascending hf, heq, hunder]
    exact hnot (Prod.ext heq hsame ▸ hf)
  exact hne (hunder.symm.trans (listUnder_eq_nil hnone))

/-- Edges in order are told by what stands under each outcome. -/
theorem Tidy.ext {es fs : EdgeLists} (hes : Tidy es) (hfs : Tidy fs)
    (h : ∀ o, listUnder es o = listUnder fs o) : es = fs := by
  have hnodup : ∀ gs : EdgeLists, Tidy gs → gs.Nodup := fun gs hgs =>
    List.Pairwise.imp (fun {e f} (hlt : e.1.rank < f.1.rank) (heq : e = f) =>
      Nat.ne_of_lt hlt (by rw [heq])) hgs.ascending
  have hperm : es.Perm fs := by
    refine (List.perm_ext_iff_of_nodup (hnodup es hes) (hnodup fs hfs)).mpr fun e => ?_
    rw [hes.mem_iff, hfs.mem_iff, h]
  exact hperm.eq_of_pairwise (fun e f _ _ hef hfe => absurd hfe (Nat.not_lt_of_lt hef))
    hes.ascending hfs.ascending

/-! ### Putting an id in and taking it out -/

theorem mem_pushEdge {o : Outcome} {id : NodeId} {es : EdgeLists} {e : Outcome × List NodeId}
    (h : e ∈ pushEdge o id es) : (e.1 = o ∧ e.2 ≠ []) ∨ e ∈ es := by
  induction es with
  | nil =>
      rw [List.mem_singleton.mp h]
      exact Or.inl ⟨rfl, List.cons_ne_nil _ _⟩
  | cons f es ih =>
      unfold pushEdge at h
      split at h
      · rcases List.mem_cons.mp h with rfl | h
        · exact Or.inl ⟨rfl, by simp⟩
        · exact Or.inr (List.mem_cons_of_mem f h)
      · split at h
        · rcases List.mem_cons.mp h with rfl | h
          · exact Or.inr List.mem_cons_self
          · exact (ih h).imp_right (List.mem_cons_of_mem f)
        · rcases List.mem_cons.mp h with rfl | h
          · exact Or.inl ⟨rfl, List.cons_ne_nil _ _⟩
          · exact Or.inr h

theorem pushEdge_ne_nil (o : Outcome) (id : NodeId) (es : EdgeLists) : pushEdge o id es ≠ [] := by
  cases es with
  | nil => exact List.cons_ne_nil _ _
  | cons e es =>
      unfold pushEdge
      split
      · exact List.cons_ne_nil _ _
      · split <;> exact List.cons_ne_nil _ _

theorem Tidy.pushEdge {es : EdgeLists} (h : Tidy es) (o : Outcome) (id : NodeId) :
    Tidy (pushEdge o id es) where
  leads := fun e he => (mem_pushEdge he).elim And.right (h.leads e)
  ascending := by
    have hes := h.ascending
    induction es with
    | nil => exact List.pairwise_singleton _ _
    | cons e es ih =>
        obtain ⟨he, hrest⟩ := List.pairwise_cons.mp hes
        have htail : Tidy es := ⟨hrest, fun f hf => h.leads f (List.mem_cons_of_mem e hf)⟩
        unfold Tree.pushEdge
        split
        · rename_i heq
          exact List.pairwise_cons.mpr ⟨fun f hf => heq ▸ he f hf, hrest⟩
        · rename_i hne
          split
          · rename_i hlt
            refine List.pairwise_cons.mpr ⟨fun f hf => ?_, ih htail hrest⟩
            rcases mem_pushEdge hf with ⟨heq, -⟩ | hf
            · rwa [heq]
            · exact he f hf
          · rename_i hnot
            -- the outcome is another one than that of the first edge, so it comes before
            have hlt : o.rank < e.1.rank :=
              Nat.lt_of_le_of_ne (Nat.le_of_not_lt hnot) fun heq =>
                hne (Outcome.rank_injective heq).symm
            refine List.pairwise_cons.mpr ⟨fun f hf => ?_, hes⟩
            rcases List.mem_cons.mp hf with rfl | hf
            · exact hlt
            · exact Nat.lt_trans hlt (he f hf)

theorem listUnder_pushEdge {es : EdgeLists} (h : es.Pairwise fun e f => e.1.rank < f.1.rank)
    (o : Outcome) (id : NodeId) (o' : Outcome) :
    listUnder (pushEdge o id es) o' = listUnder es o' ++ if o' = o then [id] else [] := by
  induction es with
  | nil => by_cases ho : o' = o <;> simp [pushEdge, listUnder, ho, eq_comm]
  | cons e es ih =>
      obtain ⟨he, hrest⟩ := List.pairwise_cons.mp h
      unfold pushEdge
      split
      · rename_i heq
        by_cases ho : o' = o
        · simp [listUnder_cons, heq, ho]
        · simp [listUnder_cons, heq, Ne.symm ho, ho]
      · rename_i hne
        split
        · rw [listUnder_cons, listUnder_cons, ih hrest]
          by_cases ho : e.1 = o'
          · have hother : o' ≠ o := fun heq => hne (ho.trans heq)
            simp [ho, hother]
          · simp [ho]
        · rename_i hnot
          by_cases ho : o' = o
          · subst ho
            have hlate : ∀ f ∈ e :: es, f.1 ≠ o' := by
              intro f hf heq
              rcases List.mem_cons.mp hf with rfl | hf
              · exact hne heq
              · exact hnot (heq ▸ he f hf)
            rw [listUnder_cons, if_pos rfl, listUnder_eq_nil hlate, if_pos rfl, List.nil_append]
          · rw [listUnder_cons, if_neg (Ne.symm ho), if_neg ho, List.append_nil]

theorem tidy_dropEdge {es : EdgeLists} (h : es.Pairwise fun e f => e.1.rank < f.1.rank)
    (id : NodeId) : Tidy (dropEdge id es) where
  ascending := List.Pairwise.filter _ (List.pairwise_map.mpr h)
  leads := fun e he => by simpa using (List.mem_filter.mp he).2

theorem listUnder_leading (es : EdgeLists) (h : es.Pairwise fun e f => e.1.rank < f.1.rank)
    (o : Outcome) : listUnder (leading es) o = listUnder es o := by
  induction es with
  | nil => rfl
  | cons e es ih =>
      obtain ⟨he, hrest⟩ := List.pairwise_cons.mp h
      have hlead : leading (e :: es) = if e.2.isEmpty then leading es else e :: leading es := by
        cases hempty : e.2.isEmpty <;> simp [leading, hempty]
      rw [hlead, listUnder_cons]
      split
      · rename_i hempty
        rw [ih hrest]
        split
        · rename_i heq
          -- nothing else stands under the outcome of an edge
          rw [listUnder_eq_nil fun f hf hfo => Nat.ne_of_lt (he f hf) (by rw [hfo, heq])]
          exact (List.isEmpty_iff.mp hempty).symm
        · rfl
      · rw [listUnder_cons, ih hrest]

theorem listUnder_dropEdge {es : EdgeLists} (h : es.Pairwise fun e f => e.1.rank < f.1.rank)
    (id : NodeId) (o : Outcome) :
    listUnder (dropEdge id es) o = (listUnder es o).filter (· ≠ id) := by
  have hkept : (es.map fun e => (e.1, e.2.filter (· ≠ id))).Pairwise
      fun e f => e.1.rank < f.1.rank := List.pairwise_map.mpr h
  rw [dropEdge, listUnder_leading _ hkept]
  clear h hkept
  induction es with
  | nil => rfl
  | cons e es ih =>
      rw [List.map_cons, listUnder_cons, listUnder_cons, ih]
      split <;> rfl

/-! ### The edges of a tree -/

theorem tidy_gather {bs : List (Outcome × NodeId)}
    (h : bs.Pairwise fun a b => a.1.rank ≤ b.1.rank) : Tidy (gather bs) where
  ascending := pairwise_gather h
  leads := fun _ he => ids_ne_nil_of_mem_gather he

theorem listUnder_gather {bs : List (Outcome × NodeId)}
    (h : bs.Pairwise fun a b => a.1.rank ≤ b.1.rank) (o : Outcome) :
    listUnder (gather bs) o = (bs.filter fun b => b.1 = o).map (·.2) := by
  by_cases hmem : ∃ e ∈ gather bs, e.1 = o
  · obtain ⟨e, he, rfl⟩ := hmem
    rw [listUnder_of_mem (pairwise_gather h) he, ids_of_mem_gather h he]
  · have hnone : (bs.filter fun b => b.1 = o) = [] := by
      refine List.filter_eq_nil_iff.mpr fun b hb => ?_
      obtain ⟨e, he, heq⟩ := exists_edge_of_mem hb
      simp only [decide_eq_true_eq]
      exact fun ho => hmem ⟨e, he, heq.trans ho⟩
    rw [hnone, listUnder_eq_nil fun e he ho => hmem ⟨e, he, ho⟩]
    rfl

end Tree

namespace Arena

open Spellwork.Tree

/-! ## What tells an arena -/

/-- The ids that stand in a place. -/
def listing (a : Arena) : Slot → List NodeId
  | none => a.roots
  | some (p, o) => a.childrenOf p o

/-- What goes out from an effect is in order, and where nothing goes out nothing is kept. -/
def Trim (a : Arena) : Prop :=
  ∀ p es, a.edges.lookup p = some es → es ≠ [] ∧ Tidy es

theorem Trim.tidy {a : Arena} (h : a.Trim) (p : NodeId) : Tidy (a.edgesOf p) := by
  unfold edgesOf
  cases hes : a.edges.lookup p with
  | none => exact tidy_nil
  | some es => exact (h p es hes).2

/-- With edges in order an arena is told by the records of its ids and by what stands in its
places. -/
theorem eq_of_looks {a b : Arena} (ha : a.Trim) (hb : b.Trim) (hget : ∀ id, a.get? id = b.get? id)
    (hlist : ∀ s, a.listing s = b.listing s) : a = b := by
  have hnodes : a.nodes = b.nodes := Finmap.ext_lookup hget
  have hroots : a.roots = b.roots := hlist none
  have hof : ∀ p, a.edgesOf p = b.edgesOf p := fun p =>
    (ha.tidy p).ext (hb.tidy p) fun o => hlist (some (p, o))
  have hedges : a.edges = b.edges := by
    refine Finmap.ext_lookup fun p => ?_
    have hp := hof p
    unfold edgesOf at hp
    cases hes : a.edges.lookup p with
    | none =>
        cases hfs : b.edges.lookup p with
        | none => rfl
        | some fs =>
            rw [hes, hfs] at hp
            exact absurd hp.symm (hb p fs hfs).1
    | some es =>
        cases hfs : b.edges.lookup p with
        | none =>
            rw [hes, hfs] at hp
            exact absurd hp (ha p es hes).1
        | some fs =>
            rw [hes, hfs] at hp
            exact congrArg some hp
  cases a
  cases b
  simp_all

/-! ### What a write leaves to be looked up -/

theorem get?_store (a : Arena) (id : NodeId) (r : Record) (x : NodeId) :
    (a.store id r).get? x = if x = id then some r else a.get? x := by
  unfold get? store
  by_cases hx : x = id
  · subst hx
    simp
  · simp [hx, Finmap.lookup_insert_of_ne]

@[simp] theorem listing_store (a : Arena) (id : NodeId) (r : Record) (s : Slot) :
    (a.store id r).listing s = a.listing s := by
  cases s <;> rfl

theorem Trim.store {a : Arena} (h : a.Trim) (id : NodeId) (r : Record) : (a.store id r).Trim := h

theorem edgesOf_pushChild (a : Arena) (p : NodeId) (o : Outcome) (id x : NodeId) :
    (a.pushChild p o id).edgesOf x =
      if x = p then pushEdge o id (a.edgesOf p) else a.edgesOf x := by
  unfold edgesOf pushChild
  by_cases hx : x = p
  · subst hx
    simp [edgesOf]
  · simp [hx, Finmap.lookup_insert_of_ne]

@[simp] theorem get?_enlist (a : Arena) (slot : Slot) (id x : NodeId) :
    (a.enlist slot id).get? x = a.get? x := by
  cases slot <;> rfl

/-- An id is listed last in its place, and the other places are as they were. -/
theorem Trim.listing_enlist {a : Arena} (h : a.Trim) (slot : Slot) (id : NodeId) (s : Slot) :
    (a.enlist slot id).listing s = a.listing s ++ if s = slot then [id] else [] := by
  rcases slot with _ | ⟨p, o⟩ <;> rcases s with _ | ⟨q, o'⟩
  · simp [enlist, listing, pushRoot]
  · simp [enlist, listing, pushRoot, childrenOf, edgesOf]
  · simp [enlist, listing, pushChild]
  · simp only [enlist, listing, childrenOf, edgesOf_pushChild]
    by_cases hq : q = p
    · subst hq
      simp [listUnder_pushEdge (h.tidy q).ascending]
    · simp [hq]

theorem Trim.enlist {a : Arena} (h : a.Trim) (slot : Slot) (id : NodeId) :
    (a.enlist slot id).Trim := by
  rcases slot with _ | ⟨p, o⟩
  · exact h
  · intro q es hes
    by_cases hq : q = p
    · subst hq
      rw [Arena.enlist, pushChild, Finmap.lookup_insert] at hes
      cases hes
      exact ⟨pushEdge_ne_nil o id _, (h.tidy q).pushEdge o id⟩
    · rw [Arena.enlist, pushChild, Finmap.lookup_insert_of_ne _ hq] at hes
      exact h q es hes

/-! ## The arena of a tree -/

/-- The arena that holds a tree. -/
def ofTree (t : Tree) : Arena where
  nodes := (t.records.map fun r => (⟨r.id, r⟩ : Sigma fun _ : NodeId => Record)).toFinmap
  edges := (t.ids.filterMap fun id => (t.edges? id).map fun es =>
    (⟨id, es⟩ : Sigma fun _ : NodeId => EdgeLists)).toFinmap
  roots := t.roots

theorem dlookup_records (rs : List Record) (id : NodeId) :
    List.dlookup id (rs.map fun r => (⟨r.id, r⟩ : Sigma fun _ : NodeId => Record)) =
      rs.find? fun r => r.id = id := by
  induction rs with
  | nil => rfl
  | cons r rs ih =>
      by_cases hid : r.id = id
      · subst hid
        simp
      · rw [List.map_cons, List.dlookup_cons_ne _ _ (Ne.symm hid), ih]
        simp [hid]

@[simp] theorem get?_ofTree (t : Tree) (id : NodeId) : (ofTree t).get? id = t.get? id := by
  rw [get?, ofTree, Finmap.dlookup_list_toFinmap, dlookup_records]
  rfl

@[simp] theorem contains_ofTree (t : Tree) (id : NodeId) :
    (ofTree t).contains id = t.contains id :=
  congrArg Option.isSome (get?_ofTree t id)

theorem dlookup_filterMap {β : Type u} (f : NodeId → Option β) (ids : List NodeId) (id : NodeId) :
    List.dlookup id (ids.filterMap fun i => (f i).map fun b =>
      (⟨i, b⟩ : Sigma fun _ : NodeId => β)) = if id ∈ ids then f id else none := by
  induction ids with
  | nil => rfl
  | cons i ids ih =>
      rw [List.filterMap_cons]
      by_cases hid : id = i
      · subst hid
        cases hf : f id with
        | none => simp [ih, hf]
        | some b => simp
      · cases f i with
        | none => simp [ih, hid]
        | some b => simp [List.dlookup_cons_ne, ih, hid]

theorem lookup_edges_ofTree {t : Tree} (hnd : t.ids.Nodup) (id : NodeId) :
    (ofTree t).edges.lookup id = t.edges? id := by
  rw [ofTree, Finmap.dlookup_list_toFinmap, dlookup_filterMap]
  split
  · rfl
  · rename_i hid
    have hnone : (t.records.filter fun r => r.parent = some id) = [] :=
      filter_recordsBelow_of_not_mem (by simp) hid
    have hbranches : t.branches id = [] := by rw [branches_eq hnd, hnone]; rfl
    exact (edges?_eq_none_iff.mpr hbranches).symm

end Arena

namespace Tree

open Spellwork.Arena

namespace Valid

variable {t : Tree} (h : Valid t)

include h

theorem edgesOf_ofTree (p : NodeId) : (ofTree t).edgesOf p = gather (t.branches p) := by
  rw [edgesOf, lookup_edges_ofTree h.ids_nodup, getD_edges?]

theorem trim_ofTree : (ofTree t).Trim := by
  intro p es hes
  rw [lookup_edges_ofTree h.ids_nodup] at hes
  obtain ⟨rfl, hne⟩ := edges?_eq_some_iff.mp hes
  exact ⟨hne, tidy_gather (h.pairwise_branches p)⟩

/-- A place lists in the arena what it lists in the tree. -/
theorem listing_ofTree (s : Slot) : (ofTree t).listing s = t.listing s := by
  rcases s with _ | ⟨p, o⟩
  · rfl
  · rw [Arena.listing, Arena.childrenOf, h.edgesOf_ofTree, listUnder_gather (h.pairwise_branches p)]
    rfl

/-- An arena in order that tells what a tree tells is the arena of that tree. -/
theorem eq_ofTree {a : Arena} (ha : a.Trim) (hget : ∀ id, a.get? id = t.get? id)
    (hlist : ∀ s, a.listing s = t.listing s) : a = ofTree t :=
  eq_of_looks ha h.trim_ofTree (fun id => (hget id).trans (get?_ofTree t id).symm)
    fun s => (hlist s).trans (h.listing_ofTree s).symm

/-! ### Walks -/

theorem card_keys_ofTree : (ofTree t).nodes.keys.card = t.size := by
  have hkeys : (ofTree t).nodes.keys = t.ids.toFinset := by
    ext id
    rw [Finmap.mem_keys, ← Finmap.lookup_isSome, List.mem_toFinset, ← contains_iff, Tree.contains,
      ← get?_ofTree]
    rfl
  rw [hkeys, List.toFinset_card_of_nodup h.ids_nodup, Tree.ids, List.length_map,
    Forest.length_labels]

theorem preorder_ofTree : (ofTree t).preorder = t.preorder := by
  have hnext : (ofTree t).successors = t.successors := by
    funext p
    rw [Arena.successors, h.edgesOf_ofTree, (tidy_gather (h.pairwise_branches p)).leading_eq,
      Tree.successors, getD_edges?]
  rw [Arena.preorder, hnext, h.card_keys_ofTree]
  rfl

theorem inPreorder_ofTree : (ofTree t).inPreorder = t.records := by
  have hget : (ofTree t).get? = t.get? := funext (get?_ofTree t)
  rw [Arena.inPreorder, h.preorder_ofTree, hget, h.filterMap_get?_preorder]

/-- An arena and its tree are stored alike. -/
theorem flatten_ofTree : (ofTree t).flatten = t.flatten := by
  rw [Arena.flatten, h.inPreorder_ofTree]
  rfl

theorem findEffect?_ofTree (p : Effect → Bool) : (ofTree t).findEffect? p = t.findEffect? p := by
  rw [Arena.findEffect?, h.inPreorder_ofTree]
  rfl

end Valid

end Tree

end Spellwork
