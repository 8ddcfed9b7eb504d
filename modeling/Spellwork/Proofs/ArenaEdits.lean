import Spellwork.Proofs.ArenaLookups
import Spellwork.Proofs.Changes
import Spellwork.Proofs.Commutation

/-!
# Edits of an arena

What an edit does to a tree can be said by what it leaves to be looked up: the record of every id
and the ids in every place. The edits of the arena that holds the tree are told by the same
look-ups, so each of them gives the arena of the edited tree, or fails with the same error
(`Tree.Valid.insert_ofTree`, `Tree.Valid.update_ofTree`, `Tree.Valid.delete_ofTree`). This is where
header and lists are seen to be kept in step: an edit of the arena writes both.
-/

namespace Spellwork

namespace Tree

open Forest

/-! ## What an edit of a tree leaves to be looked up -/

theorem childrenOf_of_mem_subtrees {t : Tree} (hnd : t.ids.Nodup) {s : Node × Tree}
    (hs : s ∈ t.subtrees) (o : Outcome) :
    t.childrenOf s.1.id o = (s.2.rootLabels.filter fun n => n.outcome = some o).map Node.id := by
  rw [childrenOf_eq hnd, Record.filter_place, ← map_record_rootLabels hnd hs, List.filter_map,
    List.map_map]
  rfl

theorem mem_subtrees_placeBelow_parent {t : Tree} (hnd : t.ids.Nodup) {s : Node × Tree}
    (hs : s ∈ t.subtrees) (n : Node) :
    (s.1, placeAmong n s.2) ∈ (placeBelow s.1.id n t).subtrees := by
  induction t with
  | nil => cases hs
  | node m c r ihc ihr =>
      obtain ⟨hmc, hmr, hndc, hndr, -⟩ := nodup_ids_node hnd
      unfold placeBelow
      simp only [subtrees_node, List.mem_cons, List.mem_append] at hs
      rcases hs with rfl | hs | hs
      · simp
      · have hne : m.id ≠ s.1.id := fun heq => hmc (heq ▸ id_mem_ids_of_mem_subtrees hs)
        simp [hne, ihc hndc hs]
      · have hne : m.id ≠ s.1.id := fun heq => hmr (heq ▸ id_mem_ids_of_mem_subtrees hs)
        simp [hne, ihr hndr hs]

namespace Valid

variable {t t' : Tree} (h : Valid t)

include h

/-- An insertion adds the record of the new id. -/
theorem get?_inserted {slot : Slot} {id : NodeId} {e : Effect} (hok : t.insert slot id e = .ok t')
    (x : NodeId) :
    t'.get? x =
      if x = id then some ⟨id, slot.map Prod.fst, slot.map Prod.snd, e⟩ else t.get? x := by
  by_cases hx : x = id
  · obtain ⟨before, within, after, -, hrecords, -⟩ := h.exists_insert_block hok
    rw [if_pos hx, hx, get?_eq_some_iff (h.insert hok).ids_nodup, hrecords]
    simp
  · rw [if_neg hx, h.get?_insert hok hx]

/-- An insertion lists the new id last in its place and changes no other place. -/
theorem listing_insert {slot : Slot} {id : NodeId} {e : Effect} (hok : t.insert slot id e = .ok t')
    (s : Slot) : t'.listing s = t.listing s ++ if s = slot then [id] else [] := by
  by_cases hs : s = slot
  · subst hs
    rw [if_pos rfl]
    have h' := h.insert hok
    rcases insert_cases hok with ⟨rfl, -, -, rfl⟩ | ⟨p, o, r, rfl, -, hr, -, -, rfl⟩
    · simp [listing, Tree.roots, leaf]
    · obtain ⟨c, hc, rfl⟩ := exists_subtree_of_id (mem_ids_of_get? hr)
      have hplaced := mem_subtrees_placeBelow_parent h.ids_nodup hc ⟨id, some o, e⟩
      rw [listing, listing, childrenOf_of_mem_subtrees h'.ids_nodup hplaced,
        childrenOf_of_mem_subtrees h.ids_nodup hc, rootLabels_placeAmong,
        filter_placeBy (h.ordered c hc), if_pos rfl, List.map_append]
      rfl
  · obtain ⟨before, within, after, hrecords, hinserted, -⟩ := h.exists_insert_block hok
    have hslot : (⟨id, slot.map Prod.fst, slot.map Prod.snd, e⟩ : Record).slot? = some slot := by
      cases slot <;> rfl
    rw [if_neg hs, List.append_nil, listing_eq (h.insert hok).ids_nodup, listing_eq h.ids_nodup,
      hrecords, hinserted, List.filter_append,
      List.filter_cons_of_neg (by simpa [hslot] using Ne.symm hs), ← List.filter_append]

omit h in
theorem get?_adjust (t : Tree) (id : NodeId) (change : Effect → Effect) (x : NodeId) :
    (t.adjust id change).get? x =
      (t.get? x).map fun r => if x = id then { r with effect := change r.effect } else r := by
  rw [get?, get?, adjust_eq_map, records, recordsBelow_map (id_adjustNode id change), ← records]
  induction t.records with
  | nil => rfl
  | cons r rs ih =>
      by_cases hr : r.id = x
      · subst hr
        by_cases hid : r.id = id <;> simp [Node.record, Record.node, adjustNode, hid]
      · simpa [Node.record, hr] using ih

theorem listing_adjust (id : NodeId) (change : Effect → Effect) (s : Slot) :
    (t.adjust id change).listing s = t.listing s := by
  rcases s with _ | ⟨p, o⟩
  · simp [listing, Tree.roots, adjust_eq_map, Function.comp_def]
  · rw [listing, listing, childrenOf, branches_adjust h.ids_nodup, childrenOf]

section Removal

variable {c : Node × Tree} (hc : c ∈ t.subtrees)

include hc

/-- What goes with an effect is, beside the effect, what names as its parent something that goes. -/
theorem mem_gone_iff {r : Record} (hr : r ∈ t.records) :
    r.id ∈ c.1.id :: c.2.ids ↔
      r.id = c.1.id ∨ ∃ p, r.parent = some p ∧ p ∈ c.1.id :: c.2.ids := by
  constructor
  · intro hmem
    rcases List.mem_cons.mp hmem with hid | hid
    · exact Or.inl hid
    · rw [← map_id_recordsBelow (some c.1.id)] at hid
      obtain ⟨r', hr', hid⟩ := List.mem_map.mp hid
      rw [← Record.eq_of_id h.record_ids_nodup (recordsBelow_subset hc hr') hr hid]
      rcases mem_recordsBelow_iff.mp hr' with ⟨hp, -⟩ | ⟨x, hx, hp, -⟩
      · exact Or.inr ⟨_, hp, List.mem_cons_self⟩
      · exact Or.inr ⟨_, hp, List.mem_cons_of_mem _ (id_mem_ids_of_mem_subtrees hx)⟩
  · rintro (hid | ⟨p, hp, hmem⟩)
    · exact hid ▸ List.mem_cons_self
    · exact List.mem_cons_of_mem _ (mem_ids_of_parent h.ids_nodup hc hr hp hmem)

theorem mem_gone_of_listing_iff {s : Slot} {x : NodeId} (hx : x ∈ t.listing s) :
    x ∈ c.1.id :: c.2.ids ↔
      x = c.1.id ∨ ∃ p, s.map Prod.fst = some p ∧ p ∈ c.1.id :: c.2.ids := by
  obtain ⟨r, hr, hmem, hslot⟩ := h.exists_record_of_listing hx
  have hparent : r.parent = s.map Prod.fst := by
    rcases s with _ | ⟨p, o⟩
    · exact Record.slot?_eq_root_iff.mp hslot
    · exact (Record.slot?_eq_below_iff.mp hslot).1
  obtain rfl := ((get?_eq_some_iff h.ids_nodup).mp hr).2
  rw [h.mem_gone_iff hc hmem, hparent]

theorem get?_deleted (hok : t.delete c.1.id = .ok t') (x : NodeId) :
    t'.get? x = if x ∈ c.1.id :: c.2.ids then none else t.get? x := by
  split
  · rename_i hx
    rw [get?, records_delete h hc hok, List.find?_eq_none]
    intro r hr
    have hkept := (List.mem_filter.mp hr).2
    simp only [decide_eq_true_eq]
    rintro rfl
    rw [List.contains_iff_mem.mpr hx] at hkept
    cases hkept
  · rename_i hx
    exact h.get?_delete hc hok hx

/-- A removal takes off every list what goes. -/
theorem listing_delete (hok : t.delete c.1.id = .ok t') (s : Slot) :
    t'.listing s = (t.listing s).filter fun x => !(c.1.id :: c.2.ids).contains x := by
  rw [listing_eq (h.delete hok).ids_nodup, listing_eq h.ids_nodup, records_delete h hc hok,
    List.filter_filter, List.filter_map, List.filter_filter]
  congr 2
  funext r
  exact Bool.and_comm _ _

end Removal

end Valid

end Tree

namespace Arena

open Spellwork.Tree

/-! ## Attaching -/

theorem run_attach (slot : Slot) (id : NodeId) (e : Effect) (a : Arena) :
    (attach slot id e).run a =
      match a.verdict slot id e with
      | .error err => (.error err, a)
      | .ok () =>
        (.ok (), (a.enlist slot id).store id ⟨id, slot.map Prod.fst, slot.map Prod.snd, e⟩) := by
  show (liftExcept (a.verdict slot id e) >>= fun _ => modify (enlist slot id) >>= fun _ =>
    modify (store id ⟨id, slot.map Prod.fst, slot.map Prod.snd, e⟩) :
      ExceptT EditError (StateM Arena) Unit).run a = _
  cases a.verdict slot id e <;> rfl

/-- Attaching in vain writes nothing. -/
theorem attach_eq_of_error {slot : Slot} {id : NodeId} {e : Effect} {a : Arena} {err : EditError}
    (h : ((attach slot id e).run a).1 = .error err) : ((attach slot id e).run a).2 = a := by
  rw [run_attach] at h ⊢
  cases hv : a.verdict slot id e with
  | error err' => rfl
  | ok u =>
      rw [hv] at h
      cases h

theorem insert_eq (slot : Slot) (id : NodeId) (e : Effect) (a : Arena) :
    a.insert slot id e = (a.verdict slot id e).map fun _ =>
      (a.enlist slot id).store id ⟨id, slot.map Prod.fst, slot.map Prod.snd, e⟩ := by
  unfold insert
  rw [run_attach]
  cases a.verdict slot id e <;> rfl

/-! ## Taking away -/

theorem Trim.edgesOf_dropChild {a : Arena} (h : a.Trim) (p id x : NodeId) :
    (a.dropChild p id).edgesOf x = if x = p then dropEdge id (a.edgesOf p) else a.edgesOf x := by
  have htidy := tidy_dropEdge (h.tidy p).ascending id
  unfold dropChild
  cases hes : a.edges.lookup p with
  | none =>
      by_cases hx : x = p
      · subst hx
        simp [edgesOf, hes, dropEdge, leading]
      · simp [hx]
  | some es =>
      have hof : a.edgesOf p = es := by simp [edgesOf, hes]
      rw [hof] at htidy
      by_cases hx : x = p
      · subst hx
        rw [if_pos rfl, hof]
        by_cases hempty : dropEdge id es = []
        · simp [edgesOf, hempty, leading]
        · simp [edgesOf, htidy.leading_eq, hempty]
      · rw [if_neg hx]
        unfold edgesOf
        dsimp only
        split
        · rw [Finmap.lookup_erase_ne hx]
        · rw [Finmap.lookup_insert_of_ne _ hx]

theorem Trim.dropChild {a : Arena} (h : a.Trim) (p id : NodeId) : (a.dropChild p id).Trim := by
  intro x es hes
  unfold Arena.dropChild at hes
  cases hp : a.edges.lookup p with
  | none =>
      rw [hp] at hes
      exact h x es hes
  | some fs =>
      have htidy := tidy_dropEdge (h p fs hp).2.ascending id
      rw [hp] at hes
      dsimp only at hes
      split at hes
      · by_cases hx : x = p
        · rw [hx, Finmap.lookup_erase] at hes
          cases hes
        · rw [Finmap.lookup_erase_ne hx] at hes
          exact h x es hes
      · rename_i hne
        by_cases hx : x = p
        · rw [hx, Finmap.lookup_insert] at hes
          cases hes
          rw [htidy.leading_eq, List.isEmpty_iff] at hne
          exact ⟨hne, htidy⟩
        · rw [Finmap.lookup_insert_of_ne _ hx] at hes
          exact h x es hes

theorem Trim.delist {a : Arena} (h : a.Trim) (parent : Option NodeId) (id : NodeId) :
    (a.delist parent id).Trim := by
  cases parent with
  | none => exact h
  | some p => exact h.dropChild p id

theorem get?_delist (a : Arena) (parent : Option NodeId) (id x : NodeId) :
    (a.delist parent id).get? x = a.get? x := by
  cases parent with
  | none => rfl
  | some p =>
      unfold delist dropChild
      dsimp only
      cases a.edges.lookup p <;> rfl

/-- An id that is listed nowhere but below its parent, or among the roots, is on no list any
more. -/
theorem Trim.listing_delist {a : Arena} (h : a.Trim) {parent : Option NodeId} {id : NodeId}
    (hid : ∀ s, id ∈ a.listing s → s.map Prod.fst = parent) (s : Slot) :
    (a.delist parent id).listing s = (a.listing s).filter (· ≠ id) := by
  have hother : s.map Prod.fst ≠ parent → (a.listing s).filter (· ≠ id) = a.listing s :=
    fun hne => List.filter_eq_self.mpr fun x hx => by
      simp only [decide_eq_true_eq]
      rintro rfl
      exact hne (hid s hx)
  cases parent with
  | none =>
      cases s with
      | none => rfl
      | some place => exact (hother (by simp)).symm
  | some p =>
      rcases s with _ | ⟨q, o⟩
      · rw [hother (by simp)]
        unfold Arena.delist Arena.dropChild
        dsimp only
        cases a.edges.lookup p <;> rfl
      · rw [Arena.delist, listing, childrenOf, h.edgesOf_dropChild]
        by_cases hq : q = p
        · rw [if_pos hq, listUnder_dropEdge (h.tidy p).ascending, hq]
          rfl
        · rw [if_neg hq, hother (by simpa using hq)]
          rfl

theorem lookup_foldl_erase {β : Type u} (ids : List NodeId) (m : Finmap fun _ : NodeId => β)
    (x : NodeId) :
    (ids.foldl (fun m id => m.erase id) m).lookup x = if x ∈ ids then none else m.lookup x := by
  induction ids generalizing m with
  | nil => rfl
  | cons id ids ih =>
      rw [List.foldl_cons, ih]
      by_cases hx : x = id
      · subst hx
        simp
      · simp [hx, Finmap.lookup_erase_ne]

theorem get?_forget (a : Arena) (ids : List NodeId) (x : NodeId) :
    (a.forget ids).get? x = if x ∈ ids then none else a.get? x :=
  lookup_foldl_erase ids a.nodes x

theorem Trim.forget {a : Arena} (h : a.Trim) (ids : List NodeId) : (a.forget ids).Trim := by
  intro p es hes
  rw [Arena.forget, lookup_foldl_erase] at hes
  split at hes
  · cases hes
  · exact h p es hes

theorem listing_forget (a : Arena) (ids : List NodeId) (s : Slot) :
    (a.forget ids).listing s =
      if ∃ p, s.map Prod.fst = some p ∧ p ∈ ids then [] else a.listing s := by
  rcases s with _ | ⟨p, o⟩
  · simp [listing, forget]
  · by_cases hp : p ∈ ids
    · simp [listing, childrenOf, edgesOf, forget, lookup_foldl_erase, hp, listUnder]
    · simp [listing, childrenOf, edgesOf, forget, lookup_foldl_erase, hp]

end Arena

namespace Tree

namespace Valid

open Spellwork.Arena

variable {t : Tree} (h : Valid t)

include h

/-! ## Insertion -/

omit h in
theorem verdict_ofTree (t : Tree) (slot : Slot) (id : NodeId) (e : Effect) :
    (ofTree t).verdict slot id e = (t.attach slot id e).1 := by
  unfold verdict Tree.attach
  rw [contains_ofTree]
  cases t.contains id with
  | true => rfl
  | false =>
      rcases slot with _ | ⟨p, o⟩
      · cases e.isDamageOutcome <;> rfl
      · simp only [allows, get?_ofTree]
        cases checkEdge ((t.get? p).map Record.effect) p o id e <;> rfl

/-- The new id is listed in the place that its header names. -/
theorem enlist_ofTree {t' : Tree} {slot : Slot} {id : NodeId} {e : Effect}
    (hok : t.insert slot id e = .ok t') :
    ((ofTree t).enlist slot id).store id ⟨id, slot.map Prod.fst, slot.map Prod.snd, e⟩ =
      ofTree t' := by
  refine (h.insert hok).eq_ofTree ((h.trim_ofTree.enlist slot id).store id _) (fun x => ?_)
    fun s => ?_
  · rw [get?_store, get?_enlist, get?_ofTree, h.get?_inserted hok]
  · rw [listing_store, h.trim_ofTree.listing_enlist, h.listing_ofTree, h.listing_insert hok]

theorem insert_ofTree (slot : Slot) (id : NodeId) (e : Effect) :
    (ofTree t).insert slot id e = (t.insert slot id e).map ofTree := by
  rw [Arena.insert_eq, verdict_ofTree, Tree.insert_eq]
  cases hv : (t.attach slot id e).1 with
  | error err => rfl
  | ok u => exact congrArg Except.ok (h.enlist_ofTree (insert_eq_ok_iff_put.mpr ⟨hv, rfl⟩))

theorem attach_ofTree (slot : Slot) (id : NodeId) (e : Effect) :
    (Arena.attach slot id e).run (ofTree t) =
      ((t.attach slot id e).1, ofTree (t.attach slot id e).2) := by
  rw [run_attach, verdict_ofTree]
  cases hv : (t.attach slot id e).1 with
  | error err => rw [Tree.attach_eq_of_error hv]
  | ok u =>
      have hok : t.insert slot id e = .ok (t.attach slot id e).2 :=
        insert_eq_ok_iff.mpr (Prod.ext hv rfl)
      rw [h.enlist_ofTree hok]

/-! ## Change -/

theorem adjust_ofTree {id : NodeId} {change : Effect → Effect} (h' : Valid (t.adjust id change)) :
    (ofTree t).adjust id change = ofTree (t.adjust id change) := by
  refine h'.eq_ofTree ?_ (fun x => ?_) fun s => ?_
  · unfold Arena.adjust
    cases (ofTree t).get? id <;> exact h.trim_ofTree
  · rw [get?_adjust, Arena.adjust, get?_ofTree]
    cases hr : t.get? id with
    | none =>
        by_cases hx : x = id
        · simp [hx, hr]
        · simp [hx]
    | some r =>
        by_cases hx : x = id
        · simp [hx, hr, get?_store]
        · simp [hx, get?_store]
  · rw [h.listing_adjust, ← h.listing_ofTree]
    unfold Arena.adjust
    cases (ofTree t).get? id <;> simp

theorem update_ofTree (id : NodeId) (change : Effect → Effect) :
    (ofTree t).update id change = (t.update id change).map ofTree := by
  unfold Arena.update
  rw [get?_ofTree]
  cases hr : t.get? id with
  | none => simp [Tree.update, hr, Except.map]
  | some r =>
      have hid : ({ r with id } : Record) = r := by
        rw [← ((get?_eq_some_iff h.ids_nodup).mp hr).2]
      have hedges : leading ((ofTree t).edgesOf id) = (t.edges? id).getD [] := by
        rw [h.edgesOf_ofTree, (tidy_gather (h.pairwise_branches id)).leading_eq, getD_edges?]
      dsimp only
      rw [hid, hedges]
      cases hcheck : checkChange r ((t.edges? id).getD []) (change r.effect) with
      | error e => simp [Tree.update, hr, hcheck, Except.map]
      | ok u =>
          have hok : t.update id change = .ok (t.adjust id change) :=
            update_eq_ok_iff.mpr ⟨r, hr, hcheck, rfl⟩
          rw [hok]
          exact congrArg Except.ok (h.adjust_ofTree (h.update hok))

/-! ## Removal -/

theorem delete_ofTree (id : NodeId) :
    (ofTree t).delete id = (t.delete id).map ofTree := by
  unfold Arena.delete
  rw [get?_ofTree]
  cases hr : t.get? id with
  | none =>
      have habsent : t.contains id = false := by rw [contains, hr]; rfl
      rw [delete_eq_error_iff.mpr ⟨habsent, rfl⟩]
      rfl
  | some r =>
      obtain ⟨c, hc, rfl⟩ := exists_subtree_of_id (mem_ids_of_get? hr)
      obtain ⟨t', hok⟩ : ∃ t', t.delete c.1.id = .ok t' :=
        ⟨_, delete_eq_ok_iff.mpr ⟨id_mem_ids_of_mem_subtrees hc, rfl⟩⟩
      -- the header of the effect names the one place that lists it
      have hplace : ∀ s, c.1.id ∈ (ofTree t).listing s → s.map Prod.fst = r.parent := by
        intro s hs
        rw [h.listing_ofTree, mem_listing_iff h hr] at hs
        rcases s with _ | ⟨p, o⟩
        · exact (Record.slot?_eq_root_iff.mp hs).symm
        · exact (Record.slot?_eq_below_iff.mp hs).1.symm
      have htrim := h.trim_ofTree
      dsimp only
      rw [h.flatten_ofTree, doomed_flatten h hc, hok]
      refine congrArg Except.ok ((h.delete hok).eq_ofTree ((htrim.delist _ _).forget _)
        (fun x => ?_) fun s => ?_)
      · rw [get?_forget, get?_delist, get?_ofTree, h.get?_deleted hc hok]
      · rw [listing_forget, htrim.listing_delist hplace, h.listing_ofTree, h.listing_delete hc hok]
        split
        · rename_i hbelow
          refine (List.filter_eq_nil_iff.mpr fun x hx => ?_).symm
          rw [List.contains_iff_mem.mpr ((h.mem_gone_of_listing_iff hc hx).mpr (Or.inr hbelow))]
          exact Bool.false_ne_true
        · rename_i hbelow
          refine List.filter_congr fun x hx => ?_
          have hiff := h.mem_gone_of_listing_iff hc hx
          simp only [hbelow, or_false] at hiff
          by_cases hxid : x = c.1.id
          · simp [hxid]
          · have hnot : x ∉ c.1.id :: ids c.2 := fun hmem => hxid (hiff.mp hmem)
            simpa [hxid] using hnot

end Valid

end Tree

end Spellwork
