import Spellwork.Proofs.ArenaEdits

/-!
# Loading an arena

Loading goes over the records twice. The first pass writes them all and stops at an id that is
there already, and the second lists each of them in the place that it names and stops at the first
that may not stand there. After both passes a place lists the records that name it, in the order of
the list (`Arena.listing_linked`), so the walk over the edges is the walk over the records, and what
has come of it all is the arena of the tree that the records grow (`Tree.ofRecords?_ofTree`).
-/

namespace Spellwork

namespace Arena

open Spellwork.Tree

/-! ## The first pass -/

/-- The arena with records that are not listed yet. -/
def written (rs : List Record) : Arena where
  nodes := (rs.map fun r => (⟨r.id, r⟩ : Sigma fun _ : NodeId => Record)).toFinmap
  edges := ∅
  roots := []

@[simp] theorem get?_written (rs : List Record) (id : NodeId) :
    (written rs).get? id = rs.find? fun r => r.id = id := by
  rw [get?, written, Finmap.dlookup_list_toFinmap, dlookup_records]

theorem trim_written (rs : List Record) : (written rs).Trim := by
  intro p es hes
  simp [written] at hes

theorem listing_written (rs : List Record) (s : Slot) : (written rs).listing s = [] := by
  rcases s with _ | ⟨p, o⟩
  · rfl
  · simp [written, listing, childrenOf, edgesOf, listUnder]

theorem contains_written {rs : List Record} {id : NodeId} :
    (written rs).contains id = true ↔ id ∈ rs.map Record.id := by
  simp [contains]

theorem store_written {rs : List Record} {r : Record} (hfresh : r.id ∉ rs.map Record.id) :
    (written rs).store r.id r = written (rs ++ [r]) := by
  refine eq_of_looks ((trim_written rs).store r.id r) (trim_written _) (fun x => ?_) fun s => ?_
  · rw [get?_store, get?_written, get?_written, List.find?_append]
    by_cases hx : x = r.id
    · subst hx
      have hnone : (rs.find? fun q => q.id = r.id) = none :=
        List.find?_eq_none.mpr fun q hq => by
          simp only [decide_eq_true_eq]
          exact fun heq => hfresh (heq ▸ List.mem_map_of_mem hq)
      simp [hnone]
    · simp [hx, Ne.symm hx]
  · rw [listing_store, listing_written, listing_written]

/-- The first pass stops at the first id that stands a second time. -/
theorem foldlM_insertUnlinked {front rs : List Record} {seen : List NodeId}
    (hseen : ∀ id, seen.contains id = true ↔ id ∈ front.map Record.id) :
    rs.foldlM insertUnlinked (written front) =
      match repeatedId? seen rs with
      | some id => .error (.duplicateId id)
      | none => .ok (written (front ++ rs)) := by
  induction rs generalizing front seen with
  | nil => simp [repeatedId?, pure, Except.pure]
  | cons r rs ih =>
      rw [List.foldlM_cons, insertUnlinked, repeatedId?]
      by_cases hmem : r.id ∈ front.map Record.id
      · rw [if_pos (contains_written.mpr hmem), if_pos ((hseen r.id).mpr hmem)]
        rfl
      · have hnot : ¬ (written front).contains r.id = true := fun h => hmem (contains_written.mp h)
        have hseen' : ∀ id, (r.id :: seen).contains id = true ↔
            id ∈ (front ++ [r]).map Record.id := by
          intro id
          have hid := hseen id
          rw [List.contains_iff_mem] at hid ⊢
          rw [List.mem_cons, hid, List.map_append, List.mem_append, List.map_singleton,
            List.mem_singleton, or_comm]
        have hrest := ih hseen'
        rw [List.append_assoc] at hrest
        rw [if_neg hnot, if_neg fun h => hmem ((hseen r.id).mp h), store_written hmem]
        exact hrest

/-! ## The second pass -/

/-- Lists a record in the place that it names, if it names one. -/
def enlistRecord (a : Arena) (r : Record) : Arena :=
  match r.slot? with
  | some s => a.enlist s r.id
  | none => a

/-- The arena of records, each of them listed in the place that it names. -/
def linked (rs : List Record) : Arena :=
  rs.foldl enlistRecord (written rs)

@[simp] theorem get?_enlistRecord (a : Arena) (r : Record) (x : NodeId) :
    (a.enlistRecord r).get? x = a.get? x := by
  unfold enlistRecord
  split
  · exact get?_enlist a _ _ x
  · rfl

theorem Trim.enlistRecord {a : Arena} (h : a.Trim) (r : Record) : (a.enlistRecord r).Trim := by
  unfold Arena.enlistRecord
  split
  · exact h.enlist _ _
  · exact h

theorem get?_foldl_enlistRecord (rs : List Record) (a : Arena) (x : NodeId) :
    (rs.foldl enlistRecord a).get? x = a.get? x := by
  induction rs generalizing a with
  | nil => rfl
  | cons r rs ih => rw [List.foldl_cons, ih, get?_enlistRecord]

/-- Listing records one after the other puts behind what stands in a place those that name it. -/
theorem Trim.foldl_enlistRecord {a : Arena} (h : a.Trim) (rs : List Record) :
    (rs.foldl Arena.enlistRecord a).Trim ∧
      ∀ s, (rs.foldl Arena.enlistRecord a).listing s =
        a.listing s ++ (rs.filter fun r => r.slot? = some s).map Record.id := by
  induction rs generalizing a with
  | nil => exact ⟨h, fun s => (List.append_nil _).symm⟩
  | cons r rs ih =>
      obtain ⟨htrim, hlist⟩ := ih (h.enlistRecord r)
      refine ⟨htrim, fun s => (hlist s).trans ?_⟩
      unfold Arena.enlistRecord
      cases hslot : r.slot? with
      | none => simp [hslot]
      | some place =>
          simp only [h.listing_enlist]
          by_cases hs : s = place
          · simp [hs, hslot]
          · simp [hs, Ne.symm hs, hslot]

@[simp] theorem get?_linked (rs : List Record) (x : NodeId) :
    (linked rs).get? x = rs.find? fun r => r.id = x :=
  (get?_foldl_enlistRecord rs (written rs) x).trans (get?_written rs x)

theorem trim_linked (rs : List Record) : (linked rs).Trim :=
  ((trim_written rs).foldl_enlistRecord rs).1

/-- A place lists the records that name it. -/
theorem listing_linked (rs : List Record) (s : Slot) :
    (linked rs).listing s = (rs.filter fun r => r.slot? = some s).map Record.id := by
  rw [linked, ((trim_written rs).foldl_enlistRecord rs).2, listing_written, List.nil_append]

theorem listing_linked_root (rs : List Record) :
    (linked rs).listing none = (rs.filter fun r => r.parent.isNone).map Record.id := by
  rw [listing_linked]
  congr 2
  funext r
  rw [Bool.eq_iff_iff, decide_eq_true_eq, Record.slot?_eq_root_iff, Option.isNone_iff_eq_none]

theorem listing_linked_below (rs : List Record) (p : NodeId) (o : Outcome) :
    (linked rs).listing (some (p, o)) =
      (rs.filter fun r => r.parent = some p ∧ r.outcome = some o).map Record.id := by
  simp only [listing_linked, Record.slot?_eq_below_iff]

section Distinct

variable {rs : List Record} (hnd : (rs.map Record.id).Nodup)

include hnd

theorem link_eq {a : Arena} (hget : ∀ x, a.get? x = rs.find? fun r => r.id = x) {r : Record}
    (hr : r ∈ rs) :
    a.link r.id =
      match placeError? rs r with
      | some e => .error e
      | none => .ok (a.enlistRecord r) := by
  have hfound : a.get? r.id = some r := by
    rw [hget, Record.find?_id_eq_some_iff hnd]
    exact ⟨hr, rfl⟩
  cases hp : r.parent with
  | none =>
      cases hk : r.effect.isDamageOutcome <;>
        simp [link, placeError?, enlistRecord, Record.slot?, hfound, hp, hk]
  | some p =>
      cases ho : r.outcome with
      | none => simp [link, placeError?, hfound, hp, ho]
      | some o =>
          have howner : (a.get? p).map Record.effect =
              (rs.find? fun q => q.id = p).map Record.effect := by rw [hget]
          simp only [link, placeError?, enlistRecord, Record.slot?, hfound, hp, ho, allows, howner]
          cases checkEdge ((rs.find? fun q => q.id = p).map Record.effect) p o r.id r.effect <;> rfl

/-- The second pass stops at the first record that may not stand in its place. -/
theorem foldlM_link {a : Arena} (hget : ∀ x, a.get? x = rs.find? fun r => r.id = x)
    {l : List Record} (hl : l ⊆ rs) :
    (l.map Record.id).foldlM link a =
      match l.findSome? (placeError? rs) with
      | some e => .error e
      | none => .ok (l.foldl enlistRecord a) := by
  induction l generalizing a with
  | nil => rfl
  | cons r l ih =>
      obtain ⟨hr, hrest⟩ := List.cons_subset.mp hl
      rw [List.map_cons, List.foldlM_cons, link_eq hnd hget hr, List.findSome?_cons]
      cases placeError? rs r with
      | some e => rfl
      | none => exact ih (fun x => (get?_enlistRecord a r x).trans (hget x)) hrest

/-! ## The walk -/

theorem card_keys_linked : (linked rs).nodes.keys.card = rs.length := by
  have hkeys : (linked rs).nodes.keys = (rs.map Record.id).toFinset := by
    ext id
    rw [Finmap.mem_keys, ← Finmap.lookup_isSome, List.mem_toFinset, ← contains_written, contains,
      get?_written, ← get?_linked]
    rfl
  rw [hkeys, List.toFinset_card_of_nodup hnd, List.length_map]

omit hnd in
/-- Where every record may stand in its place, the edges lead to the records in the order of the
loader: their branches, gathered, are the edges of the arena. -/
theorem successors_linked (hall : ∀ r ∈ rs, Allowed rs r) (p : NodeId) :
    (linked rs).successors p = (recordsOf rs (some p)).map Record.id := by
  have hordered : ((recordsOf rs (some p)).filterMap fun r => r.outcome.map fun o =>
      (o, r.id)).Pairwise fun a b => a.1.rank ≤ b.1.rank := by
    rw [List.pairwise_filterMap]
    refine (List.pairwise_map.mp (ordered_recordsOf rs p)).imp fun {r r'} hle b hb b' hb' => ?_
    obtain ⟨o, ho, rfl⟩ := Option.map_eq_some_iff.mp hb
    obtain ⟨o', ho', rfl⟩ := Option.map_eq_some_iff.mp hb'
    rw [notAfter_iff, ho, ho'] at hle
    exact hle
  have hedges : (linked rs).edgesOf p =
      gather ((recordsOf rs (some p)).filterMap fun r => r.outcome.map fun o => (o, r.id)) := by
    refine ((trim_linked rs).tidy p).ext (tidy_gather hordered) fun o => ?_
    rw [listUnder_gather hordered, Record.filter_branches, filter_recordsOf]
    exact listing_linked_below rs p o
  rw [successors, hedges, (tidy_gather hordered).leading_eq, flatMap_snd_gather,
    List.map_filterMap, ← List.filterMap_eq_map]
  refine List.filterMap_congr fun r hr => ?_
  -- a record with a parent may only stand under an outcome
  obtain ⟨hmem, hp⟩ := mem_recordsOf.mp hr
  obtain ⟨-, -, -, o, ho, -⟩ := (allowed_below_iff hp).mp (hall r hmem)
  rw [show r.outcome = some o from ho]
  rfl

theorem preorder_linked (hall : ∀ r ∈ rs, Allowed rs r) : (linked rs).preorder = reachable rs := by
  have hnext : (linked rs).successors = fun id => (recordsOf rs (some id)).map Record.id :=
    funext (successors_linked hall)
  have hroots : (linked rs).roots = (recordsOf rs none).map Record.id := listing_linked_root rs
  rw [preorder, hnext, card_keys_linked hnd, hroots]
  rfl

end Distinct

end Arena

namespace Tree

open Spellwork.Arena

/-- The records of an acceptable list, listed in their places, are the arena of the tree that they
grow. -/
theorem linked_eq_ofTree {rs : List Record} (h : Acceptable rs) :
    linked rs = ofTree (grow rs rs.length none) := by
  have hdescribes := describes_grow h
  refine (valid_grow h).eq_ofTree (trim_linked rs) (fun x => ?_) fun s => ?_
  · rw [get?_linked, hdescribes.get?]
  · rcases s with _ | ⟨p, o⟩
    · exact (listing_linked_root rs).trans hdescribes.roots.symm
    · exact (listing_linked_below rs p o).trans (hdescribes.childrenOf p o).symm

theorem find?_map_id (rs : List Record) (p : NodeId → Bool) :
    (rs.map Record.id).find? p = (rs.find? fun r => p r.id).map Record.id := by
  rw [List.find?_map]
  rfl

/-- Loading an arena gives the arena of the tree that is loaded, or the same error. -/
theorem ofRecords?_ofTree (rs : List Record) :
    Arena.ofRecords? rs = (Tree.ofRecords? rs).map ofTree := by
  have hpass : rs.foldlM insertUnlinked empty = _ :=
    @foldlM_insertUnlinked [] rs [] (by simp)
  unfold Arena.ofRecords?
  rw [hpass]
  cases hrepeat : repeatedId? [] rs with
  | some id =>
      rw [ofRecords?_of_repeated hrepeat]
      rfl
  | none =>
      have hnd := (repeatedId?_eq_none_iff.mp hrepeat).2
      dsimp only
      rw [List.nil_append, foldlM_link hnd (get?_written rs) (List.Subset.refl rs)]
      cases hplace : rs.findSome? (placeError? rs) with
      | some e =>
          rw [ofRecords?_of_fault hnd hplace]
          rfl
      | none =>
          have hall := (findSome?_placeError?_eq_none_iff hnd).mp hplace
          have hlinked : rs.foldl enlistRecord (written rs) = linked rs := rfl
          dsimp only
          rw [hlinked, preorder_linked hnd hall, ofRecords?_of_allowed hnd hall, find?_map_id,
            List.length_map]
          cases hmissed : rs.find? fun r => !(reachable rs).contains r.id with
          | none =>
              have hrooted := (find?_missed_eq_none_iff hnd).mp hmissed
              have hlinked := linked_eq_ofTree ⟨hnd, hall, hrooted⟩
              split <;> exact congrArg Except.ok hlinked
          | some r =>
              have hlost := ((find?_missed_eq_some_iff hnd).mp hmissed).1
              have hmem := List.mem_of_find?_eq_some hmissed
              rw [if_neg fun hlen => hlost ((length_reachable_eq_iff hnd).mp hlen r hmem)]
              rfl

end Tree

end Spellwork
