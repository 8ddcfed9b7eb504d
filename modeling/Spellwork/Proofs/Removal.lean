import Spellwork.Proofs.Descendants
import Spellwork.Proofs.Reachable

/-!
# What a removal takes away

A removal finds what has to go by the parents that the stored records name, in one pass from the
front (`goneAfter`); the descendants of an effect are found by a walk over the edges. Both find the
same ids, because a record stands behind its parent and nothing outside a subtree names a parent in
it. So an effect goes with its descendants, as one block of the stored records, and all others stay
as they are (`Reachable.delete_block`).
-/

namespace Spellwork

namespace Tree

open Forest

/-! ## The pass over records -/

/-- The pass of `doomed`, from any ids that have gone before. -/
def goneAfter (gone : List NodeId) (rs : List Record) : List NodeId :=
  rs.foldl (fun gone r => if r.parent.any fun p => gone.contains p then gone ++ [r.id] else gone)
    gone

theorem doomed_eq (id : NodeId) (rs : List Record) : doomed id rs = goneAfter [id] rs := rfl

theorem goneAfter_append (gone : List NodeId) (rs rs' : List Record) :
    goneAfter gone (rs ++ rs') = goneAfter (goneAfter gone rs) rs' :=
  List.foldl_append

/-- Records that name no parent among those gone are passed by. -/
theorem goneAfter_eq_self {gone : List NodeId} {rs : List Record}
    (h : ∀ r ∈ rs, ∀ p, r.parent = some p → p ∉ gone) : goneAfter gone rs = gone := by
  induction rs with
  | nil => rfl
  | cons r rs ih =>
      have hstay : ¬ (r.parent.any fun p => gone.contains p) = true := by
        intro hany
        obtain ⟨p, hp, hmem⟩ := (Option.any_eq_true _ _).mp hany
        exact h r List.mem_cons_self p hp (List.contains_iff_mem.mp hmem)
      have hrest := ih fun x hx => h x (List.mem_cons_of_mem r hx)
      rw [goneAfter, List.foldl_cons, if_neg hstay]
      exact hrest

/-- Below an id that has gone the pass gathers everything. -/
theorem goneAfter_recordsBelow {p : NodeId} {gone : List NodeId} (hp : p ∈ gone) (t : Tree) :
    goneAfter gone (recordsBelow (some p) t) = gone ++ t.ids := by
  induction t generalizing p gone with
  | nil => exact (List.append_nil gone).symm
  | node n c r ihc ihr =>
      have hgo : ((some p).any fun p => gone.contains p) = true := List.contains_iff_mem.mpr hp
      have hn : n.id ∈ gone ++ [n.id] := by simp
      have hp' : p ∈ gone ++ [n.id] ++ ids c := by simp [hp]
      rw [goneAfter, recordsBelow, List.foldl_cons, if_pos hgo]
      show goneAfter (gone ++ [n.id]) (recordsBelow (some n.id) c ++ recordsBelow (some p) r) = _
      rw [goneAfter_append, ihc hn, ihr hp']
      simp [ids]

@[simp] theorem id_rehome {parent : Option NodeId} {outcome : Option Outcome} (r : Record) :
    (rehome parent outcome r).id = r.id := by
  unfold rehome
  split <;> rfl

@[simp] theorem parent_rehome (r : Record) : (rehome none none r).parent = r.parent := by
  cases hp : r.parent <;> simp [rehome, hp]

/-- What storing leaves out is nothing that the pass looks at. -/
theorem goneAfter_rehome (gone : List NodeId) (rs : List Record) :
    goneAfter gone (rs.map (rehome none none)) = goneAfter gone rs := by
  rw [goneAfter, List.foldl_map]
  simp only [parent_rehome, id_rehome]
  rfl

/-! ## The block that goes -/

section Block

variable {t : Tree} (h : Valid t) {s : Node × Tree} (hs : s ∈ t.subtrees)

include h hs

/-- The records of a tree around a node and those below it: no other has one of these ids. -/
theorem exists_block_records :
    ∃ p front back,
      t.records = front ++ s.1.record p :: recordsBelow (some s.1.id) s.2 ++ back ∧
        ∀ r ∈ front ++ back, r.id ∉ s.1.id :: s.2.ids := by
  obtain ⟨p, front, back, heq, -⟩ := exists_block h.ids_nodup hs none
  refine ⟨p, front, back, heq, fun r hr hmem => ?_⟩
  have hnd : (t.records.map Record.id).Nodup := h.record_ids_nodup
  rw [records, heq, List.map_append, List.map_append, map_id_block] at hnd
  obtain ⟨hfront, -, hback⟩ := List.nodup_append.mp hnd
  rcases List.mem_append.mp hr with hr | hr
  · have hdisj := (List.nodup_append.mp hfront).2.2
    exact hdisj r.id (List.mem_map_of_mem hr) r.id hmem rfl
  · exact hback r.id (List.mem_append_right _ hmem) r.id (List.mem_map_of_mem hr) rfl

/-- A record that does not stand below the node names no parent there, so the pass leaves it. -/
theorem goneAfter_outside {gone : List NodeId} {rs : List Record}
    (hgone : gone ⊆ s.1.id :: s.2.ids) (hrs : ∀ r ∈ rs, r ∈ t.records ∧ r.id ∉ s.2.ids) :
    goneAfter gone rs = gone := by
  refine goneAfter_eq_self fun r hr p hp hmem => ?_
  obtain ⟨hrecord, hout⟩ := hrs r hr
  exact hout (mem_ids_of_parent h.ids_nodup hs hrecord hp (hgone hmem))

/-- The parents that the records name lead to the same ids as the edges. -/
theorem doomed_flatten : doomed s.1.id t.flatten = s.1.id :: s.2.ids := by
  obtain ⟨p, front, back, heq, hout⟩ := exists_block_records h hs
  have hroot : (s.1.record p).id ∉ s.2.ids := h.not_mem_ids_self hs
  have hout' : ∀ r ∈ front ++ back, r ∈ t.records ∧ r.id ∉ s.2.ids := by
    intro r hr
    refine ⟨?_, fun hid => hout r hr (List.mem_cons_of_mem _ hid)⟩
    rw [heq]
    rcases List.mem_append.mp hr with hr | hr <;> simp [hr]
  have hfront : goneAfter [s.1.id] (front ++ [s.1.record p]) = [s.1.id] := by
    refine goneAfter_outside h hs (by simp) fun r hr => ?_
    rcases List.mem_append.mp hr with hr | hr
    · exact hout' r (List.mem_append_left back hr)
    · rw [List.mem_singleton.mp hr]
      exact ⟨by rw [heq]; simp, hroot⟩
  have hback : goneAfter (s.1.id :: s.2.ids) back = s.1.id :: s.2.ids :=
    goneAfter_outside h hs (List.Subset.refl _) fun r hr =>
      hout' r (List.mem_append_right front hr)
  have hsplit : t.records =
      (front ++ [s.1.record p]) ++ (recordsBelow (some s.1.id) s.2 ++ back) := by
    rw [heq]
    simp
  rw [doomed_eq, flatten, flattenUnder, goneAfter_rehome, hsplit, goneAfter_append, hfront,
    goneAfter_append, goneAfter_recordsBelow List.mem_cons_self]
  exact hback

/-- Removing an effect drops the records of what the pass has gathered. -/
theorem records_delete {t' : Tree} (hok : t.delete s.1.id = .ok t') :
    t'.records = t.records.filter fun r => !(s.1.id :: s.2.ids).contains r.id := by
  obtain ⟨-, rfl⟩ := delete_eq_ok_iff.mp hok
  rw [doomed_flatten h hs]
  refine recordsBelow_prune (fun x hx hgo n hn => ?_) none
  have hmem : n.id ∈ ids x.2 := List.mem_map_of_mem hn
  have hbelow := ids_subset_of_mem_ids h.ids_nodup hs hx (List.contains_iff_mem.mp hgo) hmem
  exact List.contains_iff_mem.mpr (List.mem_cons_of_mem _ hbelow)

/-- Removing an effect takes its block out of the records. -/
theorem exists_delete_block :
    ∃ t' front block back, t.delete s.1.id = .ok t' ∧ t.records = front ++ block ++ back ∧
      block.map Record.id = s.1.id :: s.2.ids ∧ t'.records = front ++ back := by
  obtain ⟨p, front, back, heq, hout⟩ := exists_block_records h hs
  obtain ⟨t', hok⟩ : ∃ t', t.delete s.1.id = .ok t' :=
    ⟨_, delete_eq_ok_iff.mpr ⟨id_mem_ids_of_mem_subtrees hs, rfl⟩⟩
  have hblock := map_id_block p s
  refine ⟨t', front, _, back, hok, heq, hblock, ?_⟩
  have hdrop : (s.1.record p :: recordsBelow (some s.1.id) s.2).filter
      (fun r => !(s.1.id :: s.2.ids).contains r.id) = [] := by
    refine List.filter_eq_nil_iff.mpr fun r hr => ?_
    have hmem : r.id ∈ s.1.id :: s.2.ids := hblock ▸ List.mem_map_of_mem hr
    rw [List.contains_iff_mem.mpr hmem]
    exact Bool.false_ne_true
  have hkeep : (front ++ back).filter (fun r => !(s.1.id :: s.2.ids).contains r.id) =
      front ++ back := by
    refine List.filter_eq_self.mpr fun r hr => ?_
    rw [Bool.not_eq_true', Bool.eq_false_iff, ne_eq, List.contains_iff_mem]
    exact hout r hr
  rw [records_delete h hs hok, heq, List.filter_append, List.filter_append, hdrop,
    List.append_nil, ← List.filter_append, hkeep]

end Block

/-! ## Removal -/

theorem delete_eq_error_iff {t : Tree} {id : NodeId} {e : EditError} :
    t.delete id = .error e ↔ t.contains id = false ∧ e = .unknownNode id := by
  unfold delete
  cases t.contains id with
  | true => simp
  | false => simp [eq_comm]

/-- A removal fails only where the id is not there. Otherwise the parents that the stored records
name and the edges lead to the same ids, the id and its descendants, and these are one block of the
stored records, which is all that the removal takes away. -/
theorem Reachable.delete_block {t : Tree} (h : Reachable t) (id : NodeId) :
    (∀ e, t.delete id = .error e ↔ t.contains id = false ∧ e = .unknownNode id) ∧
      (t.contains id = true →
        doomed id t.flatten = id :: t.descendants id ∧
          ∃ t' front block back, t.delete id = .ok t' ∧ t.flatten = front ++ block ++ back ∧
            block.map Record.id = doomed id t.flatten ∧ t'.flatten = front ++ back) := by
  refine ⟨fun e => delete_eq_error_iff, fun hid => ?_⟩
  obtain ⟨s, hs, rfl⟩ := exists_subtree_of_id (contains_iff.mp hid)
  have hdoomed := doomed_flatten h.valid hs
  obtain ⟨t', front, block, back, hok, hrecords, hblock, hdeleted⟩ := exists_delete_block h.valid hs
  refine ⟨?_, t', front.map (rehome none none), block.map (rehome none none),
    back.map (rehome none none), hok, ?_, ?_, ?_⟩
  · rw [hdoomed, h.valid.descendants_of_mem_subtrees hs]
  · rw [flatten, flattenUnder, hrecords, List.map_append, List.map_append]
  · rw [hdoomed, ← hblock, List.map_map]
    exact List.map_congr_left fun r _ => id_rehome r
  · rw [flatten, flattenUnder, hdeleted, List.map_append]

/-- A saving throw with damage among its shared rolls, and a note behind it. -/
def remarkedRoll : Tree :=
  sharedRoll ++ .leaf ⟨"note", none, .text ⟨.general, "Burns blue."⟩⟩

theorem delete_block_remarkedRoll :
    doomed "save" remarkedRoll.flatten = "save" :: remarkedRoll.descendants "save" ∧
      remarkedRoll.descendants "save" = ["fire"] ∧
      remarkedRoll.delete "fir" = .error (.unknownNode "fir") ∧
      ∃ t' front block back, remarkedRoll.delete "save" = .ok t' ∧
        remarkedRoll.flatten = front ++ block ++ back ∧
        block.map Record.id = ["save", "fire"] ∧ t'.flatten = front ++ back := by
  have hreach : Reachable remarkedRoll :=
    (built_sharedRoll.step (.attach _ none "note" (.text ⟨.general, "Burns blue."⟩))).reachable
  obtain ⟨hdoomed, t', front, block, back, hok, hflatten, hblock, hdeleted⟩ :=
    (hreach.delete_block "save").2 (by decide)
  have hids : doomed "save" remarkedRoll.flatten = ["save", "fire"] := by decide
  exact ⟨hdoomed, by decide, ((hreach.delete_block "fir").1 _).mpr ⟨by decide, rfl⟩,
    t', front, block, back, hok, hflatten, hblock.trans hids, hdeleted⟩

end Tree

end Spellwork
