import Mathlib.Data.List.Perm.Subperm
import Spellwork.Proofs.Records

/-!
# Chains of parents

In a list of records every id names at most one parent, so the ids above an id form a single chain.
A `Lineage` is such a chain up to a record without a parent. With distinct ids there is only one
for each id, it meets no id twice, and so it is no longer than the list: this is all that loading
needs to know about cycles. `Rooted` says of an id that there is such a chain above it.
-/

namespace Spellwork

/-- A chain of parents leads from the id to a record without a parent. -/
inductive Rooted (rs : List Record) : NodeId → Prop where
  | root {r : Record} (hr : r ∈ rs) (hp : r.parent = none) : Rooted rs r.id
  | child {r : Record} {p : NodeId} (hr : r ∈ rs) (hp : r.parent = some p) (above : Rooted rs p) :
      Rooted rs r.id

/-- An id followed by its parent, the parent of that, and so on up to one without a parent. -/
def Lineage (rs : List Record) : List NodeId → Prop
  | [] => True
  | id :: above => (∃ r ∈ rs, r.id = id ∧ r.parent = above.head?) ∧ Lineage rs above

theorem Rooted.exists_record {rs : List Record} {id : NodeId} (h : Rooted rs id) :
    ∃ r ∈ rs, r.id = id := by
  cases h with
  | root hr _ => exact ⟨_, hr, rfl⟩
  | child hr _ _ => exact ⟨_, hr, rfl⟩

theorem Rooted.mono {rs rs' : List Record} (hsub : rs ⊆ rs') {id : NodeId} (h : Rooted rs id) :
    Rooted rs' id := by
  induction h with
  | root hr hp => exact Rooted.root (hsub hr) hp
  | child hr hp _ ih => exact Rooted.child (hsub hr) hp ih

theorem rooted_of_parent {rs : List Record} {q : Option NodeId} {r : Record} (hr : r ∈ rs)
    (hp : r.parent = q) (habove : ∀ p, q = some p → Rooted rs p) : Rooted rs r.id := by
  cases q with
  | none => exact Rooted.root hr hp
  | some p => exact Rooted.child hr hp (habove p rfl)

/-! ## Lineages -/

namespace Lineage

variable {rs : List Record}

theorem of_append {a b : List NodeId} (h : Lineage rs (a ++ b)) : Lineage rs b := by
  induction a with
  | nil => exact h
  | cons id a ih => exact ih h.2

theorem cons {a : List NodeId} (h : Lineage rs a) {r : Record} (hr : r ∈ rs)
    (hp : r.parent = a.head?) : Lineage rs (r.id :: a) :=
  ⟨⟨r, hr, rfl, hp⟩, h⟩

/-- An id has one lineage: its parent is that of its only record. -/
theorem eq_of_head (hnd : (rs.map Record.id).Nodup) {a b : List NodeId} (ha : Lineage rs a)
    (hb : Lineage rs b) (hhead : a.head? = b.head?) : a = b := by
  induction a generalizing b with
  | nil =>
      cases b with
      | nil => rfl
      | cons id b => cases hhead
  | cons id a ih =>
      cases b with
      | nil => cases hhead
      | cons id' b =>
          obtain rfl := Option.some.inj hhead
          obtain ⟨⟨r, hr, hrid, hrp⟩, ha⟩ := ha
          obtain ⟨⟨s, hs, hsid, hsp⟩, hb⟩ := hb
          obtain rfl := Record.eq_of_id hnd hr hs (hrid.trans hsid.symm)
          rw [ih ha hb (hrp.symm.trans hsp)]

theorem nodup (hnd : (rs.map Record.id).Nodup) {a : List NodeId} (h : Lineage rs a) :
    a.Nodup := by
  induction a with
  | nil => exact List.nodup_nil
  | cons id a ih =>
      refine List.nodup_cons.mpr ⟨fun hmem => ?_, ih h.2⟩
      -- met again further up, the id would have a second, shorter lineage
      obtain ⟨a₁, a₂, rfl⟩ := List.append_of_mem hmem
      have hshort : Lineage rs (id :: a₂) := of_append h.2
      have heq := eq_of_head hnd h hshort rfl
      have hlen := congrArg List.length heq
      simp only [List.length_cons, List.length_append] at hlen
      omega

theorem subset_ids {a : List NodeId} (h : Lineage rs a) : a ⊆ rs.map Record.id := by
  induction a with
  | nil => exact List.nil_subset _
  | cons id a ih =>
      obtain ⟨⟨r, hr, hid, -⟩, ha⟩ := h
      exact List.cons_subset.mpr ⟨hid ▸ List.mem_map_of_mem hr, ih ha⟩

theorem length_le (hnd : (rs.map Record.id).Nodup) {a : List NodeId} (h : Lineage rs a) :
    a.length ≤ rs.length := by
  have hle := (List.subperm_of_subset (h.nodup hnd) h.subset_ids).length_le
  rwa [List.length_map] at hle

end Lineage

namespace Tree

open Forest

/-- What stands below a rooted id is rooted. -/
theorem rooted_of_mem_recordsBelow {rs : List Record} {q : Option NodeId} {t : Tree}
    (hsub : recordsBelow q t ⊆ rs) (habove : ∀ p, q = some p → Rooted rs p) :
    ∀ r ∈ recordsBelow q t, Rooted rs r.id := by
  induction t generalizing q with
  | nil => exact fun _ h => by cases h
  | node n c k ihc ihk =>
      obtain ⟨hn, hrest⟩ := List.cons_subset.mp hsub
      obtain ⟨hc, hk⟩ := List.append_subset.mp hrest
      have hroot : Rooted rs n.id := rooted_of_parent hn rfl habove
      intro r hr
      rcases List.mem_cons.mp hr with rfl | hr
      · exact hroot
      · rcases List.mem_append.mp hr with hr | hr
        · exact ihc hc (fun p hp => Option.some.inj hp ▸ hroot) r hr
        · exact ihk hk habove r hr

/-- Every chain of parents in a tree ends in a root. -/
theorem rooted_of_mem_records {t : Tree} {r : Record} (h : r ∈ t.records) :
    Rooted t.records r.id :=
  rooted_of_mem_recordsBelow (List.Subset.refl _) (fun _ hp => by cases hp) r h

end Tree

end Spellwork
