import Spellwork.Proofs.Documents
import Spellwork.Proofs.Leaves
import Spellwork.Proofs.Planting
import Spellwork.Proofs.RoundTrip

/-!
# Planting a document

What a document says can be planted or it cannot, and the forest and the ids that the mint has for
it decide which (`Plantable`): no id twice, no damage outcome among the roots, and every other
effect under an outcome that the effect above may own. What comes out is the forest as it was said;
the effects without ids have received those of the mint in the order of the document
(`plant_document`).
-/

namespace Spellwork

open Spellwork.Forest Spellwork.Tree

/-- What a node is but for its id. -/
def Node.content (n : Node) : Option Outcome × Effect :=
  (n.outcome, n.effect)

/-- What a draft is but for its id. -/
def Draft.content (d : Draft) : Option Outcome × Effect :=
  (d.outcome, d.effect)

namespace Tree

/-! ## What an insertion did -/

variable {p : NodeId} {n : Node} {t t' : Tree}

theorem eq_append_of_insert (hnone : n.outcome = none)
    (h : t.insert (Outline.slotOf none n.outcome) n.id n.effect = .ok t') :
    n.id ∉ t.ids ∧ t' = t ++ .leaf n := by
  have hn : (⟨n.id, none, n.effect⟩ : Node) = n := by rw [← hnone]
  rw [Outline.slotOf_none] at h
  rcases insert_cases h with ⟨-, hfresh, -, rfl⟩ | ⟨_, _, _, hslot, -⟩
  · rw [hn]
    exact ⟨hfresh, rfl⟩
  · cases hslot

/-- A node that comes last below its parent has been hung there as a leaf. -/
theorem eq_graft_of_insert (hsome : n.outcome ≠ none)
    (hlast : ∀ s ∈ t.subtrees, s.1.id = p →
      ∀ m ∈ s.2.rootLabels, notAfter m.outcome n.outcome = true)
    (h : t.insert (Outline.slotOf (some p) n.outcome) n.id n.effect = .ok t') :
    p ∈ t.ids ∧ n.id ∉ t.ids ∧ t' = graft p (.leaf n) t := by
  obtain ⟨o, ho⟩ := Option.ne_none_iff_exists'.mp hsome
  have hn : (⟨n.id, some o, n.effect⟩ : Node) = n := by rw [← ho]
  rw [ho] at h
  rcases insert_cases h with ⟨hslot, -⟩ | ⟨q, o', r, hslot, hfresh, hr, -, -, rfl⟩
  · cases hslot
  · cases hslot
    rw [hn, placeBelow_eq_graft hlast]
    exact ⟨mem_ids_of_get? hr, hfresh, rfl⟩

end Tree

namespace Outline

/-! ## What planting did -/

/-- Arranged drafts that were planted below a parent, behind what stood there, hang there. -/
theorem eq_graft_of_plantDrafts {p : NodeId} {f : Forest Draft} {t t' : Tree}
    {mint mint' : Random.Mint} (ht : Valid t) (hf : Arranged f)
    (hsome : ∀ d ∈ f.rootLabels, d.outcome ≠ none)
    (hplace : ∀ s ∈ t.subtrees, s.1.id = p →
      Ordered (s.2.rootLabels.map Node.outcome ++ f.rootLabels.map Draft.outcome))
    (h : plantDrafts (some p) f t mint = .ok (t', mint')) :
    t' = graft p (nodes f mint).1 t ∧ mint' = (nodes f mint).2 := by
  induction f generalizing p t t' mint mint' with
  | nil =>
      cases h
      exact ⟨(graft_nil p t).symm, rfl⟩
  | node d c r ihc ihr =>
      obtain ⟨t₁, t₂, mint₂, hinsert, hchildren, hrest⟩ := exists_of_plantDrafts_node h
      have hlast : ∀ s ∈ t.subtrees, s.1.id = p →
          ∀ m ∈ s.2.rootLabels, notAfter m.outcome (nodeOf d mint).outcome = true := by
        intro s hs hid m hm
        have hbefore := (List.pairwise_append.mp (hplace s hs hid)).2.2
        exact hbefore _ (List.mem_map_of_mem hm) _ List.mem_cons_self
      obtain ⟨hp, hfresh, rfl⟩ :=
        eq_graft_of_insert (hsome d List.mem_cons_self) hlast hinsert
      have ht₁ := ht.insert hinsert
      obtain ⟨hsomec, horderedc⟩ := hf (d, c) (by simp)
      have hplacec : ∀ s ∈ (graft p (.leaf (nodeOf d mint)) t).subtrees,
          s.1.id = (nodeOf d mint).id →
          Ordered (s.2.rootLabels.map Node.outcome ++ c.rootLabels.map Draft.outcome) := by
        intro s hs hid
        obtain rfl := eq_of_mem_subtrees_graft_leaf ht.ids_nodup hfresh hs hid
        exact horderedc
      obtain ⟨rfl, rfl⟩ := ihc ht₁ hf.children hsomec hplacec hchildren
      -- that the ids below are new as well is known only now that they have been planted
      have ht₂ := (edits_plantDrafts hchildren).valid ht₁
      rw [graft_graft_leaf hfresh] at ht₂ hrest
      have hdistinct := (ids_graft_perm ht.ids_nodup hp).nodup_iff.mp ht₂.ids_nodup
      have hplacer : ∀ s ∈ (graft p (.node (nodeOf d mint) (nodes c (idOf d mint).2).1 .nil)
          t).subtrees, s.1.id = p →
          Ordered (s.2.rootLabels.map Node.outcome ++ r.rootLabels.map Draft.outcome) := by
        intro s hs hid
        obtain ⟨below, hbelow, heq⟩ := exists_of_mem_subtrees_graft hdistinct hp hs hid
        have hordered := hplace _ hbelow hid
        rw [heq, rootLabels_append, List.map_append, List.append_assoc]
        exact hordered
      obtain ⟨rfl, rfl⟩ :=
        ihr ht₂ hf.rest (fun e he => hsome e (List.mem_cons_of_mem _ he)) hplacer hrest
      rw [nodes_node, graft_graft]
      exact ⟨rfl, rfl⟩

theorem eq_append_of_plantDrafts {f : Forest Draft} {t t' : Tree} {mint mint' : Random.Mint}
    (ht : Valid t) (hf : Arranged f) (hnone : ∀ d ∈ f.rootLabels, d.outcome = none)
    (h : plantDrafts none f t mint = .ok (t', mint')) :
    t' = t ++ (nodes f mint).1 ∧ mint' = (nodes f mint).2 := by
  induction f generalizing t t' mint mint' with
  | nil =>
      cases h
      exact ⟨(append_nil t).symm, rfl⟩
  | node d c r ihc ihr =>
      obtain ⟨t₁, t₂, mint₂, hinsert, hchildren, hrest⟩ := exists_of_plantDrafts_node h
      obtain ⟨hfresh, rfl⟩ := eq_append_of_insert (hnone d List.mem_cons_self) hinsert
      have ht₁ := ht.insert hinsert
      obtain ⟨hsomec, horderedc⟩ := hf (d, c) (by simp)
      have hplacec : ∀ s ∈ (t ++ .leaf (nodeOf d mint)).subtrees, s.1.id = (nodeOf d mint).id →
          Ordered (s.2.rootLabels.map Node.outcome ++ c.rootLabels.map Draft.outcome) := by
        intro s hs hid
        obtain rfl := eq_of_mem_subtrees_append_leaf hfresh hs hid
        exact horderedc
      obtain ⟨rfl, rfl⟩ := eq_graft_of_plantDrafts ht₁ hf.children hsomec hplacec hchildren
      have ht₂ := (edits_plantDrafts hchildren).valid ht₁
      rw [graft_append_leaf hfresh] at ht₂ hrest
      obtain ⟨rfl, rfl⟩ := ihr ht₂ hf.rest (fun e he => hnone e (List.mem_cons_of_mem _ he)) hrest
      rw [nodes_node, append_assoc]
      exact ⟨rfl, rfl⟩

/-! ## The ids of the mint -/

/-- The number of drafts without an id. -/
def unnamed (ds : List Draft) : Nat :=
  ds.countP fun d => d.id.isNone

/-- Drafts as nodes, one for one: the first draft without an id takes the first of the ids, and so
on until all ids are taken. -/
inductive Filled : List Draft → List NodeId → List Node → Prop where
  | nil : Filled [] [] []
  | kept {id : NodeId} {o : Option Outcome} {e : Effect} {ds : List Draft} {ids : List NodeId}
      {ns : List Node} (h : Filled ds ids ns) :
      Filled (⟨some id, o, e⟩ :: ds) ids (⟨id, o, e⟩ :: ns)
  | minted {id : NodeId} {o : Option Outcome} {e : Effect} {ds : List Draft} {ids : List NodeId}
      {ns : List Node} (h : Filled ds ids ns) :
      Filled (⟨none, o, e⟩ :: ds) (id :: ids) (⟨id, o, e⟩ :: ns)

theorem Filled.append {ds ds' : List Draft} {ids ids' : List NodeId} {ns ns' : List Node}
    (h : Filled ds ids ns) (h' : Filled ds' ids' ns') :
    Filled (ds ++ ds') (ids ++ ids') (ns ++ ns') := by
  induction h with
  | nil => exact h'
  | kept _ ih => exact ih.kept
  | minted _ ih => exact ih.minted

/-- The ids of the nodes are those of the drafts and those that were filled in. -/
theorem Filled.perm {ds : List Draft} {ids : List NodeId} {ns : List Node} (h : Filled ds ids ns) :
    (ns.map Node.id).Perm (ds.filterMap Draft.id ++ ids) := by
  induction h with
  | nil => exact List.Perm.refl []
  | kept _ ih => exact ih.cons _
  | minted _ ih => exact (ih.cons _).trans List.perm_middle.symm

theorem filled_nodes (f : Forest Draft) (mint : Random.Mint) :
    Filled f.labels (mint.take (unnamed f.labels)).1 (nodes f mint).1.labels ∧
      (nodes f mint).2 = (mint.take (unnamed f.labels)).2 := by
  induction f generalizing mint with
  | nil => exact ⟨.nil, rfl⟩
  | node d c r ihc ihr =>
      obtain ⟨id, o, e⟩ := d
      have hbelow : ∀ mint' : Random.Mint,
          Filled (c.labels ++ r.labels) (mint'.take (unnamed (c.labels ++ r.labels))).1
            ((nodes c mint').1.labels ++ (nodes r (nodes c mint').2).1.labels) ∧
          (nodes r (nodes c mint').2).2 = (mint'.take (unnamed (c.labels ++ r.labels))).2 := by
        intro mint'
        obtain ⟨hfilledc, hmintc⟩ := ihc mint'
        obtain ⟨hfilledr, hmintr⟩ := ihr (nodes c mint').2
        rw [unnamed, List.countP_append, Random.Mint.take_add]
        rw [hmintc] at hfilledr hmintr ⊢
        exact ⟨hfilledc.append hfilledr, hmintr⟩
      cases id with
      | some id =>
          obtain ⟨hfilled, hmint⟩ := hbelow mint
          exact ⟨hfilled.kept, hmint⟩
      | none =>
          have hcount : unnamed (⟨none, o, e⟩ :: (c.labels ++ r.labels)) =
              unnamed (c.labels ++ r.labels) + 1 := List.countP_cons_of_pos rfl
          obtain ⟨hfilled, hmint⟩ := hbelow mint.next.2
          rw [labels_node, hcount, Random.Mint.take_succ]
          exact ⟨hfilled.minted, hmint⟩

theorem map_content_nodes (f : Forest Draft) (mint : Random.Mint) :
    (nodes f mint).1.map Node.content = f.map Draft.content := by
  induction f generalizing mint with
  | nil => rfl
  | node d c r ihc ihr =>
      rw [nodes_node, map_node, map_node, ihc, ihr]
      rfl

/-! ## What can be planted -/

/-- A forest of drafts may become a tree, with these ids for the drafts that have none. -/
structure Plantable (f : Forest Draft) (minted : List NodeId) : Prop where
  ids_nodup : (f.labels.filterMap Draft.id ++ minted).Nodup
  root_kind : ∀ d ∈ f.rootLabels, d.effect.isDamageOutcome = false
  admits : ∀ s ∈ f.subtrees, ∀ d ∈ s.2.rootLabels, ∃ o, d.outcome = some o ∧
    s.1.effect.canOwn o = true ∧ (o = .sharedRolls → d.effect.isDamage = true)

section Nodes

variable (f : Forest Draft) (mint : Random.Mint)

/-- What does not look at ids is the same of the drafts and of their nodes, among the roots. -/
theorem forall_root_nodes_iff (P : Option Outcome × Effect → Prop) :
    (∀ n ∈ (nodes f mint).1.rootLabels, P n.content) ↔ ∀ d ∈ f.rootLabels, P d.content := by
  have hroots := congrArg Forest.rootLabels (map_content_nodes f mint)
  rw [rootLabels_map, rootLabels_map] at hroots
  rw [← List.forall_mem_map, hroots, List.forall_mem_map]

/-- And so it is of what stands below them. -/
theorem forall_subtree_nodes_iff
    (P : Option Outcome × Effect → List (Option Outcome × Effect) → Prop) :
    (∀ s ∈ (nodes f mint).1.subtrees, P s.1.content (s.2.rootLabels.map Node.content)) ↔
      ∀ s ∈ f.subtrees, P s.1.content (s.2.rootLabels.map Draft.content) := by
  rw [← forall_subtrees_map, map_content_nodes, forall_subtrees_map]

theorem perm_ids_nodes : (nodes f mint).1.ids.Perm
    (f.labels.filterMap Draft.id ++ (mint.take (unnamed f.labels)).1) :=
  (filled_nodes f mint).1.perm

end Nodes

theorem valid_nodes_iff {f : Forest Draft} (hf : Arranged f) (mint : Random.Mint) :
    Valid (nodes f mint).1 ↔ Plantable f (mint.take (unnamed f.labels)).1 := by
  have hids := (perm_ids_nodes f mint).nodup_iff
  have hkind := forall_root_nodes_iff f mint fun x => x.2.isDamageOutcome = false
  have hadmits := forall_subtree_nodes_iff f mint fun w below => ∀ x ∈ below, ∃ o, x.1 = some o ∧
    w.2.canOwn o = true ∧ (o = .sharedRolls → x.2.isDamage = true)
  have hordered := forall_subtree_nodes_iff f mint fun _ below => Ordered (below.map Prod.fst)
  simp only [List.forall_mem_map] at hadmits
  simp only [List.map_map] at hordered
  constructor
  · intro h
    exact ⟨hids.mp h.ids_nodup, hkind.mp h.root_kind, hadmits.mp h.admits⟩
  · intro h
    exact ⟨hids.mpr h.ids_nodup, hkind.mpr h.root_kind, hadmits.mpr h.admits,
      hordered.mpr fun s hs => (hf s hs).2⟩

/-! ## Documents -/

/-- The outlines of a document stand under no outcome. -/
def roots (outlines : List Outline) : List (Option Outcome × Outline) :=
  outlines.map fun outline => (none, outline)

theorem document_drafts (outlines : List Outline) :
    Document (roots outlines) (drafts none outlines) := by
  rw [← draftBranches_map]
  exact document_draftBranches _

theorem Document.outcome_eq_none {outlines : List Outline} {f : Forest Draft}
    (h : Document (roots outlines) f) : ∀ d ∈ f.rootLabels, d.outcome = none := by
  intro d hd
  obtain ⟨b, hb, hbo⟩ := List.mem_map.mp (h.rootLabels_sublist.subset (List.mem_map_of_mem hd))
  obtain ⟨outline, -, rfl⟩ := List.mem_map.mp hb
  exact hbo.symm

/-- Planting succeeds with the drafts as nodes, if these are a valid tree. -/
theorem plant_eq_ok_iff {outlines : List Outline} {mint mint' : Random.Mint} {t : Tree} :
    plant outlines mint = .ok (t, mint') ↔
      nodes (drafts none outlines) mint = (t, mint') ∧ Valid t := by
  have hdocument := document_drafts outlines
  have hnone := hdocument.outcome_eq_none
  constructor
  · intro h
    obtain ⟨rfl, rfl⟩ := eq_append_of_plantDrafts valid_nil hdocument.arranged hnone h
    exact ⟨rfl, (edits_plant h).valid valid_nil⟩
  · rintro ⟨hnodes, ht⟩
    obtain ⟨rfl, rfl⟩ := Prod.mk.inj hnodes
    have hbare := (forall_root_nodes_iff (drafts none outlines) mint fun x => x.1 = none).mpr hnone
    exact plantDrafts_nodes ht.ids_nodup hbare ht.root_kind ht.orderly

/-- A document says one forest. It can be planted if the forest may become a tree with the next ids
of the mint, one for each effect without an id, and what is planted is then that forest: the same
effects in the same places, listed in the order of the document, where the first one without an id
has received the first of the ids and so on. No further id is minted. -/
theorem plant_document (outlines : List Outline) (mint : Random.Mint) :
    ∃ f, Document (roots outlines) f ∧
      ((∀ o ∈ outlines, Keyed o) → ∀ g, Document (roots outlines) g → g = f) ∧
      ((∃ planted, plant outlines mint = .ok planted) ↔
        Plantable f (mint.take (unnamed f.labels)).1) ∧
      ∀ t mint', plant outlines mint = .ok (t, mint') →
        t.map Node.content = f.map Draft.content ∧
          Filled f.labels (mint.take (unnamed f.labels)).1 (t.flatten.map Record.node) ∧
          mint' = (mint.take (unnamed f.labels)).2 := by
  have hdocument := document_drafts outlines
  refine ⟨drafts none outlines, hdocument, fun hkeyed g hg => ?_, ?_, fun t mint' h => ?_⟩
  · refine Document.unique (fun b hb => ?_) hg hdocument
    obtain ⟨outline, houtline, rfl⟩ := List.mem_map.mp hb
    exact hkeyed outline houtline
  · rw [← valid_nodes_iff hdocument.arranged]
    constructor
    · rintro ⟨⟨t, mint'⟩, h⟩
      obtain ⟨hnodes, ht⟩ := plant_eq_ok_iff.mp h
      rw [hnodes]
      exact ht
    · exact fun ht => ⟨_, plant_eq_ok_iff.mpr ⟨rfl, ht⟩⟩
  · have hflatten : t.flatten.map Record.node = t.labels := by
      rw [(Built.plant h).rootsBare.flatten_eq]
      exact map_node_recordsBelow none t
    obtain ⟨hnodes, -⟩ := plant_eq_ok_iff.mp h
    obtain ⟨rfl, rfl⟩ := Prod.mk.inj hnodes
    rw [hflatten]
    exact ⟨map_content_nodes _ mint, filled_nodes _ mint⟩

end Outline

end Spellwork
