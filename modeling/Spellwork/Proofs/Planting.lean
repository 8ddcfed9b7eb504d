import Spellwork.Proofs.Drafts
import Spellwork.Proofs.Valid

/-!
# Planting drafts

Drafts are planted one by one, each as the last one below its parent. Once the missing ids are
filled in (`nodes`), drafts are a forest of nodes, and as long as each of these finds its place
(`Fits`) the result is the tree with that forest hung below the parent (`graft`). Drafts that have
ids mint none.
-/

namespace Spellwork

namespace Tree

open Forest

/-! ## Grafting -/

/-- Hangs a forest below an effect, behind what stands there already. -/
def graft (p : NodeId) (f : Tree) : Tree → Tree
  | .nil => .nil
  | .node n children rest =>
    if n.id = p then .node n (children ++ f) rest
    else .node n (graft p f children) (graft p f rest)

theorem graft_nil (p : NodeId) (t : Tree) : graft p .nil t = t := by
  induction t with
  | nil => rfl
  | node n c r ihc ihr => simp [graft, ihc, ihr]

theorem graft_graft (p : NodeId) (f g t : Tree) : graft p g (graft p f t) = graft p (f ++ g) t := by
  induction t with
  | nil => rfl
  | node n c r ihc ihr =>
      by_cases hid : n.id = p
      · simp [graft, hid, append_assoc]
      · simp [graft, hid, ihc, ihr]

theorem graft_of_not_mem {p : NodeId} {f t : Tree} (h : p ∉ t.ids) : graft p f t = t := by
  induction t with
  | nil => rfl
  | node n c r ihc ihr =>
      rw [mem_ids_node, not_or, not_or] at h
      rw [graft, if_neg (Ne.symm h.1), ihc h.2.1, ihr h.2.2]

theorem graft_append_leaf {n : Node} {f t : Tree} (h : n.id ∉ t.ids) :
    graft n.id f (t ++ .leaf n) = t ++ .node n f .nil := by
  induction t with
  | nil => simp [graft, leaf]
  | node m c r ihc ihr =>
      rw [mem_ids_node, not_or, not_or] at h
      simp only [node_append, graft, if_neg (Ne.symm h.1), graft_of_not_mem h.2.1, ihr h.2.2]

/-- Hanging a forest below a new leaf is hanging the leaf with the forest below it. -/
theorem graft_graft_leaf {p : NodeId} {n : Node} {f t : Tree} (h : n.id ∉ t.ids) :
    graft n.id f (graft p (.leaf n) t) = graft p (.node n f .nil) t := by
  induction t with
  | nil => rfl
  | node m c r ihc ihr =>
      rw [mem_ids_node, not_or, not_or] at h
      by_cases hid : m.id = p
      · simp only [graft, if_pos hid, if_neg (Ne.symm h.1), graft_append_leaf h.2.1,
          graft_of_not_mem h.2.2]
      · simp only [graft, if_neg hid, if_neg (Ne.symm h.1), ihc h.2.1, ihr h.2.2]

theorem labels_graft_perm {p : NodeId} {f t : Tree} (hnd : t.ids.Nodup) (hp : p ∈ t.ids) :
    (graft p f t).labels.Perm (t.labels ++ f.labels) := by
  induction t with
  | nil => cases hp
  | node n c r ihc ihr =>
      obtain ⟨-, -, hndc, hndr, hdisj⟩ := nodup_ids_node hnd
      -- what is hung into the children stands before the labels of the rest
      have hmove : ((c.labels ++ f.labels) ++ r.labels).Perm
          ((c.labels ++ r.labels) ++ f.labels) := by
        rw [List.append_assoc, List.append_assoc]
        exact List.perm_append_comm.append_left c.labels
      by_cases hid : n.id = p
      · rw [graft, if_pos hid, labels_node, labels_append]
        exact hmove.cons n
      · rw [graft, if_neg hid]
        rcases mem_ids_node.mp hp with hp | hp | hp
        · exact absurd hp.symm hid
        · rw [graft_of_not_mem (hdisj p hp)]
          exact (((ihc hndc hp).append_right r.labels).trans hmove).cons n
        · rw [graft_of_not_mem fun hpc => hdisj p hpc hp, labels_node, labels_node,
            List.cons_append, List.append_assoc]
          exact ((ihr hndr hp).append_left c.labels).cons n

theorem ids_graft_perm {p : NodeId} {f t : Tree} (hnd : t.ids.Nodup) (hp : p ∈ t.ids) :
    (graft p f t).ids.Perm (t.ids ++ f.ids) := by
  have hperm := (labels_graft_perm (f := f) hnd hp).map Node.id
  rwa [List.map_append] at hperm

/-- After grafting, a node is one of those grafted or one that was there, and then what stands below
it has changed only at the place of the graft. -/
theorem mem_subtrees_graft {p : NodeId} {f t : Tree} (hnd : t.ids.Nodup) {s : Node × Tree}
    (h : s ∈ (graft p f t).subtrees) :
    s ∈ f.subtrees ∨ ∃ c, (s.1, c) ∈ t.subtrees ∧ (s.1.id = p → s.2 = c ++ f) := by
  induction t with
  | nil => cases h
  | node n c r ihc ihr =>
      obtain ⟨hnc, hnr, hndc, hndr, -⟩ := nodup_ids_node hnd
      by_cases hid : n.id = p
      · subst hid
        rw [graft, if_pos rfl] at h
        simp only [subtrees_node, subtrees_append, List.mem_cons, List.mem_append] at h
        rcases h with rfl | (h | h) | h
        · exact Or.inr ⟨c, by simp, fun _ => rfl⟩
        · exact Or.inr ⟨s.2, by simp [h], fun heq =>
            absurd (id_mem_ids_of_mem_subtrees h) (heq ▸ hnc)⟩
        · exact Or.inl h
        · exact Or.inr ⟨s.2, by simp [h], fun heq =>
            absurd (id_mem_ids_of_mem_subtrees h) (heq ▸ hnr)⟩
      · rw [graft, if_neg hid] at h
        simp only [subtrees_node, List.mem_cons, List.mem_append] at h
        rcases h with rfl | h | h
        · exact Or.inr ⟨c, by simp, fun heq => absurd heq hid⟩
        · rcases ihc hndc h with h | ⟨d, hd, hbelow⟩
          · exact Or.inl h
          · exact Or.inr ⟨d, by simp [hd], hbelow⟩
        · rcases ihr hndr h with h | ⟨d, hd, hbelow⟩
          · exact Or.inl h
          · exact Or.inr ⟨d, by simp [hd], hbelow⟩

/-- Where a forest has been hung, it stands behind what was there. -/
theorem exists_of_mem_subtrees_graft {p : NodeId} {f t : Tree} (hfresh : (t.ids ++ f.ids).Nodup)
    (hp : p ∈ t.ids) {s : Node × Tree} (h : s ∈ (graft p f t).subtrees) (hid : s.1.id = p) :
    ∃ c, (s.1, c) ∈ t.subtrees ∧ s.2 = c ++ f := by
  obtain ⟨hnd, -, hdisj⟩ := List.nodup_append.mp hfresh
  rcases mem_subtrees_graft hnd h with hs | ⟨c, hc, hbelow⟩
  · have hmem : p ∈ f.ids := hid ▸ id_mem_ids_of_mem_subtrees hs
    exact absurd rfl (hdisj p hp p hmem)
  · exact ⟨c, hc, hbelow hid⟩

theorem eq_of_mem_subtrees_graft_leaf {p : NodeId} {n : Node} {t : Tree} (hnd : t.ids.Nodup)
    (hn : n.id ∉ t.ids) {s : Node × Tree} (h : s ∈ (graft p (.leaf n) t).subtrees)
    (hid : s.1.id = n.id) : s = (n, .nil) := by
  rcases mem_subtrees_graft hnd h with hs | ⟨c, hc, -⟩
  · simpa [leaf] using hs
  · exact absurd (id_mem_ids_of_mem_subtrees hc) (hid ▸ hn)

theorem eq_of_mem_subtrees_append_leaf {n : Node} {t : Tree} (hn : n.id ∉ t.ids)
    {s : Node × Tree} (h : s ∈ (t ++ .leaf n).subtrees) (hid : s.1.id = n.id) :
    s = (n, .nil) := by
  rw [subtrees_append, List.mem_append] at h
  rcases h with h | h
  · exact absurd (id_mem_ids_of_mem_subtrees h) (hid ▸ hn)
  · simpa [leaf] using h

/-! ## Inserting the last one in a place -/

theorem placeAmong_eq_append {n : Node} {t : Tree}
    (h : ∀ m ∈ t.rootLabels, notAfter m.outcome n.outcome = true) :
    placeAmong n t = t ++ .leaf n := by
  induction t with
  | nil => rfl
  | node m c r _ ih =>
      rw [placeAmong, if_pos (h m (by simp)), ih fun m' hm' => h m' (by simp [hm'])]
      rfl

theorem placeBelow_eq_graft {p : NodeId} {n : Node} {t : Tree}
    (h : ∀ s ∈ t.subtrees, s.1.id = p →
      ∀ m ∈ s.2.rootLabels, notAfter m.outcome n.outcome = true) :
    placeBelow p n t = graft p (.leaf n) t := by
  induction t with
  | nil => rfl
  | node m c r ihc ihr =>
      by_cases hid : m.id = p
      · rw [placeBelow, graft, if_pos hid, if_pos hid,
          placeAmong_eq_append (h (m, c) (by simp) hid)]
      · rw [placeBelow, graft, if_neg hid, if_neg hid, ihc fun s hs => h s (by simp [hs]),
          ihr fun s hs => h s (by simp [hs])]

/-- Every node of a forest may stand where it does: below an effect that admits it, in the order of
outcomes. -/
def Orderly (f : Tree) : Prop :=
  ∀ s ∈ f.subtrees, (∀ n ∈ s.2.rootLabels, s.1.effect.Admits n) ∧
    Ordered (s.2.rootLabels.map Node.outcome)

theorem Valid.orderly {t : Tree} (h : Valid t) : Orderly t :=
  fun s hs => ⟨h.admits s hs, h.ordered s hs⟩

/-- A forest may be hung below an effect, behind what stands there. -/
structure Fits (p : NodeId) (f t : Tree) : Prop where
  present : p ∈ t.ids
  fresh : (t.ids ++ f.ids).Nodup
  orderly : Orderly f
  place : ∀ s ∈ t.subtrees, s.1.id = p → (∀ n ∈ f.rootLabels, s.1.effect.Admits n) ∧
    Ordered ((s.2.rootLabels ++ f.rootLabels).map Node.outcome)

section Fits

variable {p : NodeId} {n : Node} {f r t : Tree}

theorem Fits.nodup (h : Fits p f t) : t.ids.Nodup :=
  (List.nodup_append.mp h.fresh).1

theorem Fits.not_mem (h : Fits p f t) {id : NodeId} (hf : id ∈ f.ids) : id ∉ t.ids :=
  fun ht => (List.nodup_append.mp h.fresh).2.2 id ht id hf rfl

theorem Fits.insert (h : Fits p (.node n f r) t) :
    t.insert (Outline.slotOf (some p) n.outcome) n.id n.effect = .ok (graft p (.leaf n) t) := by
  have hfresh : ¬ t.contains n.id = true := fun hc =>
    h.not_mem (mem_ids_node.mpr (Or.inl rfl)) (contains_iff.mp hc)
  obtain ⟨q, hq, hqid⟩ := mem_ids_iff.mp h.present
  have hget : t.get? p = some q := (get?_eq_some_iff h.nodup).mpr ⟨hq, hqid⟩
  have hlabel : q.node ∈ t.labels := by
    rw [← map_node_recordsBelow none]
    exact List.mem_map_of_mem hq
  obtain ⟨c, hc⟩ := exists_mem_subtrees hlabel
  obtain ⟨o, ho, hown, hshared⟩ := (h.place _ hc hqid).1 n (by simp)
  have hedge : checkEdge ((t.get? p).map Record.effect) p o n.id n.effect = .ok () :=
    checkEdge_eq_ok_iff.mpr ⟨q.effect, by rw [hget]; rfl, hown, hshared⟩
  have hlast : ∀ s ∈ t.subtrees, s.1.id = p →
      ∀ m ∈ s.2.rootLabels, notAfter m.outcome n.outcome = true := by
    intro s hs hid m hm
    have hordered := (h.place s hs hid).2
    rw [Ordered, List.map_append, List.pairwise_append] at hordered
    exact hordered.2.2 _ (List.mem_map_of_mem hm) _ (by simp)
  have hn : (⟨n.id, some o, n.effect⟩ : Node) = n := by rw [← ho]
  rw [ho, insert_eq_ok_iff]
  simp only [Outline.slotOf, attach, if_neg hfresh, hedge, hn, placeBelow_eq_graft hlast]

/-- What stands below the first node fits below it once it is there. -/
theorem Fits.children (h : Fits p (.node n f r) t) : Fits n.id f (graft p (.leaf n) t) where
  present := by
    have hperm := ids_graft_perm (f := .leaf n) h.nodup h.present
    exact hperm.mem_iff.mpr (by simp [ids, leaf])
  fresh := by
    have hperm := ids_graft_perm (f := .leaf n) h.nodup h.present
    have hids : t.ids ++ ids (.node n f r) = ((t.ids ++ ids (.leaf n)) ++ f.ids) ++ r.ids := by
      simp [ids, leaf]
    have hfresh := h.fresh
    rw [hids] at hfresh
    exact (hperm.append_right f.ids).nodup_iff.mpr (List.nodup_append.mp hfresh).1
  orderly := fun s hs => h.orderly s (by simp [hs])
  place := by
    intro s hs hid
    have hn := h.not_mem (mem_ids_node.mpr (Or.inl rfl))
    obtain rfl := eq_of_mem_subtrees_graft_leaf h.nodup hn hs hid
    exact h.orderly (n, f) (by simp)

/-- The other trees fit once the first one is there. -/
theorem Fits.rest (h : Fits p (.node n f r) t) : Fits p r (graft p (.node n f .nil) t) := by
  have hperm := ids_graft_perm (f := .node n f .nil) h.nodup h.present
  have hids : t.ids ++ ids (.node n f r) = (t.ids ++ ids (.node n f .nil)) ++ r.ids := by
    simp [ids]
  have hfresh := h.fresh
  rw [hids] at hfresh
  exact {
    present := hperm.mem_iff.mpr (List.mem_append_left _ h.present)
    fresh := (hperm.append_right r.ids).nodup_iff.mpr hfresh
    orderly := fun s hs => h.orderly s (by simp [hs])
    place := by
      intro s hs hid
      obtain ⟨c, hc, hbelow⟩ :=
        exists_of_mem_subtrees_graft (List.nodup_append.mp hfresh).1 h.present hs hid
      obtain ⟨hadmits, hordered⟩ := h.place _ hc hid
      rw [hbelow]
      refine ⟨fun m hm => hadmits m (by simp [hm]), ?_⟩
      simpa using hordered }

end Fits

end Tree

namespace Outline

open Spellwork.Tree Spellwork.Forest

/-! ## Naming -/

/-- The id of a draft: its own one, or the next one of the mint. -/
def idOf (d : Draft) (mint : Random.Mint) : NodeId × Random.Mint :=
  match d.id with
  | some id => (id, mint)
  | none => mint.next

/-- A draft as a node. -/
def nodeOf (d : Draft) (mint : Random.Mint) : Node :=
  ⟨(idOf d mint).1, d.outcome, d.effect⟩

/-- Drafts as nodes. The ids that are missing are minted in the order of the document. -/
def nodes : Forest Draft → Random.Mint → Tree × Random.Mint
  | .nil, mint => (.nil, mint)
  | .node d children rest, mint =>
    let (children', mint') := nodes children (idOf d mint).2
    let (rest', mint'') := nodes rest mint'
    (.node (nodeOf d mint) children' rest', mint'')

theorem nodes_node (d : Draft) (children rest : Forest Draft) (mint : Random.Mint) :
    nodes (.node d children rest) mint =
      (.node (nodeOf d mint) (nodes children (idOf d mint).2).1
          (nodes rest (nodes children (idOf d mint).2).2).1,
        (nodes rest (nodes children (idOf d mint).2).2).2) :=
  rfl

theorem nodes_map_ofNode (f : Tree) (mint : Random.Mint) :
    nodes (f.map Draft.ofNode) mint = (f, mint) := by
  induction f with
  | nil => rfl
  | node n c r ihc ihr => simp [nodes_node, nodeOf, idOf, Draft.ofNode, ihc, ihr]

/-! ## Planting -/

/-- A draft, then its children, and then the drafts beside it. -/
theorem plantDrafts_node (parent : Option NodeId) (d : Draft) (children rest : Forest Draft)
    (t : Tree) (mint : Random.Mint) :
    plantDrafts parent (.node d children rest) t mint =
      (t.insert (slotOf parent (nodeOf d mint).outcome) (nodeOf d mint).id
          (nodeOf d mint).effect).bind fun t =>
        (plantDrafts (some (nodeOf d mint).id) children t (idOf d mint).2).bind fun planted =>
          plantDrafts parent rest planted.1 planted.2 := by
  rw [plantDrafts]
  unfold nodeOf idOf
  dsimp only
  cases t.insert (slotOf parent d.outcome) _ d.effect with
  | error e => rfl
  | ok t' =>
      dsimp only [Except.bind]
      cases plantDrafts (some _) children t' _ <;> rfl

theorem exists_of_bind_eq_ok {ε α β : Type} {x : Except ε α} {f : α → Except ε β} {b : β}
    (h : x.bind f = .ok b) : ∃ a, x = .ok a ∧ f a = .ok b := by
  cases x with
  | error e => cases h
  | ok a => exact ⟨a, rfl, h⟩

theorem exists_of_plantDrafts_node {parent : Option NodeId} {d : Draft}
    {children rest : Forest Draft} {t t' : Tree} {mint mint' : Random.Mint}
    (h : plantDrafts parent (.node d children rest) t mint = .ok (t', mint')) :
    ∃ t₁ t₂ mint₂,
      t.insert (slotOf parent (nodeOf d mint).outcome) (nodeOf d mint).id
        (nodeOf d mint).effect = .ok t₁ ∧
      plantDrafts (some (nodeOf d mint).id) children t₁ (idOf d mint).2 = .ok (t₂, mint₂) ∧
      plantDrafts parent rest t₂ mint₂ = .ok (t', mint') := by
  rw [plantDrafts_node] at h
  obtain ⟨t₁, hinsert, h⟩ := exists_of_bind_eq_ok h
  obtain ⟨planted, hchildren, hrest⟩ := exists_of_bind_eq_ok h
  exact ⟨t₁, planted.1, planted.2, hinsert, hchildren, hrest⟩

/-- Below a parent, drafts that fit as nodes are hung there as these. -/
theorem plantDrafts_below {p : NodeId} {f : Forest Draft} {t : Tree} {mint : Random.Mint}
    (h : Fits p (nodes f mint).1 t) :
    plantDrafts (some p) f t mint = .ok (graft p (nodes f mint).1 t, (nodes f mint).2) := by
  induction f generalizing p t mint with
  | nil =>
      show _ = Except.ok (graft p .nil t, mint)
      rw [graft_nil]
      rfl
  | node d c r ihc ihr =>
      rw [nodes_node] at h ⊢
      have hchildren := ihc h.children
      have hrest := ihr h.rest
      -- the children hang below the new leaf, so the leaf with them is one graft below the parent
      rw [graft_graft_leaf (h.not_mem (mem_ids_node.mpr (Or.inl rfl)))] at hchildren
      rw [graft_graft] at hrest
      rw [plantDrafts_node, h.insert]
      simp only [Except.bind, hchildren]
      exact hrest

theorem plantDrafts_nodes {f : Forest Draft} {t : Tree} {mint : Random.Mint}
    (hfresh : (t.ids ++ ids (nodes f mint).1).Nodup)
    (hbare : ∀ n ∈ (nodes f mint).1.rootLabels, n.outcome = none)
    (hkind : ∀ n ∈ (nodes f mint).1.rootLabels, n.effect.isDamageOutcome = false)
    (horderly : Orderly (nodes f mint).1) :
    plantDrafts none f t mint = .ok (t ++ (nodes f mint).1, (nodes f mint).2) := by
  induction f generalizing t mint with
  | nil =>
      show _ = Except.ok (t ++ .nil, mint)
      rw [append_nil]
      rfl
  | node d c r ihc ihr =>
      rw [nodes_node] at hfresh hbare hkind horderly ⊢
      let n := nodeOf d mint
      let f := (nodes c (idOf d mint).2).1
      let g := (nodes r (nodes c (idOf d mint).2).2).1
      have hnt : n.id ∉ t.ids := fun ht =>
        (List.nodup_append.mp hfresh).2.2 n.id ht n.id (mem_ids_node.mpr (Or.inl rfl)) rfl
      have hcontains : ¬ t.contains n.id = true := fun hc => hnt (contains_iff.mp hc)
      have hnone : n.outcome = none := hbare n (by simp [n])
      have hinsert : t.insert (slotOf none n.outcome) n.id n.effect = .ok (t ++ .leaf n) := by
        have hn : (⟨n.id, none, n.effect⟩ : Node) = n := by rw [← hnone]
        rw [insert_eq_ok_iff]
        simp only [slotOf, attach, if_neg hcontains, hkind n (by simp [n]), hn]
        rfl
      have hfits : Fits n.id f (t ++ .leaf n) := by
        have hids : t.ids ++ ids (.node n f g) = (ids (t ++ .leaf n) ++ f.ids) ++ g.ids := by
          simp [ids, leaf]
        rw [hids] at hfresh
        refine ⟨by simp [ids, leaf], (List.nodup_append.mp hfresh).1,
          fun s hs => horderly s (by simp [f, hs]), fun s hs hid => ?_⟩
        obtain rfl := eq_of_mem_subtrees_append_leaf hnt hs hid
        exact horderly (n, f) (by simp [n, f])
      have hchildren := plantDrafts_below hfits
      have hids : t.ids ++ ids (.node n f g) = ids (t ++ .node n f .nil) ++ g.ids := by
        simp [ids]
      rw [hids] at hfresh
      rw [graft_append_leaf hnt] at hchildren
      have hrest := ihr hfresh (fun m hm => hbare m (by simp [hm]))
        (fun m hm => hkind m (by simp [hm])) fun s hs => horderly s (by simp [hs])
      rw [append_assoc] at hrest
      rw [plantDrafts_node, hinsert]
      show (plantDrafts (some n.id) c (t ++ .leaf n) (idOf d mint).2).bind _ = _
      rw [hchildren]
      exact hrest

/-- Drafts of nodes keep their ids, and nothing is minted. -/
theorem plantDrafts_roots {f t : Tree} (hfresh : (t.ids ++ f.ids).Nodup)
    (hbare : ∀ n ∈ f.rootLabels, n.outcome = none)
    (hkind : ∀ n ∈ f.rootLabels, n.effect.isDamageOutcome = false) (horderly : Orderly f)
    (mint : Random.Mint) :
    plantDrafts none (f.map Draft.ofNode) t mint = .ok (t ++ f, mint) := by
  have hplant := @plantDrafts_nodes (f.map Draft.ofNode) t mint
  rw [nodes_map_ofNode] at hplant
  exact hplant hfresh hbare hkind horderly

end Outline

end Spellwork
