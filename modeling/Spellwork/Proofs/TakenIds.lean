import Spellwork.Proofs.PlantedDocuments

/-!
# Minted ids that are taken

A mint goes by its seed alone and does not look at the ids that a document has already. Where
everything in a document may stand where it does and no id is written twice, that is the one thing
that can go wrong: planting succeeds if the ids minted for it are new, and otherwise it ends at one
of them (`Document.plant_lawful`). They are never new where the same mint has been used before: once
a tree planted from it is rendered and something without an id is added to the outline, the first id
minted is the one that the tree has already.
-/

namespace Spellwork

open Spellwork.Forest Spellwork.Tree

/-! ## Labels without their outcomes -/

/-- The id of a node and its effect. -/
def Node.tag (n : Node) : NodeId × Effect :=
  (n.id, n.effect)

namespace Tree

/-- The ids and effects of a tree. -/
def tags (t : Tree) : List (NodeId × Effect) :=
  t.labels.map Node.tag

theorem map_fst_tags (t : Tree) : t.tags.map Prod.fst = t.ids := by
  rw [tags, List.map_map]
  rfl

theorem tags_node (n : Node) (c r : Tree) :
    tags (.node n c r) = n.tag :: (c.tags ++ r.tags) := by
  simp [tags]

theorem count_ids_node (n : Node) (c r : Tree) (x : NodeId) :
    (ids (.node n c r)).count x = [n.id].count x + c.ids.count x + r.ids.count x := by
  have hids : ids (.node n c r) = [n.id] ++ c.ids ++ r.ids := by simp [ids]
  rw [hids, List.count_append, List.count_append]

theorem perm_ids_of_perm_tags {t : Tree} {l : List (NodeId × Effect)} (h : t.tags.Perm l) :
    t.ids.Perm (l.map Prod.fst) := by
  rw [← map_fst_tags]
  exact h.map Prod.fst

/-- A node may be inserted below a parent, or as a root, as far as its kind and outcome go. -/
def Welcomes (t : Tree) (n : Node) : (parent : Option NodeId) → Prop
  | none => n.effect.isDamageOutcome = false
  | some p => ∃ w, (p, w) ∈ t.tags ∧ w.Admits n

variable {t t' : Tree} {parent : Option NodeId} {n : Node}

theorem Welcomes.mono (h : t.Welcomes n parent) (hsub : t.tags ⊆ t'.tags) :
    t'.Welcomes n parent := by
  cases parent with
  | none => exact h
  | some p =>
      obtain ⟨w, hw, hadmits⟩ := h
      exact ⟨w, hsub hw, hadmits⟩

/-! ## One insertion -/

theorem tags_insert_perm (ht : Valid t) {slot : Slot} {id : NodeId} {e : Effect}
    (h : t.insert slot id e = .ok t') : t'.tags.Perm ((id, e) :: t.tags) := by
  rcases insert_cases h with ⟨-, -, -, rfl⟩ | ⟨p, o, r, -, -, hr, -, -, rfl⟩
  · have htags : tags (t ++ .leaf ⟨id, none, e⟩) = t.tags ++ [(id, e)] := by
      simp [tags, leaf, Node.tag]
    rw [htags]
    exact List.perm_append_singleton _ _
  · exact (labels_placeBelow_perm ht.ids_nodup (mem_ids_of_get? hr)).map Node.tag

theorem count_ids_insert (ht : Valid t) {slot : Slot} {id : NodeId} {e : Effect}
    (h : t.insert slot id e = .ok t') (x : NodeId) :
    t'.ids.count x = t.ids.count x + [id].count x := by
  rw [(perm_ids_of_perm_tags (tags_insert_perm ht h)).count_eq, List.map_cons, map_fst_tags,
    ← List.singleton_append, List.count_append, Nat.add_comm]

/-- Where a node is welcome, only its id can keep it out. -/
theorem duplicateId_of_insert (ht : Valid t) (hwelcome : t.Welcomes n parent) {e : EditError}
    (h : t.insert (Outline.slotOf parent n.outcome) n.id n.effect = .error e) :
    n.id ∈ t.ids ∧ e = .duplicateId n.id := by
  by_cases hmem : n.id ∈ t.ids
  · have hcontains : t.contains n.id = true := contains_iff.mpr hmem
    simp only [Tree.insert, attach, hcontains, if_true, Except.error.injEq] at h
    exact ⟨hmem, h.symm⟩
  · have hcontains : ¬ t.contains n.id = true := fun hc => hmem (contains_iff.mp hc)
    cases parent with
    | none =>
        have hkind : n.effect.isDamageOutcome = false := hwelcome
        rw [Outline.slotOf_none] at h
        simp [Tree.insert, attach, hcontains, hkind] at h
    | some p =>
        obtain ⟨w, hw, o, ho, hown, hshared⟩ := hwelcome
        obtain ⟨m, hm, htag⟩ := List.mem_map.mp hw
        obtain ⟨rfl, rfl⟩ := Prod.mk.inj htag
        obtain ⟨q, hq⟩ := exists_record_of_label hm
        have hget : t.get? m.id = some (m.record q) :=
          (get?_eq_some_iff ht.ids_nodup).mpr ⟨hq, rfl⟩
        have hedge : checkEdge ((t.get? m.id).map Record.effect) m.id o n.id n.effect = .ok () :=
          checkEdge_eq_ok_iff.mpr ⟨m.effect, by rw [hget]; rfl, hown, hshared⟩
        rw [ho] at h
        simp [Outline.slotOf, Tree.insert, attach, hcontains, hedge] at h

end Tree

namespace Outline

/-! ## One after the other -/

theorem tags_plantDrafts_perm {f : Forest Draft} {parent : Option NodeId} {t t' : Tree}
    {mint mint' : Random.Mint} (ht : Valid t)
    (h : plantDrafts parent f t mint = .ok (t', mint')) :
    t'.tags.Perm (t.tags ++ (nodes f mint).1.tags) ∧ mint' = (nodes f mint).2 := by
  induction f generalizing parent t t' mint mint' with
  | nil =>
      cases h
      exact ⟨by simp [nodes, tags], rfl⟩
  | node d c r ihc ihr =>
      obtain ⟨t₁, t₂, mint₂, hinsert, hchildren, hrest⟩ := exists_of_plantDrafts_node h
      have ht₁ := ht.insert hinsert
      obtain ⟨hperm₂, rfl⟩ := ihc ht₁ hchildren
      obtain ⟨hperm, rfl⟩ := ihr ((edits_plantDrafts hchildren).valid ht₁) hrest
      refine ⟨hperm.trans ?_, rfl⟩
      rw [nodes_node, tags_node, List.append_cons, ← List.append_assoc]
      exact ((hperm₂.trans ((tags_insert_perm ht hinsert).trans
        (List.perm_append_singleton _ _).symm |>.append_right _)).append_right _)

theorem count_ids_plantDrafts {f : Forest Draft} {parent : Option NodeId} {t t' : Tree}
    {mint mint' : Random.Mint} (ht : Valid t)
    (h : plantDrafts parent f t mint = .ok (t', mint')) (x : NodeId) :
    t'.ids.count x = t.ids.count x + (nodes f mint).1.ids.count x := by
  rw [(perm_ids_of_perm_tags (tags_plantDrafts_perm ht h).1).count_eq, List.map_append,
    map_fst_tags, map_fst_tags, List.count_append]

theorem exists_of_bind_eq_error {ε α β : Type} {x : Except ε α} {f : α → Except ε β} {e : ε}
    (h : x.bind f = .error e) : x = .error e ∨ ∃ a, x = .ok a ∧ f a = .error e := by
  cases x with
  | error e' =>
      cases h
      exact .inl rfl
  | ok a => exact .inr ⟨a, rfl, h⟩

/-- Drafts that are welcome where they stand can be refused only for an id that stands twice, in the
tree and among them or among them alone. -/
theorem exists_twice_of_plantDrafts {f : Forest Draft} {parent : Option NodeId} {t : Tree}
    {mint : Random.Mint} {e : EditError} (ht : Valid t)
    (hroots : ∀ n ∈ (nodes f mint).1.rootLabels, t.Welcomes n parent)
    (hbelow : ∀ s ∈ (nodes f mint).1.subtrees, ∀ n ∈ s.2.rootLabels, s.1.effect.Admits n)
    (h : plantDrafts parent f t mint = .error e) :
    ∃ id, e = .duplicateId id ∧ 2 ≤ (t.ids ++ (nodes f mint).1.ids).count id := by
  induction f generalizing parent t mint with
  | nil => cases h
  | node d c r ihc ihr =>
      let n := nodeOf d mint
      let f := (nodes c (idOf d mint).2).1
      let g := (nodes r (nodes c (idOf d mint).2).2).1
      rw [nodes_node] at hroots hbelow ⊢
      have hcount : ∀ id, (t.ids ++ Tree.ids (.node n f g)).count id =
          t.ids.count id + ([n.id].count id + f.ids.count id + g.ids.count id) := fun id => by
        rw [List.count_append, count_ids_node]
      rw [plantDrafts_node] at h
      rcases exists_of_bind_eq_error h with h | ⟨t₁, hinsert, h⟩
      · obtain ⟨hmem, rfl⟩ := duplicateId_of_insert ht (hroots n List.mem_cons_self) h
        refine ⟨n.id, rfl, ?_⟩
        have hold := List.one_le_count_iff.mpr hmem
        have hnew : [n.id].count n.id = 1 := List.count_singleton_self
        rw [hcount]
        omega
      · have ht₁ := ht.insert hinsert
        have htags₁ : t₁.tags.Perm (n.tag :: t.tags) := tags_insert_perm ht hinsert
        have hcount₁ := count_ids_insert ht hinsert
        rcases exists_of_bind_eq_error h with h | ⟨⟨t₂, mint₂⟩, hchildren, h⟩
        · have hwelcome : ∀ m ∈ f.rootLabels, t₁.Welcomes m (some n.id) := fun m hm =>
            ⟨n.effect, htags₁.mem_iff.mpr List.mem_cons_self, hbelow (n, f) (by simp [n, f]) m hm⟩
          obtain ⟨id, rfl, htwice⟩ := ihc ht₁ hwelcome (fun s hs => hbelow s (by simp [hs])) h
          refine ⟨id, rfl, ?_⟩
          rw [List.count_append, hcount₁] at htwice
          rw [hcount, ← Nat.add_assoc, ← Nat.add_assoc]
          exact Nat.le_add_right_of_le htwice
        · have hcount₂ := count_ids_plantDrafts ht₁ hchildren
          obtain ⟨htags₂, rfl⟩ := tags_plantDrafts_perm ht₁ hchildren
          have hsub : t.tags ⊆ t₂.tags := by
            intro x hx
            refine htags₂.mem_iff.mpr (List.mem_append_left _ (htags₁.mem_iff.mpr ?_))
            exact List.mem_cons_of_mem _ hx
          obtain ⟨id, rfl, htwice⟩ := ihr ((edits_plantDrafts hchildren).valid ht₁)
            (fun m hm => (hroots m (List.mem_cons_of_mem _ hm)).mono hsub)
            (fun s hs => hbelow s (by simp [hs])) h
          refine ⟨id, rfl, ?_⟩
          rw [List.count_append, hcount₂, hcount₁] at htwice
          rw [hcount, ← Nat.add_assoc, ← Nat.add_assoc]
          exact htwice

/-! ## Lawful documents -/

/-- Everything in a forest of drafts may stand where it does, and no id is written twice. -/
structure Lawful (f : Forest Draft) : Prop where
  ids_nodup : (f.labels.filterMap Draft.id).Nodup
  root_kind : ∀ d ∈ f.rootLabels, d.effect.isDamageOutcome = false
  admits : ∀ s ∈ f.subtrees, ∀ d ∈ s.2.rootLabels, ∃ o, d.outcome = some o ∧
    s.1.effect.canOwn o = true ∧ (o = .sharedRolls → d.effect.isDamage = true)

/-- Ids that are new to drafts: none of them stands twice, and none is the id of a draft. -/
def New (f : Forest Draft) (ids : List NodeId) : Prop :=
  ids.Nodup ∧ ∀ id ∈ ids, id ∉ f.labels.filterMap Draft.id

instance (f : Forest Draft) (ids : List NodeId) : Decidable (New f ids) :=
  inferInstanceAs (Decidable (ids.Nodup ∧ ∀ id ∈ ids, id ∉ f.labels.filterMap Draft.id))

theorem Lawful.plantable_iff {f : Forest Draft} (h : Lawful f) {minted : List NodeId} :
    Plantable f minted ↔ New f minted := by
  constructor
  · intro hplantable
    obtain ⟨-, hnd, hdisj⟩ := List.nodup_append.mp hplantable.ids_nodup
    exact ⟨hnd, fun id hid hmem => hdisj id hmem id hid rfl⟩
  · rintro ⟨hnd, hnew⟩
    refine ⟨List.nodup_append.mpr ⟨h.ids_nodup, hnd, ?_⟩, h.root_kind, h.admits⟩
    rintro id hmem _ hid rfl
    exact hnew id hid hmem

theorem Lawful.valid_nodes_iff {f : Forest Draft} (h : Lawful f) (hf : Arranged f)
    (mint : Random.Mint) :
    Valid (nodes f mint).1 ↔ New f (mint.take (unnamed f.labels)).1 :=
  (Outline.valid_nodes_iff hf mint).trans h.plantable_iff

/-- An id that stands twice among those of a lawful document and those minted for it is a minted
one. -/
theorem Lawful.mem_of_twice {f : Forest Draft} (h : Lawful f) {minted : List NodeId} {id : NodeId}
    (htwice : 2 ≤ (f.labels.filterMap Draft.id ++ minted).count id) : id ∈ minted := by
  have honce := List.nodup_iff_count_le_one.mp h.ids_nodup id
  rw [List.count_append] at htwice
  exact List.one_le_count_iff.mp (by omega)

theorem Lawful.exists_minted_of_error {f : Forest Draft} (h : Lawful f) {mint : Random.Mint}
    {e : EditError} (herror : plantDrafts none f .nil mint = .error e) :
    ∃ id ∈ (mint.take (unnamed f.labels)).1, e = .duplicateId id := by
  have hkind := (forall_root_nodes_iff f mint fun x => x.2.isDamageOutcome = false).mpr h.root_kind
  have hadmits := forall_subtree_nodes_iff f mint fun w below => ∀ x ∈ below, ∃ o, x.1 = some o ∧
    w.2.canOwn o = true ∧ (o = .sharedRolls → x.2.isDamage = true)
  simp only [List.forall_mem_map] at hadmits
  obtain ⟨id, rfl, htwice⟩ :=
    exists_twice_of_plantDrafts valid_nil hkind (hadmits.mpr h.admits) herror
  have hids : (Tree.ids .nil ++ (nodes f mint).1.ids).Perm
      (f.labels.filterMap Draft.id ++ (mint.take (unnamed f.labels)).1) := perm_ids_nodes f mint
  rw [hids.count_eq] at htwice
  exact ⟨id, h.mem_of_twice htwice, rfl⟩

/-- The first id of a mint. -/
theorem next_mem_take {mint : Random.Mint} {n : Nat} (h : 0 < n) :
    mint.next.1 ∈ (mint.take n).1 := by
  cases n with
  | zero => cases h
  | succ n =>
      rw [Random.Mint.take_succ]
      exact List.mem_cons_self

theorem Document.eq_drafts {outlines : List Outline} {f : Forest Draft}
    (hkeyed : ∀ o ∈ outlines, Keyed o) (h : Document (roots outlines) f) :
    f = drafts none outlines := by
  refine Document.unique (fun b hb => ?_) h (document_drafts outlines)
  obtain ⟨outline, houtline, rfl⟩ := List.mem_map.mp hb
  exact hkeyed outline houtline

/-- In a tree that was planted stands the first id of the mint, if any was minted. -/
theorem next_mem_ids_of_plant {outlines : List Outline} {f : Forest Draft} {t : Tree}
    {mint mint' : Random.Mint} (hkeyed : ∀ o ∈ outlines, Keyed o) (hf : Document (roots outlines) f)
    (hunnamed : 0 < unnamed f.labels) (h : plant outlines mint = .ok (t, mint')) :
    mint.next.1 ∈ t.ids := by
  obtain rfl := hf.eq_drafts hkeyed
  obtain ⟨hnodes, -⟩ := plant_eq_ok_iff.mp h
  obtain ⟨rfl, -⟩ := Prod.mk.inj hnodes
  exact (perm_ids_nodes _ mint).mem_iff.mpr (List.mem_append_right _ (next_mem_take hunnamed))

/-- A document in which everything may stand where it does and no id is written twice is planted if
the ids minted for it are new; otherwise planting ends at one of them. So it does whenever the
document keeps the ids of a tree that was planted from the same mint and received any from it, and
has an effect without an id. -/
theorem Document.plant_lawful {outlines : List Outline} {f : Forest Draft}
    (hkeyed : ∀ o ∈ outlines, Keyed o) (hf : Document (roots outlines) f) (hlawful : Lawful f)
    (mint : Random.Mint) :
    (New f (mint.take (unnamed f.labels)).1 → ∃ planted, plant outlines mint = .ok planted) ∧
    (¬ New f (mint.take (unnamed f.labels)).1 →
      ∃ id ∈ (mint.take (unnamed f.labels)).1,
        plant outlines mint = .error (.duplicateId id)) ∧
    ∀ earlier g t mint', (∀ o ∈ earlier, Keyed o) → Document (roots earlier) g →
      0 < unnamed g.labels → plant earlier mint = .ok (t, mint') →
      (∀ id ∈ t.ids, id ∈ f.labels.filterMap Draft.id) → 0 < unnamed f.labels →
      ∃ id ∈ (mint.take (unnamed f.labels)).1,
        plant outlines mint = .error (.duplicateId id) := by
  obtain rfl := hf.eq_drafts hkeyed
  have hok := hlawful.valid_nodes_iff hf.arranged mint
  have htaken : ¬ New (drafts none outlines) (mint.take (unnamed (drafts none outlines).labels)).1 →
      ∃ id ∈ (mint.take (unnamed (drafts none outlines).labels)).1,
        plant outlines mint = .error (.duplicateId id) := by
    intro hnot
    cases hplant : plant outlines mint with
    | ok planted =>
        obtain ⟨hnodes, hvalid⟩ := plant_eq_ok_iff.mp hplant
        rw [← congrArg Prod.fst hnodes] at hvalid
        exact absurd (hok.mp hvalid) hnot
    | error e =>
        obtain ⟨id, hid, rfl⟩ := hlawful.exists_minted_of_error hplant
        exact ⟨id, hid, rfl⟩
  refine ⟨fun hnew => ⟨_, plant_eq_ok_iff.mpr ⟨rfl, hok.mpr hnew⟩⟩, htaken, ?_⟩
  intro earlier g t mint' hkeyed' hg hminted hplant hkept hunnamed
  have hfirst := next_mem_ids_of_plant hkeyed' hg hminted hplant
  exact htaken fun hnew => hnew.2 _ (next_mem_take hunnamed) (hkept _ hfirst)

/-- A remark, with an id or without one. -/
def remark (id : Option NodeId) (text : String) : Outline :=
  .full id (.text ⟨.general, text⟩) [] {}

/-- One remark without an id. -/
def loneRemark : List Outline :=
  [remark none "Burns blue."]

/-- What is planted of it from the mint of seed 0. -/
def plantedRemark : Tree :=
  .leaf ⟨"rcrD2izxJ2vgVvnL", none, .text ⟨.general, "Burns blue."⟩⟩

/-- The planted remark rendered, and another one added to it. -/
def addedRemark : List Outline :=
  plantedRemark.outline ++ [remark none "Smells of ash."]

theorem next_ofSeed_zero : (Random.Mint.ofSeed 0).next.1 = "rcrD2izxJ2vgVvnL" := by
  decide +kernel

theorem take_ofSeed_zero : ((Random.Mint.ofSeed 0).take 1).1 = ["rcrD2izxJ2vgVvnL"] := by
  rw [← next_ofSeed_zero, Random.Mint.take_succ]
  rfl

theorem keyed_remark (id : Option NodeId) (text : String) : Keyed (remark id text) :=
  .full (fun _ ho => by cases ho) (fun _ ho => by simp [OutlineEdges.outlines] at ho) List.nodup_nil

theorem keyed_loneRemark : ∀ o ∈ loneRemark, Keyed o :=
  List.forall_mem_singleton.mpr (keyed_remark _ _)

theorem keyed_addedRemark : ∀ o ∈ addedRemark, Keyed o := by
  intro o ho
  rcases List.mem_cons.mp ho with rfl | ho
  · exact keyed_remark _ _
  · rw [List.mem_singleton.mp ho]
    exact keyed_remark _ _

theorem lawful_loneRemark : Lawful (drafts none loneRemark) where
  ids_nodup := by decide
  root_kind := by decide
  admits := by decide

theorem lawful_addedRemark : Lawful (drafts none addedRemark) where
  ids_nodup := by decide
  root_kind := by decide
  admits := by decide

theorem new_loneRemark : New (drafts none loneRemark) ((Random.Mint.ofSeed 0).take 1).1 := by
  rw [take_ofSeed_zero]
  decide

theorem not_new_addedRemark :
    ¬ New (drafts none addedRemark) ((Random.Mint.ofSeed 0).take 1).1 := by
  rw [take_ofSeed_zero]
  decide

theorem plant_loneRemark :
    plant loneRemark (.ofSeed 0) = .ok (plantedRemark, (Random.Mint.ofSeed 0).next.2) := by
  have harranged := (document_drafts loneRemark).arranged
  have hvalid := (lawful_loneRemark.valid_nodes_iff harranged (.ofSeed 0)).mpr new_loneRemark
  have hnodes : nodes (drafts none loneRemark) (.ofSeed 0) =
      (plantedRemark, (Random.Mint.ofSeed 0).next.2) := by
    rw [plantedRemark, ← next_ofSeed_zero]
    rfl
  rw [hnodes] at hvalid
  exact plant_eq_ok_iff.mpr ⟨hnodes, hvalid⟩

/-- The lone remark is planted. With the remark that is added to it there is an id to mint, and it
is taken, as it is whenever the ids of the planted tree are kept. -/
theorem plant_lawful_addedRemark :
    (New (drafts none loneRemark) ((Random.Mint.ofSeed 0).take 1).1 ∧
      ∃ planted, plant loneRemark (.ofSeed 0) = .ok planted) ∧
    (¬ New (drafts none addedRemark) ((Random.Mint.ofSeed 0).take 1).1 ∧
      ∃ id ∈ ((Random.Mint.ofSeed 0).take 1).1,
        plant addedRemark (.ofSeed 0) = .error (.duplicateId id)) ∧
    plant loneRemark (.ofSeed 0) = .ok (plantedRemark, (Random.Mint.ofSeed 0).next.2) ∧
      ∃ id ∈ ((Random.Mint.ofSeed 0).take 1).1,
        plant addedRemark (.ofSeed 0) = .error (.duplicateId id) := by
  obtain ⟨hplanted, -⟩ :=
    (document_drafts loneRemark).plant_lawful keyed_loneRemark lawful_loneRemark (.ofSeed 0)
  obtain ⟨-, hrefused, hagain⟩ :=
    (document_drafts addedRemark).plant_lawful keyed_addedRemark lawful_addedRemark (.ofSeed 0)
  exact ⟨⟨new_loneRemark, hplanted new_loneRemark⟩,
    ⟨not_new_addedRemark, hrefused not_new_addedRemark⟩, plant_loneRemark,
    hagain _ _ _ _ keyed_loneRemark (document_drafts _) (by decide) plant_loneRemark (by decide)
      (by decide)⟩

/-- A document without fault is refused all the same. -/
theorem not_forall_lawful_planted :
    ¬ ∀ outlines f mint, (∀ o ∈ outlines, Keyed o) → Document (roots outlines) f → Lawful f →
      ∃ planted, plant outlines mint = .ok planted := by
  intro h
  obtain ⟨planted, hplanted⟩ :=
    h addedRemark _ (.ofSeed 0) keyed_addedRemark (document_drafts _) lawful_addedRemark
  obtain ⟨hnodes, hvalid⟩ := plant_eq_ok_iff.mp hplanted
  rw [← congrArg Prod.fst hnodes] at hvalid
  exact not_new_addedRemark
    ((lawful_addedRemark.valid_nodes_iff (document_drafts addedRemark).arranged _).mp hvalid)

end Outline

end Spellwork
