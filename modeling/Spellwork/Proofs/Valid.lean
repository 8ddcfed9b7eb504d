import Spellwork.Proofs.Records
import Spellwork.Proofs.Siblings

/-!
# Valid trees

The invariant of effect trees, and that every edit keeps it: ids are distinct, no root is a damage
outcome, every other effect stands under an outcome that the effect above may own, and siblings are
in the order of their outcomes. A change that keeps ids, outcomes and kinds (`Recast`) keeps it
without any check; that is all that scaling and activation do to the effects already there.
-/

namespace Spellwork

/-! ## Owners -/

namespace Effect

/-- Whether an effect may own a node where that stands: it has to allow the outcome, and what stands
under shared rolls has to be damage. -/
def Admits (owner : Effect) (n : Node) : Prop :=
  ∃ o, n.outcome = some o ∧ owner.canOwn o = true ∧ (o = .sharedRolls → n.effect.isDamage = true)

theorem canOwn_eq_of_typeName {a b : Effect} (h : a.typeName = b.typeName) :
    a.canOwn = b.canOwn := by
  cases a <;> cases b <;> first | rfl | simp [typeName] at h

theorem isDamage_eq_of_typeName {a b : Effect} (h : a.typeName = b.typeName) :
    a.isDamage = b.isDamage := by
  cases a <;> cases b <;> first | rfl | simp [typeName] at h

theorem isDamageOutcome_eq_of_typeName {a b : Effect} (h : a.typeName = b.typeName) :
    a.isDamageOutcome = b.isDamageOutcome := by
  cases a <;> cases b <;> first | rfl | simp [typeName] at h

end Effect

namespace Tree

open Forest

theorem checkEdge_eq_ok_iff {owner : Option Effect} {p id : NodeId} {o : Outcome} {e : Effect} :
    checkEdge owner p o id e = .ok () ↔
      ∃ w, owner = some w ∧ w.canOwn o = true ∧ (o = .sharedRolls → e.isDamage = true) := by
  cases owner with
  | none => simp [checkEdge]
  | some w =>
      unfold checkEdge
      by_cases hown : w.canOwn o = true
      · by_cases hshared : o = .sharedRolls
        · subst hshared
          cases hd : e.isDamage <;> simp [hown]
        · simp [hown, hshared]
      · simp [hown]

/-! ## The invariant -/

structure Valid (t : Tree) : Prop where
  ids_nodup : t.ids.Nodup
  root_kind : ∀ n ∈ t.rootLabels, n.effect.isDamageOutcome = false
  admits : ∀ s ∈ t.subtrees, ∀ n ∈ s.2.rootLabels, s.1.effect.Admits n
  ordered : ∀ s ∈ t.subtrees, Ordered (s.2.rootLabels.map Node.outcome)

theorem valid_nil : Valid .nil where
  ids_nodup := List.nodup_nil
  root_kind := fun _ h => by cases h
  admits := fun _ h => by cases h
  ordered := fun _ h => by cases h

theorem Valid.record_ids_nodup {t : Tree} (h : Valid t) : (t.records.map Record.id).Nodup := by
  rw [map_id_records]
  exact h.ids_nodup

/-- With distinct ids, the record found for the id of a node is that of the node. -/
theorem node_of_get? {t : Tree} (hnd : t.ids.Nodup) {n : Node} (hn : n ∈ t.labels) {r : Record}
    (hr : t.get? n.id = some r) : r.node = n := by
  obtain ⟨hrec, hid⟩ := (get?_eq_some_iff hnd).mp hr
  have hlabel : r.node ∈ t.labels := by
    rw [← map_node_recordsBelow none]
    exact List.mem_map_of_mem hrec
  exact List.inj_on_of_nodup_map hnd hlabel hn hid

/-! ## Insertion -/

theorem rootLabels_placeBelow (p : NodeId) (m : Node) (t : Tree) :
    (placeBelow p m t).rootLabels = t.rootLabels := by
  induction t with
  | nil => rfl
  | node n c r _ ih =>
      unfold placeBelow
      split
      · rfl
      · simp [ih]

theorem placeBelow_of_not_mem {p : NodeId} {m : Node} {t : Tree} (h : p ∉ t.ids) :
    placeBelow p m t = t := by
  induction t with
  | nil => rfl
  | node n c r ihc ihr =>
      rw [mem_ids_node, not_or, not_or] at h
      unfold placeBelow
      rw [if_neg (Ne.symm h.1), ihc h.2.1, ihr h.2.2]

theorem labels_placeAmong_perm (m : Node) (t : Tree) :
    (placeAmong m t).labels.Perm (m :: t.labels) := by
  induction t with
  | nil => exact List.Perm.refl _
  | node n c r _ ih =>
      unfold placeAmong
      split
      · have hmid : (c.labels ++ (placeAmong m r).labels).Perm (m :: (c.labels ++ r.labels)) :=
          (ih.append_left c.labels).trans List.perm_middle
        exact (hmid.cons n).trans (List.Perm.swap m n _)
      · exact List.Perm.refl _

theorem labels_placeBelow_perm {p : NodeId} {m : Node} {t : Tree} (hnd : t.ids.Nodup)
    (hp : p ∈ t.ids) : (placeBelow p m t).labels.Perm (m :: t.labels) := by
  induction t with
  | nil => cases hp
  | node n c r ihc ihr =>
      obtain ⟨-, -, hndc, hndr, hdisj⟩ := nodup_ids_node hnd
      unfold placeBelow
      by_cases hid : n.id = p
      · rw [if_pos hid]
        exact (((labels_placeAmong_perm m c).append_right r.labels).cons n).trans
          (List.Perm.swap m n _)
      · rw [if_neg hid]
        rcases mem_ids_node.mp hp with hp | hp | hp
        · exact absurd hp.symm hid
        · rw [placeBelow_of_not_mem (hdisj p hp)]
          exact (((ihc hndc hp).append_right r.labels).cons n).trans (List.Perm.swap m n _)
        · have hpc : p ∉ ids c := fun hmem => hdisj p hmem hp
          rw [placeBelow_of_not_mem hpc]
          have hmid : (c.labels ++ (placeBelow p m r).labels).Perm (m :: (c.labels ++ r.labels)) :=
            ((ihr hndr hp).append_left c.labels).trans List.perm_middle
          exact (hmid.cons n).trans (List.Perm.swap m n _)

theorem mem_subtrees_placeAmong {m : Node} {t : Tree} {s : Node × Tree} :
    s ∈ (placeAmong m t).subtrees ↔ s = (m, .nil) ∨ s ∈ t.subtrees := by
  induction t with
  | nil => simp [placeAmong, leaf]
  | node n c r _ ih =>
      unfold placeAmong
      split
      · simp only [subtrees_node, List.mem_cons, List.mem_append, ih]
        tauto
      · simp

/-- What stands below a node after an insertion: nothing below the new node, the new node among
those below its parent, and for all other nodes roots as before. -/
theorem mem_subtrees_placeBelow {p : NodeId} {m : Node} {t : Tree} {s : Node × Tree}
    (h : s ∈ (placeBelow p m t).subtrees) :
    s = (m, .nil) ∨ ∃ c, (s.1, c) ∈ t.subtrees ∧
      (s.2.rootLabels = c.rootLabels ∨ s.1.id = p ∧ s.2 = placeAmong m c) := by
  induction t with
  | nil => cases h
  | node n c r ihc ihr =>
      unfold placeBelow at h
      split at h
      · rename_i hid
        simp only [subtrees_node, List.mem_cons, List.mem_append, mem_subtrees_placeAmong] at h
        rcases h with rfl | (h | h) | h
        · exact Or.inr ⟨c, by simp, Or.inr ⟨hid, rfl⟩⟩
        · exact Or.inl h
        · exact Or.inr ⟨s.2, by simp [h], Or.inl rfl⟩
        · exact Or.inr ⟨s.2, by simp [h], Or.inl rfl⟩
      · simp only [subtrees_node, List.mem_cons, List.mem_append] at h
        rcases h with rfl | h | h
        · exact Or.inr ⟨c, by simp, Or.inl (rootLabels_placeBelow p m c)⟩
        · rcases ihc h with rfl | ⟨d, hd, hrest⟩
          · exact Or.inl rfl
          · exact Or.inr ⟨d, by simp [hd], hrest⟩
        · rcases ihr h with rfl | ⟨d, hd, hrest⟩
          · exact Or.inl rfl
          · exact Or.inr ⟨d, by simp [hd], hrest⟩

theorem not_mem_ids_of_contains {t : Tree} {id : NodeId} (h : ¬ t.contains id = true) :
    id ∉ t.ids :=
  fun hmem => h (contains_iff.mpr hmem)

theorem Valid.append_root {t : Tree} {n : Node} (h : Valid t) (hfresh : n.id ∉ t.ids)
    (hkind : n.effect.isDamageOutcome = false) : Valid (t ++ .leaf n) where
  ids_nodup := by
    have hids : ids (t ++ .leaf n) = t.ids ++ [n.id] := by simp [ids, leaf]
    rw [hids]
    exact List.nodup_append.mpr ⟨h.ids_nodup, List.nodup_singleton _, fun a ha b hb heq => by
      rw [List.mem_singleton.mp hb] at heq
      exact hfresh (heq ▸ ha)⟩
  root_kind := by
    intro m hm
    simp only [rootLabels_append, leaf, rootLabels_node, rootLabels_nil, List.mem_append,
      List.mem_singleton] at hm
    rcases hm with hm | rfl
    · exact h.root_kind m hm
    · exact hkind
  admits := by
    intro s hs m hm
    simp only [subtrees_append, leaf, subtrees_node, subtrees_nil, List.append_nil,
      List.mem_append, List.mem_singleton] at hs
    rcases hs with hs | rfl
    · exact h.admits s hs m hm
    · cases hm
  ordered := by
    intro s hs
    simp only [subtrees_append, leaf, subtrees_node, subtrees_nil, List.append_nil,
      List.mem_append, List.mem_singleton] at hs
    rcases hs with hs | rfl
    · exact h.ordered s hs
    · exact Ordered.nil

theorem Valid.placeBelow {t : Tree} {p : NodeId} {m : Node} (h : Valid t) (hfresh : m.id ∉ t.ids)
    (hp : p ∈ t.ids) (hadm : ∀ s ∈ t.subtrees, s.1.id = p → s.1.effect.Admits m) :
    Valid (placeBelow p m t) where
  ids_nodup := by
    have hperm : (ids (Tree.placeBelow p m t)).Perm (m.id :: t.ids) :=
      (labels_placeBelow_perm h.ids_nodup hp).map Node.id
    exact hperm.nodup_iff.mpr (List.nodup_cons.mpr ⟨hfresh, h.ids_nodup⟩)
  root_kind := by
    rw [rootLabels_placeBelow]
    exact h.root_kind
  admits := by
    intro s hs n hn
    rcases mem_subtrees_placeBelow hs with rfl | ⟨c, hc, hroots | ⟨hid, hamong⟩⟩
    · cases hn
    · rw [hroots] at hn
      exact h.admits _ hc n hn
    · rw [hamong, rootLabels_placeAmong] at hn
      rcases mem_placeBy.mp hn with rfl | hn
      · exact hadm (s.1, c) hc hid
      · exact h.admits _ hc n hn
  ordered := by
    intro s hs
    rcases mem_subtrees_placeBelow hs with rfl | ⟨c, hc, hroots | ⟨-, hamong⟩⟩
    · exact Ordered.nil
    · rw [hroots]
      exact h.ordered _ hc
    · rw [hamong, rootLabels_placeAmong]
      exact ordered_placeBy (h.ordered _ hc)

/-! ### What an insertion does -/

theorem attach_cases (slot : Slot) (id : NodeId) (e : Effect) (t : Tree) :
    (∃ err, t.attach slot id e = (.error err, t)) ∨
    (slot = none ∧ id ∉ t.ids ∧ e.isDamageOutcome = false ∧
      t.attach slot id e = (.ok (), t ++ .leaf ⟨id, none, e⟩)) ∨
    (∃ p o r, slot = some (p, o) ∧ id ∉ t.ids ∧ t.get? p = some r ∧ r.effect.canOwn o = true ∧
      (o = .sharedRolls → e.isDamage = true) ∧
      t.attach slot id e = (.ok (), Tree.placeBelow p ⟨id, some o, e⟩ t)) := by
  by_cases hc : t.contains id = true
  · exact Or.inl ⟨.duplicateId id, by simp [attach, hc]⟩
  · have hfresh := not_mem_ids_of_contains hc
    cases slot with
    | none =>
        cases hk : e.isDamageOutcome with
        | true => exact Or.inl ⟨.outcomeAsRoot id, by simp [attach, hc, hk]⟩
        | false => exact Or.inr (Or.inl ⟨rfl, hfresh, rfl, by simp [attach, hc, hk]⟩)
    | some place =>
        obtain ⟨p, o⟩ := place
        cases hedge : checkEdge ((t.get? p).map Record.effect) p o id e with
        | error err => exact Or.inl ⟨err, by simp [attach, hc, hedge]⟩
        | ok u =>
            obtain ⟨w, hw, hown, hshared⟩ := checkEdge_eq_ok_iff.mp hedge
            obtain ⟨r, hr, rfl⟩ := Option.map_eq_some_iff.mp hw
            exact Or.inr (Or.inr ⟨p, o, r, rfl, hfresh, hr, hown, hshared,
              by simp [attach, hc, hedge]⟩)

theorem attach_eq_of_error {t : Tree} {slot : Slot} {id : NodeId} {e : Effect} {err : EditError}
    (h : (t.attach slot id e).1 = .error err) : (t.attach slot id e).2 = t := by
  rcases attach_cases slot id e t with ⟨_, heq⟩ | ⟨-, -, -, heq⟩ | ⟨_, _, _, -, -, -, -, -, heq⟩
  · rw [heq]
  · rw [heq] at h
    cases h
  · rw [heq] at h
    cases h

theorem insert_eq_ok_iff {slot : Slot} {id : NodeId} {e : Effect} {t t' : Tree} :
    t.insert slot id e = .ok t' ↔ t.attach slot id e = (.ok (), t') := by
  unfold insert
  obtain ⟨res, t''⟩ := t.attach slot id e
  cases res with
  | ok u => simp
  | error err => simp

/-- All that an insertion can have done. -/
theorem insert_cases {t t' : Tree} {slot : Slot} {id : NodeId} {e : Effect}
    (h : t.insert slot id e = .ok t') :
    (slot = none ∧ id ∉ t.ids ∧ e.isDamageOutcome = false ∧ t' = t ++ .leaf ⟨id, none, e⟩) ∨
    (∃ p o r, slot = some (p, o) ∧ id ∉ t.ids ∧ t.get? p = some r ∧ r.effect.canOwn o = true ∧
      (o = .sharedRolls → e.isDamage = true) ∧ t' = Tree.placeBelow p ⟨id, some o, e⟩ t) := by
  rw [insert_eq_ok_iff] at h
  rcases attach_cases slot id e t with ⟨_, heq⟩ | ⟨hslot, hfresh, hkind, heq⟩ |
    ⟨p, o, r, hslot, hfresh, hr, hown, hshared, heq⟩
  · rw [heq] at h
    cases h
  · rw [heq] at h
    cases h
    exact Or.inl ⟨hslot, hfresh, hkind, rfl⟩
  · rw [heq] at h
    cases h
    exact Or.inr ⟨p, o, r, hslot, hfresh, hr, hown, hshared, rfl⟩

theorem Valid.attach {t : Tree} (h : Valid t) (slot : Slot) (id : NodeId) (e : Effect) :
    Valid (t.attach slot id e).2 := by
  rcases attach_cases slot id e t with ⟨err, heq⟩ | ⟨-, hfresh, hkind, heq⟩ |
    ⟨p, o, r, -, hfresh, hr, hown, hshared, heq⟩
  · rw [heq]
    exact h
  · rw [heq]
    exact h.append_root hfresh hkind
  · rw [heq]
    refine h.placeBelow hfresh (mem_ids_of_get? hr) fun s hs hsid => ?_
    rw [← hsid] at hr
    rw [← node_of_get? h.ids_nodup (mem_labels_of_mem_subtrees hs) hr]
    exact ⟨o, rfl, hown, hshared⟩

theorem Valid.insert {t t' : Tree} (h : Valid t) {slot : Slot} {id : NodeId} {e : Effect}
    (hok : t.insert slot id e = .ok t') : Valid t' := by
  have hafter := h.attach slot id e
  rw [insert_eq_ok_iff.mp hok] at hafter
  exact hafter

/-! ## Change -/

theorem Valid.map {t : Tree} (h : Valid t) {f : Node → Node} (hid : ∀ n, (f n).id = n.id)
    (hout : ∀ n, (f n).outcome = n.outcome)
    (hroot : ∀ n ∈ t.rootLabels, (f n).effect.isDamageOutcome = false)
    (hadm : ∀ s ∈ t.subtrees, ∀ n ∈ s.2.rootLabels, (f s.1).effect.Admits (f n)) :
    Valid (t.map f) where
  ids_nodup := by
    have hids : ids (t.map f) = t.ids := by
      simp [ids, List.map_map, Function.comp_def, hid]
    rw [hids]
    exact h.ids_nodup
  root_kind := by
    intro n hn
    rw [rootLabels_map] at hn
    obtain ⟨m, hm, rfl⟩ := List.mem_map.mp hn
    exact hroot m hm
  admits := by
    intro s hs n hn
    rw [subtrees_map] at hs
    obtain ⟨x, hx, rfl⟩ := List.mem_map.mp hs
    rw [rootLabels_map] at hn
    obtain ⟨m, hm, rfl⟩ := List.mem_map.mp hn
    exact hadm x hx m hm
  ordered := by
    intro s hs
    rw [subtrees_map] at hs
    obtain ⟨x, hx, rfl⟩ := List.mem_map.mp hs
    have hsame : (x.2.rootLabels.map f).map Node.outcome = x.2.rootLabels.map Node.outcome := by
      simp [List.map_map, Function.comp_def, hout]
    rw [rootLabels_map, hsame]
    exact h.ordered x hx

/-- A relabelling that keeps the id, the outcome and the kind of every node. -/
structure Recast (f : Node → Node) : Prop where
  id : ∀ n, (f n).id = n.id
  outcome : ∀ n, (f n).outcome = n.outcome
  typeName : ∀ n, (f n).effect.typeName = n.effect.typeName

theorem Valid.recast {t : Tree} (h : Valid t) {f : Node → Node} (hf : Recast f) :
    Valid (t.map f) := by
  refine h.map hf.id hf.outcome (fun n hn => ?_) fun s hs n hn => ?_
  · rw [Effect.isDamageOutcome_eq_of_typeName (hf.typeName n)]
    exact h.root_kind n hn
  · obtain ⟨o, ho, hown, hshared⟩ := h.admits s hs n hn
    refine ⟨o, (hf.outcome n).trans ho, ?_, ?_⟩
    · rwa [Effect.canOwn_eq_of_typeName (hf.typeName s.1)]
    · rwa [Effect.isDamage_eq_of_typeName (hf.typeName n)]

/-- A node after the effect of one id is changed. -/
def adjustNode (id : NodeId) (change : Effect → Effect) (n : Node) : Node :=
  if n.id = id then { n with effect := change n.effect } else n

theorem adjust_eq_map (id : NodeId) (change : Effect → Effect) (t : Tree) :
    t.adjust id change = t.map (adjustNode id change) := rfl

@[simp] theorem id_adjustNode (id : NodeId) (change : Effect → Effect) (n : Node) :
    (adjustNode id change n).id = n.id := by
  unfold adjustNode
  split <;> rfl

@[simp] theorem outcome_adjustNode (id : NodeId) (change : Effect → Effect) (n : Node) :
    (adjustNode id change n).outcome = n.outcome := by
  unfold adjustNode
  split <;> rfl

theorem effect_adjustNode (id : NodeId) (change : Effect → Effect) (n : Node) :
    (adjustNode id change n).effect = if n.id = id then change n.effect else n.effect := by
  unfold adjustNode
  split <;> rfl

theorem recast_adjustNode {id : NodeId} {change : Effect → Effect}
    (hkind : ∀ e, (change e).typeName = e.typeName) : Recast (adjustNode id change) where
  id := id_adjustNode id change
  outcome := outcome_adjustNode id change
  typeName := fun n => by
    rw [effect_adjustNode]
    split
    · exact hkind n.effect
    · rfl

theorem checkChange_eq_ok {r : Record} {es : List (Outcome × List NodeId)} {e : Effect}
    (h : checkChange r es e = .ok ()) :
    (r.parent = none → e.isDamageOutcome = false) ∧
      (r.outcome = some .sharedRolls → e.isDamage = true) ∧
      ∀ edge ∈ es, e.canOwn edge.1 = true := by
  unfold checkChange at h
  split at h
  · cases h
  · rename_i hroot
    split at h
    · cases h
    · rename_i hshared
      cases hf : es.find? fun edge => !e.canOwn edge.1 with
      | some edge =>
          rw [hf] at h
          cases h
      | none =>
          refine ⟨fun hp => ?_, fun ho => ?_, fun edge hedge => ?_⟩
          · simpa [hp] using hroot
          · simpa [ho] using hshared
          · simpa using List.find?_eq_none.mp hf edge hedge

/-- Every outcome under which something stands below a node is that of an edge. -/
theorem exists_edge_of_child {t : Tree} (hnd : t.ids.Nodup) {s : Node × Tree}
    (hs : s ∈ t.subtrees) {n : Node} (hn : n ∈ s.2.rootLabels) {o : Outcome}
    (ho : n.outcome = some o) : ∃ edge ∈ (t.edges? s.1.id).getD [], edge.1 = o := by
  have hbranch : (o, n.id) ∈ t.branches s.1.id := by
    rw [branches_eq hnd, ← map_record_rootLabels hnd hs, List.mem_filterMap]
    exact ⟨n.record (some s.1.id), List.mem_map_of_mem hn, by simp [Node.record, ho]⟩
  rw [getD_edges?]
  exact exists_edge_of_mem hbranch

theorem update_eq_ok_iff {t t' : Tree} {id : NodeId} {change : Effect → Effect} :
    t.update id change = .ok t' ↔
      ∃ r, t.get? id = some r ∧
        checkChange r ((t.edges? id).getD []) (change r.effect) = .ok () ∧
        t' = t.adjust id change := by
  unfold update
  cases t.get? id with
  | none => simp
  | some r =>
      simp only [Option.some.injEq, exists_eq_left']
      cases checkChange r ((t.edges? id).getD []) (change r.effect) with
      | error e => simp
      | ok u => simp [eq_comm]

theorem Valid.update {t t' : Tree} (h : Valid t) {id : NodeId} {change : Effect → Effect}
    (hok : t.update id change = .ok t') : Valid t' := by
  obtain ⟨r, hget, hcheck, rfl⟩ := update_eq_ok_iff.mp hok
  obtain ⟨hroot, hshared, hedges⟩ := checkChange_eq_ok hcheck
  obtain ⟨hrec, rfl⟩ := (get?_eq_some_iff h.ids_nodup).mp hget
  -- the node of the id is that of the record, which the check looked at
  have hfound : ∀ {n : Node}, n ∈ t.labels → n.id = r.id → r.node = n := by
    intro n hn heq
    rw [← heq] at hget
    exact node_of_get? h.ids_nodup hn hget
  rw [adjust_eq_map]
  refine h.map (id_adjustNode _ _) (outcome_adjustNode _ _) (fun n hn => ?_)
    fun s hs n hn => ?_
  · rw [effect_adjustNode]
    split
    · rename_i heq
      have hsame : r = n.record none :=
        Record.eq_of_id h.record_ids_nodup hrec (record_mem_of_root hn) heq.symm
      subst hsame
      exact hroot rfl
    · exact h.root_kind n hn
  · obtain ⟨o, ho, hown, hdamage⟩ := h.admits s hs n hn
    refine ⟨o, (outcome_adjustNode _ _ n).trans ho, ?_, fun hso => ?_⟩
    · rw [effect_adjustNode]
      split
      · rename_i heq
        obtain ⟨edge, hedge, rfl⟩ := exists_edge_of_child h.ids_nodup hs hn ho
        rw [heq] at hedge
        rw [← hfound (mem_labels_of_mem_subtrees hs) heq]
        exact hedges edge hedge
      · exact hown
    · rw [effect_adjustNode]
      split
      · rename_i heq
        have hlabel := labels_subset_of_mem_subtrees hs (mem_labels_of_mem_rootLabels hn)
        have hnode := hfound hlabel heq
        rw [← hnode]
        rw [← hnode, hso] at ho
        exact hshared ho
      · exact hdamage hso

/-! ## Removal -/

theorem Valid.prune {t : Tree} (h : Valid t) (p : Node → Bool) : Valid (t.prune p) where
  ids_nodup := ((labels_prune_sublist p t).map Node.id).nodup h.ids_nodup
  root_kind := by
    intro n hn
    rw [rootLabels_prune] at hn
    exact h.root_kind n (List.mem_filter.mp hn).1
  admits := by
    intro s hs n hn
    obtain ⟨c, hc, heq⟩ := exists_of_mem_subtrees_prune hs
    rw [heq, rootLabels_prune] at hn
    exact h.admits _ hc n (List.mem_filter.mp hn).1
  ordered := by
    intro s hs
    obtain ⟨c, hc, heq⟩ := exists_of_mem_subtrees_prune hs
    rw [heq, rootLabels_prune]
    exact List.Pairwise.sublist (List.filter_sublist.map Node.outcome) (h.ordered _ hc)

theorem delete_eq_ok_iff {t t' : Tree} {id : NodeId} :
    t.delete id = .ok t' ↔
      id ∈ t.ids ∧ t' = Forest.prune (fun n => (doomed id t.flatten).contains n.id) t := by
  unfold delete
  by_cases hc : t.contains id = true
  · simp [hc, contains_iff.mp hc, eq_comm]
  · simp [hc, not_mem_ids_of_contains hc]

theorem Valid.delete {t t' : Tree} (h : Valid t) {id : NodeId} (hok : t.delete id = .ok t') :
    Valid t' := by
  obtain ⟨-, rfl⟩ := delete_eq_ok_iff.mp hok
  exact h.prune _

end Tree

end Spellwork
