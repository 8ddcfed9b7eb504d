import Spellwork.Proofs.Insertion
import Spellwork.Proofs.Planting

/-!
# Edits that commute

Two edits that stay out of each other's way may be made in either order. An insertion is a verdict,
which looks at one id and one owner and nothing else, and a place among the siblings (`insert_eq`);
a removal prunes what the pass over the records has gathered. So commuting has two halves. What one
edit looks at is not touched by the other: an insertion changes no look-up but that of the new id, a
removal none outside of its block. And the places fit together, in the siblings' order of outcomes:
newcomers of different outcomes go where they would have gone alone, and pruning passes by a
newcomer that stays.
-/

namespace Spellwork

namespace Forest

variable {α : Type u}

/-- Pruning twice is pruning once, by either property. -/
theorem prune_prune (p q : α → Bool) (t : Forest α) :
    (t.prune p).prune q = t.prune fun a => p a || q a := by
  induction t with
  | nil => rfl
  | node a c r ihc ihr =>
      by_cases hp : p a = true
      · simp [prune, hp, ihr]
      · by_cases hq : q a = true
        · simp [prune, hp, hq, ihr]
        · simp [prune, hp, hq, ihc, ihr]

theorem prune_comm (p q : α → Bool) (t : Forest α) :
    (t.prune p).prune q = (t.prune q).prune p := by
  rw [prune_prune, prune_prune]
  exact congrArg t.prune (funext fun a => Bool.or_comm (p a) (q a))

end Forest

namespace Tree

open Forest

/-! ## An insertion as verdict and place -/

/-- Puts a node last in a place that it may take. -/
def put : Slot → Node → Tree → Tree
  | none, n, t => t ++ .leaf n
  | some (p, _), n, t => placeBelow p n t

/-- An insertion that is allowed puts the new node in its place. -/
theorem insert_eq (slot : Slot) (id : NodeId) (e : Effect) (t : Tree) :
    t.insert slot id e =
      (t.attach slot id e).1.map fun _ => put slot ⟨id, slot.map Prod.snd, e⟩ t := by
  unfold insert
  rcases attach_cases slot id e t with
    ⟨err, heq⟩ | ⟨rfl, -, -, heq⟩ | ⟨p, o, r, rfl, -, -, -, -, heq⟩
  · rw [heq]
    rfl
  · rw [heq]
    rfl
  · rw [heq]
    rfl

/-- Whether an insertion is allowed is seen from the new id and from the effect above. -/
theorem verdict_congr {t u : Tree} {slot : Slot} {id : NodeId} (e : Effect)
    (hid : u.get? id = t.get? id) (howner : ∀ p, slot.map Prod.fst = some p → u.get? p = t.get? p) :
    (u.attach slot id e).1 = (t.attach slot id e).1 := by
  have hcontains : u.contains id = t.contains id := congrArg Option.isSome hid
  unfold attach
  rw [hcontains]
  cases t.contains id with
  | true => rfl
  | false =>
      cases slot with
      | none => cases hkind : e.isDamageOutcome <;> simp
      | some place =>
          obtain ⟨p, o⟩ := place
          simp only [howner p rfl]
          cases checkEdge ((t.get? p).map Record.effect) p o id e <;> simp

theorem insert_eq_ok_iff_put {slot : Slot} {id : NodeId} {e : Effect} {t t' : Tree} :
    t.insert slot id e = .ok t' ↔
      (t.attach slot id e).1 = .ok () ∧ t' = put slot ⟨id, slot.map Prod.snd, e⟩ t := by
  rw [insert_eq]
  cases (t.attach slot id e).1 with
  | error err => simp [Except.map]
  | ok u => simp [Except.map, eq_comm]

/-! ## What an edit leaves to be looked up -/

/-- An insertion changes no look-up but that of the new id. -/
theorem Valid.get?_insert {t t' : Tree} (h : Valid t) {slot : Slot} {id : NodeId} {e : Effect}
    (hok : t.insert slot id e = .ok t') {x : NodeId} (hx : x ≠ id) : t'.get? x = t.get? x := by
  obtain ⟨before, within, after, hrecords, hinserted, -⟩ := h.exists_insert_block hok
  rw [get?, get?, hrecords, hinserted, List.find?_append,
    List.find?_cons_of_neg (by simpa using hx.symm), ← List.find?_append]

/-- A removal changes no look-up outside of its block. -/
theorem Valid.get?_delete {t t' : Tree} (h : Valid t) {s : Node × Tree} (hs : s ∈ t.subtrees)
    (hok : t.delete s.1.id = .ok t') {x : NodeId} (hx : x ∉ s.1.id :: s.2.ids) :
    t'.get? x = t.get? x := by
  rw [get?, get?, records_delete h hs hok, List.find?_filter]
  congr 1
  funext r
  by_cases hid : r.id = x
  · simp [hid, hx]
  · simp [hid]

/-! ## Insertion and insertion -/

theorem not_notAfter_of_lt {a b : Option Outcome} (h : outcomeRank a < outcomeRank b) :
    ¬ notAfter b a = true := by
  rw [notAfter_iff]
  omega

/-- The lower of two newcomers goes where it would go without the higher one, and the other way
round. -/
theorem placeAmong_placeAmong_of_lt {low high : Node}
    (h : outcomeRank low.outcome < outcomeRank high.outcome) (t : Tree) :
    placeAmong high (placeAmong low t) = placeAmong low (placeAmong high t) := by
  have hpass : notAfter low.outcome high.outcome = true := notAfter_iff.mpr (Nat.le_of_lt h)
  have hstop : ¬ notAfter high.outcome low.outcome = true := not_notAfter_of_lt h
  induction t with
  | nil => simp [placeAmong, leaf, hpass, hstop]
  | node m c r _ ih =>
      by_cases hlow : notAfter m.outcome low.outcome = true
      · have hhigh : notAfter m.outcome high.outcome = true := notAfter_trans hlow hpass
        simp only [placeAmong, if_pos hlow, if_pos hhigh, ih]
      · by_cases hhigh : notAfter m.outcome high.outcome = true
        · simp only [placeAmong, if_neg hlow, if_pos hhigh, if_pos hpass]
        · simp only [placeAmong, if_neg hlow, if_neg hhigh, if_pos hpass, if_neg hstop]

theorem placeAmong_comm {m n : Node} (h : m.outcome ≠ n.outcome) (ho : ∃ o, m.outcome = some o)
    (ho' : ∃ o, n.outcome = some o) (t : Tree) :
    placeAmong m (placeAmong n t) = placeAmong n (placeAmong m t) := by
  obtain ⟨o, ho⟩ := ho
  obtain ⟨o', ho'⟩ := ho'
  have hne : o ≠ o' := fun heq => h (by rw [ho, ho', heq])
  have hm : outcomeRank m.outcome = o.rank := by rw [ho]; rfl
  have hn : outcomeRank n.outcome = o'.rank := by rw [ho']; rfl
  rcases Nat.lt_or_gt_of_ne fun heq => hne (Outcome.rank_injective heq) with hlt | hgt
  · exact (placeAmong_placeAmong_of_lt (by rw [hm, hn]; exact hlt) t).symm
  · exact placeAmong_placeAmong_of_lt (by rw [hm, hn]; exact hgt) t

theorem placeBelow_placeAmong {p : NodeId} {m n : Node} (hm : m.id ≠ p) (t : Tree) :
    placeBelow p n (placeAmong m t) = placeAmong m (placeBelow p n t) := by
  induction t with
  | nil => simp [placeAmong, placeBelow, leaf, hm]
  | node k c r _ ih =>
      by_cases hk : k.id = p
      · by_cases hkm : notAfter k.outcome m.outcome = true
        · simp [placeAmong, placeBelow, hk, hkm]
        · simp [placeAmong, placeBelow, hk, hkm, hm]
      · by_cases hkm : notAfter k.outcome m.outcome = true
        · simp [placeAmong, placeBelow, hk, hkm, ih]
        · simp [placeAmong, placeBelow, hk, hkm, hm]

/-- Below two effects, or below one under two outcomes, newcomers do not see each other. -/
theorem placeBelow_comm {p q : NodeId} {o o' : Outcome} {m n : Node} (hm : m.outcome = some o)
    (hn : n.outcome = some o') (hplace : (p, o) ≠ (q, o')) (hmq : m.id ≠ q) (hnp : n.id ≠ p)
    (t : Tree) : placeBelow q n (placeBelow p m t) = placeBelow p m (placeBelow q n t) := by
  induction t with
  | nil => rfl
  | node k c r ihc ihr =>
      by_cases hkp : k.id = p
      · by_cases hkq : k.id = q
        · have hne : n.outcome ≠ m.outcome := by
            rw [hm, hn]
            rintro heq
            cases heq
            exact hplace (by rw [← hkp, ← hkq])
          simp only [placeBelow, if_pos hkp, if_pos hkq, placeAmong_comm hne ⟨_, hn⟩ ⟨_, hm⟩]
        · simp only [placeBelow, if_pos hkp, if_neg hkq, placeBelow_placeAmong hmq]
      · by_cases hkq : k.id = q
        · simp only [placeBelow, if_neg hkp, if_pos hkq, placeBelow_placeAmong hnp]
        · simp only [placeBelow, if_neg hkp, if_neg hkq, ihc, ihr]

theorem placeBelow_append_leaf {p : NodeId} {m n : Node} (hm : m.id ≠ p) (t : Tree) :
    placeBelow p n (t ++ .leaf m) = placeBelow p n t ++ .leaf m := by
  induction t with
  | nil => simp [placeBelow, leaf, hm]
  | node k c r _ ih =>
      rw [node_append, placeBelow, placeBelow, ih]
      split <;> rfl

theorem put_comm {slot slot' : Slot} (hslots : slot ≠ slot') {id id' : NodeId} {e e' : Effect}
    (hid : slot.map Prod.fst ≠ some id') (hid' : slot'.map Prod.fst ≠ some id) (t : Tree) :
    put slot' ⟨id', slot'.map Prod.snd, e'⟩ (put slot ⟨id, slot.map Prod.snd, e⟩ t) =
      put slot ⟨id, slot.map Prod.snd, e⟩ (put slot' ⟨id', slot'.map Prod.snd, e'⟩ t) := by
  cases slot with
  | none =>
      cases slot' with
      | none => exact absurd rfl hslots
      | some place => exact placeBelow_append_leaf (fun heq => hid' (congrArg some heq.symm)) t
  | some place =>
      cases slot' with
      | none => exact (placeBelow_append_leaf (fun heq => hid (congrArg some heq.symm)) t).symm
      | some place' =>
          exact placeBelow_comm rfl rfl (fun heq => hslots (congrArg some heq))
            (fun heq => hid' (congrArg some heq.symm)) (fun heq => hid (congrArg some heq.symm)) t

theorem Valid.insert_insert {t t' : Tree} (h : Valid t) {slot slot' : Slot} (hslots : slot ≠ slot')
    {id id' : NodeId} (hids : id ≠ id') (hid : slot.map Prod.fst ≠ some id')
    (hid' : slot'.map Prod.fst ≠ some id) {e e' : Effect}
    (hok : (t.insert slot id e).bind (Tree.insert slot' id' e') = .ok t') :
    (t.insert slot' id' e').bind (Tree.insert slot id e) = .ok t' := by
  obtain ⟨u, hfirst, hsecond⟩ := Outline.exists_of_bind_eq_ok hok
  obtain ⟨hverdict, rfl⟩ := insert_eq_ok_iff_put.mp hfirst
  obtain ⟨hverdict', rfl⟩ := insert_eq_ok_iff_put.mp hsecond
  -- the second insertion looks at nothing that the first one has touched
  rw [verdict_congr e' (h.get?_insert hfirst hids.symm) fun p hp =>
    h.get?_insert hfirst fun heq => hid' (heq ▸ hp)] at hverdict'
  have hfirst' := insert_eq_ok_iff_put.mpr ⟨hverdict', rfl⟩
  rw [hfirst']
  refine insert_eq_ok_iff_put.mpr ⟨?_, put_comm hslots hid hid' t⟩
  rw [verdict_congr e (h.get?_insert hfirst' hids) fun p hp =>
    h.get?_insert hfirst' fun heq => hid (heq ▸ hp)]
  exact hverdict

/-! ## Insertion and removal -/

theorem subset_goneAfter (gone : List NodeId) (rs : List Record) : gone ⊆ goneAfter gone rs := by
  induction rs generalizing gone with
  | nil => exact List.Subset.refl gone
  | cons r rs ih =>
      rw [goneAfter, List.foldl_cons]
      split
      · exact List.Subset.trans (List.subset_append_left gone [r.id]) (ih _)
      · exact ih gone

/-- The pass of a removal takes no notice of a record whose parent stays. -/
theorem goneAfter_insert {gone : List NodeId} {front back : List Record} {r : Record}
    (hr : ∀ p, r.parent = some p → p ∉ goneAfter gone (front ++ back)) :
    goneAfter gone (front ++ r :: back) = goneAfter gone (front ++ back) := by
  have hstay : goneAfter (goneAfter gone front) [r] = goneAfter gone front := by
    refine goneAfter_eq_self fun x hx p hp hmem => ?_
    rw [List.mem_singleton.mp hx] at hp
    rw [goneAfter_append] at hr
    exact hr p hp (subset_goneAfter _ back hmem)
  rw [goneAfter_append, goneAfter_append gone front back, ← List.singleton_append,
    goneAfter_append, hstay]

theorem Valid.doomed_insert {t t' : Tree} (h : Valid t) {slot : Slot} {id : NodeId} {e : Effect}
    (hok : t.insert slot id e = .ok t') {x : NodeId}
    (hstay : ∀ p, slot.map Prod.fst = some p → p ∉ doomed x t.flatten) :
    doomed x t'.flatten = doomed x t.flatten := by
  obtain ⟨before, within, after, hrecords, hinserted, -⟩ := h.exists_insert_block hok
  simp only [doomed_eq, flatten, flattenUnder, goneAfter_rehome] at hstay ⊢
  rw [hrecords] at hstay ⊢
  rw [hinserted]
  exact goneAfter_insert hstay

/-- Where every sibling is later a newcomer comes first. -/
theorem placeAmong_of_late {n : Node} {t : Tree}
    (h : ∀ m ∈ t.rootLabels, ¬ notAfter m.outcome n.outcome = true) :
    placeAmong n t = .node n .nil t := by
  cases t with
  | nil => rfl
  | node m c r => rw [placeAmong, if_neg (h m List.mem_cons_self)]

/-- A newcomer that stays goes among the siblings that stay as it would among all of them. -/
theorem prune_placeAmong_of_stays {gone : Node → Bool} {n : Node} (hn : ¬ gone n = true) {t : Tree}
    (h : Ordered (t.rootLabels.map Node.outcome)) :
    (placeAmong n t).prune gone = placeAmong n (t.prune gone) := by
  induction t with
  | nil => simp [placeAmong, leaf, prune, hn]
  | node m c r _ ih =>
      obtain ⟨hm, hr⟩ := List.pairwise_cons.mp h
      by_cases hmn : notAfter m.outcome n.outcome = true
      · by_cases hgone : gone m = true
        · simp only [placeAmong, if_pos hmn, prune, if_pos hgone, ih hr]
        · simp only [placeAmong, if_pos hmn, prune, if_neg hgone, ih hr]
      · -- all siblings are later, so those that stay are
        have hlate : ∀ k ∈ rootLabels (Forest.prune gone (.node m c r)),
            ¬ notAfter k.outcome n.outcome = true := by
          intro k hk hkn
          rw [rootLabels_prune] at hk
          rcases List.mem_cons.mp (List.mem_filter.mp hk).1 with rfl | hk
          · exact hmn hkn
          · exact hmn (notAfter_trans (hm _ (List.mem_map_of_mem hk)) hkn)
        rw [placeAmong, if_neg hmn, placeAmong_of_late hlate, prune, if_neg hn]
        rfl

theorem prune_placeBelow_of_stays {gone : Node → Bool} {p : NodeId} {n : Node}
    (hn : ¬ gone n = true) (hp : ∀ m : Node, m.id = p → ¬ gone m = true) {t : Tree}
    (h : ∀ s ∈ t.subtrees, Ordered (s.2.rootLabels.map Node.outcome)) :
    (placeBelow p n t).prune gone = placeBelow p n (t.prune gone) := by
  induction t with
  | nil => rfl
  | node m c r ihc ihr =>
      have hc := ihc fun s hs => h s (by simp [hs])
      have hr := ihr fun s hs => h s (by simp [hs])
      by_cases hid : m.id = p
      · simp only [placeBelow, prune, if_pos hid, if_neg (hp m hid),
          prune_placeAmong_of_stays hn (h (m, c) (by simp))]
      · by_cases hgone : gone m = true
        · simp only [placeBelow, prune, if_neg hid, if_pos hgone, hr]
        · simp only [placeBelow, prune, if_neg hid, if_neg hgone, hc, hr]

theorem Valid.prune_put {t : Tree} (h : Valid t) {gone : Node → Bool} {slot : Slot} {n : Node}
    (hn : ¬ gone n = true)
    (hstay : ∀ p, slot.map Prod.fst = some p → ∀ m : Node, m.id = p → ¬ gone m = true) :
    (put slot n t).prune gone = put slot n (t.prune gone) := by
  cases slot with
  | none =>
      have hleaf : Forest.prune gone (.leaf n) = .leaf n := if_neg hn
      show Forest.prune gone (t ++ .leaf n) = Forest.prune gone t ++ .leaf n
      rw [prune_append, hleaf]
  | some place => exact prune_placeBelow_of_stays hn (hstay place.1 rfl) h.ordered

theorem Valid.insert_delete {t : Tree} (h : Valid t) {s : Node × Tree} (hs : s ∈ t.subtrees)
    {slot : Slot} {id : NodeId} (e : Effect) (hid : id ∉ t.ids)
    (hstay : ∀ p, slot.map Prod.fst = some p → p ∉ s.1.id :: s.2.ids) :
    (t.insert slot id e).bind (Tree.delete s.1.id) =
      (t.delete s.1.id).bind (Tree.insert slot id e) := by
  have hdoomed := doomed_flatten h hs
  have hgone : id ∉ s.1.id :: s.2.ids := fun hmem => hid ((ids_sublist hs).subset hmem)
  obtain ⟨u, hu⟩ : ∃ u, t.delete s.1.id = .ok u :=
    ⟨_, delete_eq_ok_iff.mpr ⟨id_mem_ids_of_mem_subtrees hs, rfl⟩⟩
  have hprune := (delete_eq_ok_iff.mp hu).2
  rw [hdoomed] at hprune
  have hverdict : (u.attach slot id e).1 = (t.attach slot id e).1 :=
    verdict_congr e (h.get?_delete hs hu hgone) fun p hp => h.get?_delete hs hu (hstay p hp)
  rw [hu]
  show _ = u.insert slot id e
  rw [insert_eq slot id e u, hverdict]
  cases hallowed : (t.attach slot id e).1 with
  | error err =>
      rw [insert_eq, hallowed]
      rfl
  | ok _ =>
      have hok := insert_eq_ok_iff_put.mpr ⟨hallowed, rfl⟩
      rw [hok]
      have hne : s.1.id ≠ id := fun heq => hgone (heq ▸ List.mem_cons_self)
      refine delete_eq_ok_iff.mpr ⟨?_, ?_⟩
      · rw [← contains_iff, contains, h.get?_insert hok hne]
        exact contains_iff.mpr (id_mem_ids_of_mem_subtrees hs)
      · rw [h.doomed_insert hok (by rw [hdoomed]; exact hstay), hdoomed, hprune]
        exact (h.prune_put (by simpa using hgone) (by
          rintro p hp m rfl
          simpa using hstay _ hp)).symm

/-! ## Removal and removal -/

/-- Of two ancestors of one effect, one is an ancestor of the other. -/
theorem IsAncestor.comparable {t : Tree} {x y z : NodeId} (hx : t.IsAncestor x z)
    (hy : t.IsAncestor y z) : x = y ∨ t.IsAncestor x y ∨ t.IsAncestor y x := by
  have hunique : Relator.RightUnique (Function.swap t.IsParent) := by
    rintro z p q ⟨r, hr, hp⟩ ⟨r', hr', hq⟩
    rw [hr] at hr'
    cases hr'
    exact Option.some.inj (hp.symm.trans hq)
  have hup := Relation.ReflTransGen.total_of_right_unique hunique
    (Relation.reflTransGen_swap.mpr hx.to_reflTransGen)
    (Relation.reflTransGen_swap.mpr hy.to_reflTransGen)
  have hchain : Relation.ReflTransGen t.IsParent y x ∨ Relation.ReflTransGen t.IsParent x y :=
    hup.imp Relation.reflTransGen_swap.mp Relation.reflTransGen_swap.mp
  simp only [Relation.reflTransGen_iff_eq_or_transGen] at hchain
  rcases hchain with (heq | hyx) | (heq | hxy)
  · exact Or.inl heq
  · exact Or.inr (Or.inr hyx)
  · exact Or.inl heq.symm
  · exact Or.inr (Or.inl hxy)

section Apart

variable {t : Tree} (h : Valid t) {s s' : Node × Tree} (hs : s ∈ t.subtrees) (hs' : s' ∈ t.subtrees)

include h hs hs'

/-- Below two effects neither of which is below the other nothing is shared. -/
theorem not_mem_block_of_apart (hne : s.1.id ≠ s'.1.id) (hst : ¬ t.IsAncestor s.1.id s'.1.id)
    (hts : ¬ t.IsAncestor s'.1.id s.1.id) {x : NodeId} (hx : x ∈ s'.1.id :: s'.2.ids) :
    x ∉ s.1.id :: s.2.ids := by
  intro hmem
  rw [List.mem_cons, h.mem_ids_iff_isAncestor hs'] at hx
  rw [List.mem_cons, h.mem_ids_iff_isAncestor hs] at hmem
  rcases hx with rfl | hx
  · exact hmem.elim (fun heq => hne heq.symm) hst
  · rcases hmem with rfl | hmem
    · exact hts hx
    · rcases hmem.comparable hx with heq | hbelow | hbelow
      · exact hne heq
      · exact hst hbelow
      · exact hts hbelow

/-- A removal leaves what stands apart as it is. -/
theorem mem_subtrees_delete {u : Tree} (hok : t.delete s.1.id = .ok u)
    (hapart : ∀ x ∈ s'.1.id :: s'.2.ids, x ∉ s.1.id :: s.2.ids) : s' ∈ u.subtrees := by
  have hthere : u.contains s'.1.id = true := by
    rw [contains, h.get?_delete hs hok (hapart _ List.mem_cons_self)]
    exact contains_iff.mpr (id_mem_ids_of_mem_subtrees hs')
  obtain ⟨-, rfl⟩ := delete_eq_ok_iff.mp hok
  obtain ⟨x, hx, hid⟩ := exists_subtree_of_id (contains_iff.mp hthere)
  obtain ⟨c, hc, hprune⟩ := exists_of_mem_subtrees_prune hx
  have hsame : (x.1, c) = s' := subtree_eq_of_id h.ids_nodup hc hs' hid
  have hkept : s'.2.prune (fun n => (doomed s.1.id t.flatten).contains n.id) = s'.2 := by
    refine prune_eq_self fun n hn => ?_
    rw [doomed_flatten h hs, Bool.eq_false_iff, ne_eq, List.contains_iff_mem]
    exact hapart _ (List.mem_cons_of_mem _ (List.mem_map_of_mem hn))
  have hxs : x = s' := by
    subst hsame
    exact Prod.ext rfl (hprune.trans hkept)
  exact hxs ▸ hx

theorem delete_delete (hne : s.1.id ≠ s'.1.id) (hst : ¬ t.IsAncestor s.1.id s'.1.id)
    (hts : ¬ t.IsAncestor s'.1.id s.1.id) :
    (t.delete s.1.id).bind (Tree.delete s'.1.id) =
      .ok ((t.prune fun n => (s.1.id :: s.2.ids).contains n.id).prune fun n =>
        (s'.1.id :: s'.2.ids).contains n.id) := by
  obtain ⟨u, hu⟩ : ∃ u, t.delete s.1.id = .ok u :=
    ⟨_, delete_eq_ok_iff.mpr ⟨id_mem_ids_of_mem_subtrees hs, rfl⟩⟩
  have hstays : s' ∈ u.subtrees :=
    mem_subtrees_delete h hs hs' hu fun _ => not_mem_block_of_apart h hs hs' hne hst hts
  have hprune := (delete_eq_ok_iff.mp hu).2
  rw [doomed_flatten h hs] at hprune
  rw [hu]
  refine delete_eq_ok_iff.mpr ⟨id_mem_ids_of_mem_subtrees hstays, ?_⟩
  rw [doomed_flatten (h.delete hu) hstays, hprune]

end Apart

/-- Two removals commute where neither effect is below the other. -/
theorem Valid.delete_comm {t : Tree} (h : Valid t) {x y : NodeId} (hx : t.contains x = true)
    (hy : t.contains y = true) (hxy : ¬ t.IsAncestor x y) (hyx : ¬ t.IsAncestor y x) :
    (t.delete x).bind (Tree.delete y) = (t.delete y).bind (Tree.delete x) ∧
      (x ≠ y → ∃ t', (t.delete x).bind (Tree.delete y) = .ok t') := by
  obtain ⟨s, hs, rfl⟩ := exists_subtree_of_id (contains_iff.mp hx)
  obtain ⟨s', hs', rfl⟩ := exists_subtree_of_id (contains_iff.mp hy)
  by_cases hne : s.1.id = s'.1.id
  · rw [hne]
    exact ⟨rfl, fun habs => absurd rfl habs⟩
  · have hfirst := delete_delete h hs hs' hne hxy hyx
    have hsecond := delete_delete h hs' hs (Ne.symm hne) hyx hxy
    rw [prune_comm] at hsecond
    exact ⟨hfirst.trans hsecond.symm, fun _ => ⟨_, hfirst⟩⟩

/-- An insertion commutes with the removal of an effect that the place is not below. -/
theorem Valid.insert_delete_comm {t : Tree} (h : Valid t) {slot : Slot} {id x : NodeId}
    (e : Effect) (hx : t.contains x = true) (hid : t.contains id = false)
    (hstay : ∀ p, slot.map Prod.fst = some p → p ≠ x ∧ ¬ t.IsAncestor x p) :
    (t.insert slot id e).bind (Tree.delete x) = (t.delete x).bind (Tree.insert slot id e) := by
  obtain ⟨s, hs, rfl⟩ := exists_subtree_of_id (contains_iff.mp hx)
  refine h.insert_delete hs e (fun hmem => ?_) fun p hp hmem => ?_
  · rw [contains_iff.mpr hmem] at hid
    cases hid
  · obtain ⟨hne, hbelow⟩ := hstay p hp
    rcases List.mem_cons.mp hmem with heq | hmem
    · exact hne heq
    · exact hbelow ((h.mem_ids_iff_isAncestor hs).mp hmem)

/-! ## Commuting edits -/

/-- Edits that stay out of each other's way commute: insertions of different effects into different
places, neither below the other's newcomer; removals of two effects neither of which is below the
other; and an insertion with a removal of an effect that the place is not below. -/
theorem Reachable.edits_commute {t : Tree} (h : Reachable t) :
    (∀ slot slot' id id' e e', slot ≠ slot' → id ≠ id' → slot.map Prod.fst ≠ some id' →
      slot'.map Prod.fst ≠ some id → ∀ t',
        (t.insert slot id e).bind (Tree.insert slot' id' e') = .ok t' ↔
          (t.insert slot' id' e').bind (Tree.insert slot id e) = .ok t') ∧
    (∀ x y, t.contains x = true → t.contains y = true → ¬ t.IsAncestor x y → ¬ t.IsAncestor y x →
      (t.delete x).bind (Tree.delete y) = (t.delete y).bind (Tree.delete x) ∧
        (x ≠ y → ∃ t', (t.delete x).bind (Tree.delete y) = .ok t')) ∧
    (∀ slot id e x, t.contains x = true → t.contains id = false →
      (∀ p, slot.map Prod.fst = some p → p ≠ x ∧ ¬ t.IsAncestor x p) →
        (t.insert slot id e).bind (Tree.delete x) =
          (t.delete x).bind (Tree.insert slot id e)) := by
  refine ⟨?_, ?_, ?_⟩
  · intro slot slot' id id' e e' hslots hids hid hid' t'
    exact ⟨h.valid.insert_insert hslots hids hid hid',
      h.valid.insert_insert hslots.symm hids.symm hid' hid⟩
  · intro x y hx hy hxy hyx
    exact h.valid.delete_comm hx hy hxy hyx
  · intro slot id e x hx hid hstay
    exact h.valid.insert_delete_comm e hx hid hstay

/-- In a saving throw with two graded failures: a newcomer in between them and one under the shared
rolls; the two failures taken away; and a newcomer in the place of the failure that is taken away,
which leaves the place empty in one order and not in the other. -/
theorem edits_commute_gradedFailures :
    (∃ t', (gradedFailures.insert (some ("save", .sharedRolls)) "cold"
          (.damage ⟨.cold, "1d6", none, none, none⟩)).bind
            (Tree.insert (some ("save", .failedSaveBy 5)) "slow" (.condition ⟨"slow", none⟩)) =
              .ok t' ∧
        (gradedFailures.insert (some ("save", .failedSaveBy 5)) "slow"
          (.condition ⟨"slow", none⟩)).bind
            (Tree.insert (some ("save", .sharedRolls)) "cold"
              (.damage ⟨.cold, "1d6", none, none, none⟩)) = .ok t') ∧
      (∃ t', (gradedFailures.delete "prone").bind (Tree.delete "stunned") = .ok t' ∧
        (gradedFailures.delete "stunned").bind (Tree.delete "prone") = .ok t') ∧
      ∃ t', (gradedFailures.insert (some ("save", .failedSaveBy 5)) "slow"
          (.condition ⟨"slow", none⟩)).bind (Tree.delete "prone") = .ok t' ∧
        (gradedFailures.delete "prone").bind
          (Tree.insert (some ("save", .failedSaveBy 5)) "slow" (.condition ⟨"slow", none⟩)) =
            .ok t' := by
  have hreach : Reachable gradedFailures := built_gradedFailures.reachable
  have hleaf : ∀ n : Node, (n, Forest.nil) ∈ gradedFailures.subtrees → ∀ id,
      ¬ gradedFailures.IsAncestor n.id id := fun n hn id hbelow =>
    absurd ((hreach.valid.mem_ids_iff_isAncestor hn).mpr hbelow) List.not_mem_nil
  have hprone := hleaf ⟨"prone", some (.failedSaveBy 5), .condition ⟨"prone", none⟩⟩ (by decide)
  have hstunned :=
    hleaf ⟨"stunned", some (.failedSaveBy 10), .condition ⟨"stunned", none⟩⟩ (by decide)
  obtain ⟨hinserts, hdeletes, hboth⟩ := Reachable.edits_commute hreach
  refine ⟨?_, ?_, ?_⟩
  · obtain ⟨t', hok⟩ : ∃ t', (gradedFailures.insert (some ("save", .sharedRolls)) "cold"
        (.damage ⟨.cold, "1d6", none, none, none⟩)).bind
          (Tree.insert (some ("save", .failedSaveBy 5)) "slow" (.condition ⟨"slow", none⟩)) =
            .ok t' := ⟨_, rfl⟩
    exact ⟨t', hok,
      (hinserts _ _ _ _ _ _ (by decide) (by decide) (by decide) (by decide) t').mp hok⟩
  · obtain ⟨hsame, hsucceeds⟩ := hdeletes "prone" "stunned" (by decide) (by decide)
      (hprone "stunned") (hstunned "prone")
    obtain ⟨t', hok⟩ := hsucceeds (by decide)
    exact ⟨t', hok, hsame ▸ hok⟩
  · obtain ⟨t', hok⟩ : ∃ t', (gradedFailures.insert (some ("save", .failedSaveBy 5)) "slow"
        (.condition ⟨"slow", none⟩)).bind (Tree.delete "prone") = .ok t' := ⟨_, rfl⟩
    have hsame := hboth (some ("save", .failedSaveBy 5)) "slow" (.condition ⟨"slow", none⟩) "prone"
      (by decide) (by decide) fun p hp => by
        cases hp
        exact ⟨by decide, hprone "save"⟩
    exact ⟨t', hok, hsame ▸ hok⟩

end Tree

end Spellwork
