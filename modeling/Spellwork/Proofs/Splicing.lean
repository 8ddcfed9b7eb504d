import Spellwork.Proofs.Changes
import Spellwork.Proofs.Removal

/-!
# Splicing one stored tree into another

The stored records of a tree, followed by those of another tree stored below one of its effects.
Loading looks at the two parts together, but what it finds can be told apart by where an id comes
from: the records of the second part name parents in that part, its roots excepted, so its places
are the old ones and the one that its roots are sent to. The list is accepted where that place
admits the roots and no id clashes (`Spliceable`). A place inside of the second part is no exception
that needs a rule of its own: from there no chain of parents leads to a root
(`not_mem_ids_of_rooted`).
-/

namespace Spellwork

namespace Tree

open Forest

/-! ## Records stored below an effect -/

theorem rehome_root {r : Record} (hp : r.parent = none) (parent : Option NodeId)
    (outcome : Option Outcome) : rehome parent outcome r = { r with parent, outcome } := by
  simp [rehome, hp]

theorem rehome_child {r : Record} {p : NodeId} (hp : r.parent = some p) (parent : Option NodeId)
    (outcome : Option Outcome) : rehome parent outcome r = r := by
  simp [rehome, hp]

theorem effect_rehome (parent : Option NodeId) (outcome : Option Outcome) (r : Record) :
    (rehome parent outcome r).effect = r.effect := by
  unfold rehome
  split <;> rfl

section Stored

variable {sub : Tree} {p : NodeId} {o : Outcome}

theorem map_id_flattenUnder (parent : Option NodeId) (outcome : Option Outcome) :
    (sub.flattenUnder parent outcome).map Record.id = sub.ids := by
  rw [flattenUnder, List.map_map, ← map_id_records]
  exact List.map_congr_left fun r _ => id_rehome r

theorem find?_flattenUnder (parent : Option NodeId) (outcome : Option Outcome) (id : NodeId) :
    ((sub.flattenUnder parent outcome).find? fun r => r.id = id) =
      (sub.get? id).map (rehome parent outcome) := by
  rw [flattenUnder, List.find?_map, get?]
  simp only [Function.comp_def, id_rehome]

/-- Stored below an effect, no record is one of a root. -/
theorem isSome_parent_of_mem_flattenUnder {r : Record}
    (hr : r ∈ sub.flattenUnder (some p) (some o)) : r.parent.isSome = true := by
  obtain ⟨r, -, rfl⟩ := List.mem_map.mp hr
  cases hp : r.parent with
  | none => rw [rehome_root hp]; rfl
  | some q => rw [rehome_child hp, hp]; rfl

/-- The places of the stored records: the one that the roots are sent to, and those inside. -/
theorem filter_place_flattenUnder (hnd : sub.ids.Nodup) (hp : p ∉ sub.ids) (q : NodeId)
    (o' : Outcome) :
    ((sub.flattenUnder (some p) (some o)).filter
        fun r => r.parent = some q ∧ r.outcome = some o').map Record.id =
      if (q, o') = (p, o) then sub.roots else sub.childrenOf q o' := by
  have hids : Record.id ∘ rehome (some p) (some o) = Record.id := funext id_rehome
  rw [flattenUnder, List.filter_map, List.map_map, hids]
  split
  · rename_i hplace
    cases hplace
    rw [roots_eq]
    congr 1
    refine List.filter_congr fun r hr => ?_
    cases hr' : r.parent with
    | none => simp [rehome_root hr']
    | some q =>
        have hne : q ≠ p := fun heq => hp (heq ▸ parent_mem_ids hr hr')
        simp [rehome_child hr', hr', hne]
  · rename_i hplace
    rw [childrenOf_eq hnd]
    congr 1
    refine List.filter_congr fun r _ => ?_
    cases hr' : r.parent with
    | none =>
        have hne : ¬ (p = q ∧ o = o') := fun heq => hplace (by rw [heq.1, heq.2])
        simpa [rehome_root hr', hr'] using hne
    | some q' => simp [rehome_child hr', hr']

end Stored

/-! ## What is accepted -/

/-- The trees share no id, and the place is one of the first tree that admits the roots of the
second. -/
structure Spliceable (t sub : Tree) (p : NodeId) (o : Outcome) : Prop where
  disjoint : ∀ id, t.contains id = true → sub.contains id = false
  owner : ∃ r, t.get? p = some r ∧ r.effect.canOwn o = true
  shared : o = .sharedRolls → ∀ id ∈ sub.roots, ∃ r, sub.get? id = some r ∧
    r.effect.isDamage = true

section Splice

variable {t sub : Tree} {p : NodeId} {o : Outcome}

theorem Spliceable.not_mem_ids (h : Spliceable t sub p o) {id : NodeId} (hid : id ∈ t.ids) :
    id ∉ sub.ids := by
  intro hmem
  have hfree := h.disjoint id (contains_iff.mpr hid)
  rw [contains_iff.mpr hmem] at hfree
  cases hfree

theorem Spliceable.mem_ids (h : Spliceable t sub p o) : p ∈ t.ids := by
  obtain ⟨r, hr, -⟩ := h.owner
  exact mem_ids_of_get? hr

theorem Spliceable.acceptable (h : Spliceable t sub p o) (ht : Valid t) (hs : Valid sub) :
    Acceptable (t.records ++ sub.flattenUnder (some p) (some o)) where
  ids_nodup := by
    rw [List.map_append, map_id_flattenUnder, map_id_records, List.nodup_append]
    refine ⟨ht.ids_nodup, hs.ids_nodup, fun id hid id' hid' heq => ?_⟩
    exact h.not_mem_ids hid (heq ▸ hid')
  allowed := by
    intro r hr
    rcases List.mem_append.mp hr with hr | hr
    · exact (ht.acceptable.allowed r hr).mono (List.subset_append_left _ _)
    · obtain ⟨r, hrecord, rfl⟩ := List.mem_map.mp hr
      cases hp : r.parent with
      | none =>
          obtain ⟨w, hw, hown⟩ := h.owner
          obtain ⟨hmem, hid⟩ := (get?_eq_some_iff ht.ids_nodup).mp hw
          rw [rehome_root hp]
          refine (allowed_below_iff rfl).mpr
            ⟨w, List.mem_append_left _ hmem, hid, o, rfl, hown, fun hshared => ?_⟩
          have hroot : r.id ∈ sub.roots :=
            List.mem_map_of_mem (f := Node.id) (root_of_record hrecord hp)
          obtain ⟨r', hr', hdamage⟩ := h.shared hshared r.id hroot
          obtain rfl := Option.some.inj
            (hr'.symm.trans ((get?_eq_some_iff hs.ids_nodup).mpr ⟨hrecord, rfl⟩))
          exact hdamage
      | some q =>
          obtain ⟨w, hw, hadmits⟩ := hs.owner_of_record hrecord hp
          obtain ⟨hmem, hid⟩ := (get?_eq_some_iff hs.ids_nodup).mp hw
          rw [rehome_child hp]
          refine (allowed_below_iff hp).mpr ⟨rehome (some p) (some o) w,
            List.mem_append_right _ (List.mem_map_of_mem hmem), ?_, ?_⟩
          · rw [id_rehome, hid]
          · rwa [effect_rehome]
  rooted := by
    have hold : ∀ id ∈ t.ids, Rooted (t.records ++ sub.flattenUnder (some p) (some o)) id := by
      intro id hid
      obtain ⟨r, hr, rfl⟩ := mem_ids_iff.mp hid
      exact (rooted_of_mem_records hr).mono (List.subset_append_left _ _)
    -- the chain of a spliced record ends in a root of its tree and goes on above the place
    have hnew : ∀ id, Rooted sub.records id →
        Rooted (t.records ++ sub.flattenUnder (some p) (some o)) id := by
      intro id hid
      induction hid with
      | @root r hr hp =>
          rw [← @id_rehome (some p) (some o) r]
          refine .child (List.mem_append_right _ (List.mem_map_of_mem hr)) ?_ (hold p h.mem_ids)
          rw [rehome_root hp]
      | @child r q hr hp _ ih =>
          rw [← @id_rehome (some p) (some o) r]
          refine .child (List.mem_append_right _ (List.mem_map_of_mem hr)) ?_ ih
          rw [rehome_child hp, hp]
    intro r hr
    rcases List.mem_append.mp hr with hr | hr
    · exact hold r.id (mem_ids_of_record hr)
    · obtain ⟨r, hrecord, rfl⟩ := List.mem_map.mp hr
      rw [id_rehome]
      exact hnew r.id (rooted_of_mem_records hrecord)

/-- Sent to a place inside of their own tree, the roots and all below them are cut off. -/
theorem not_mem_ids_of_rooted (hdisj : ∀ id ∈ t.ids, id ∉ sub.ids) (hp : p ∈ sub.ids)
    {id : NodeId} (h : Rooted (t.records ++ sub.flattenUnder (some p) (some o)) id) :
    id ∉ sub.ids := by
  induction h with
  | @root r hr hroot =>
      rcases List.mem_append.mp hr with hr | hr
      · exact hdisj r.id (mem_ids_of_record hr)
      · have hsome := isSome_parent_of_mem_flattenUnder hr
        rw [hroot] at hsome
        cases hsome
  | @child r q hr hq _ ih =>
      rcases List.mem_append.mp hr with hr | hr
      · exact hdisj r.id (mem_ids_of_record hr)
      · obtain ⟨r, hrecord, rfl⟩ := List.mem_map.mp hr
        cases hparent : r.parent with
        | none =>
            rw [rehome_root hparent] at hq
            cases hq
            exact absurd hp ih
        | some q' =>
            rw [rehome_child hparent, hparent] at hq
            cases hq
            exact absurd (parent_mem_ids hrecord hparent) ih

theorem Acceptable.spliceable (ht : Valid t) (hs : Valid sub) (hne : sub ≠ .nil)
    (h : Acceptable (t.records ++ sub.flattenUnder (some p) (some o))) :
    Spliceable t sub p o := by
  have hnd := h.ids_nodup
  rw [List.map_append, map_id_flattenUnder, map_id_records] at hnd
  have hdisj : ∀ id ∈ t.ids, id ∉ sub.ids := fun id hid hid' =>
    (List.nodup_append.mp hnd).2.2 id hid id hid' rfl
  -- what the list says about the place, asked at any root
  have hroot : ∀ n ∈ sub.rootLabels, ∃ w ∈ t.records, w.id = p ∧ w.effect.canOwn o = true ∧
      (o = .sharedRolls → n.effect.isDamage = true) := by
    intro n hn
    have hrecord : n.record none ∈ sub.records := record_mem_of_root hn
    have hmem : rehome (some p) (some o) (n.record none) ∈
        t.records ++ sub.flattenUnder (some p) (some o) :=
      List.mem_append_right _ (List.mem_map_of_mem hrecord)
    have hallowed := h.allowed _ hmem
    have hrooted := h.rooted _ hmem
    rw [rehome_root rfl] at hallowed hrooted
    obtain ⟨w, hw, hid, o', ho', hown, hshared⟩ := (allowed_below_iff rfl).mp hallowed
    cases ho'
    rcases List.mem_append.mp hw with hw | hw
    · exact ⟨w, hw, hid, hown, hshared⟩
    · -- a place in the spliced tree itself cuts the root off
      have hp : p ∈ sub.ids := by
        rw [← hid, ← map_id_flattenUnder (some p) (some o)]
        exact List.mem_map_of_mem hw
      exact absurd (mem_ids_of_record hrecord) (not_mem_ids_of_rooted hdisj hp hrooted)
  refine ⟨fun id hid => ?_, ?_, fun hshared id hid => ?_⟩
  · rw [Bool.eq_false_iff, ne_eq, contains_iff]
    exact hdisj id (contains_iff.mp hid)
  · cases sub with
    | nil => exact absurd rfl hne
    | node n c r =>
        obtain ⟨w, hw, hid, hown, -⟩ := hroot n (by simp)
        exact ⟨w, (get?_eq_some_iff ht.ids_nodup).mpr ⟨hw, hid⟩, hown⟩
  · obtain ⟨n, hn, rfl⟩ := List.mem_map.mp hid
    obtain ⟨-, -, -, -, hdamage⟩ := hroot n hn
    exact ⟨n.record none, (get?_eq_some_iff hs.ids_nodup).mpr ⟨record_mem_of_root hn, rfl⟩,
      hdamage hshared⟩

/-! ## What is loaded -/

/-- A tree with another one spliced in: all effects of both with the places they had, the roots of
the second excepted, which follow in theirs on those that stood there before. -/
structure Spliced (t sub : Tree) (p : NodeId) (o : Outcome) (u : Tree) : Prop where
  contains : ∀ id, u.contains id = (t.contains id || sub.contains id)
  kept : ∀ id, t.contains id = true → u.get? id = t.get? id
  carried : ∀ id, sub.contains id = true → id ∉ sub.roots → u.get? id = sub.get? id
  hung : ∀ id ∈ sub.roots,
    u.get? id = (sub.get? id).map fun r => { r with parent := some p, outcome := some o }
  roots : u.roots = t.roots
  place : u.childrenOf p o = t.childrenOf p o ++ sub.roots
  kept_places : ∀ q o', t.contains q = true → (q, o') ≠ (p, o) →
    u.childrenOf q o' = t.childrenOf q o'
  carried_places : ∀ q o', sub.contains q = true → u.childrenOf q o' = sub.childrenOf q o'

theorem Spliceable.spliced (h : Spliceable t sub p o) (ht : Valid t) (hs : Valid sub) {u : Tree}
    (hu : Describes (t.records ++ sub.flattenUnder (some p) (some o)) u) : Spliced t sub p o u := by
  have hp : p ∉ sub.ids := h.not_mem_ids h.mem_ids
  have hget : ∀ id, u.get? id = (t.get? id).or ((sub.get? id).map (rehome (some p) (some o))) := by
    intro id
    rw [hu.get?, List.find?_append, find?_flattenUnder]
    rfl
  have hspliced : ∀ id ∈ sub.ids, u.get? id = (sub.get? id).map (rehome (some p) (some o)) := by
    intro id hid
    have hnone : t.get? id = none := Option.not_isSome_iff_eq_none.mp fun hsome =>
      h.not_mem_ids (contains_iff.mp hsome) hid
    rw [hget, hnone, Option.none_or]
  have hplaces : ∀ q o', u.childrenOf q o' =
      t.childrenOf q o' ++ if (q, o') = (p, o) then sub.roots else sub.childrenOf q o' := by
    intro q o'
    rw [hu.childrenOf, List.filter_append, List.map_append, childrenOf_eq ht.ids_nodup,
      filter_place_flattenUnder hs.ids_nodup hp]
  constructor
  case contains =>
    intro id
    rw [Tree.contains, hget, Option.isSome_or, Option.isSome_map]
    rfl
  case kept =>
    intro id hid
    obtain ⟨r, hr⟩ := Option.isSome_iff_exists.mp hid
    rw [hget, hr]
    rfl
  case carried =>
    intro id hid hroot
    obtain ⟨r, hr⟩ := Option.isSome_iff_exists.mp hid
    rw [hspliced id (contains_iff.mp hid), hr]
    cases hparent : r.parent with
    | none => exact absurd ((mem_roots_iff hs hr).mpr hparent) hroot
    | some q => exact congrArg some (rehome_child hparent _ _)
  case hung =>
    intro id hid
    have hmem : id ∈ sub.ids := (sub.rootLabels_sublist.map Node.id).subset hid
    obtain ⟨r, hr⟩ := Option.isSome_iff_exists.mp (contains_iff.mpr hmem)
    rw [hspliced id hmem, hr]
    exact congrArg some (rehome_root ((mem_roots_iff hs hr).mp hid) _ _)
  case roots =>
    have hnone : ((sub.flattenUnder (some p) (some o)).filter fun r => r.parent.isNone) = [] := by
      refine List.filter_eq_nil_iff.mpr fun r hr => ?_
      rw [← Option.not_isSome, isSome_parent_of_mem_flattenUnder hr]
      exact Bool.false_ne_true
    rw [hu.roots, List.filter_append, hnone, List.append_nil, roots_eq]
  case place => rw [hplaces, if_pos rfl]
  case kept_places =>
    intro q o' hq hne
    have hq' : q ∉ sub.ids := h.not_mem_ids (contains_iff.mp hq)
    rw [hplaces, if_neg hne, childrenOf_of_not_mem hs.ids_nodup hq', List.append_nil]
  case carried_places =>
    intro q o' hq
    have hq' : q ∉ t.ids := fun hmem => h.not_mem_ids hmem (contains_iff.mp hq)
    have hne : (q, o') ≠ (p, o) := by
      rintro ⟨⟩
      exact hq' h.mem_ids
    rw [hplaces, if_neg hne, childrenOf_of_not_mem ht.ids_nodup hq', List.nil_append]

/-- Stored records followed by those of a tree stored below an effect are accepted just where the
tree can be spliced in there, and then it is. -/
theorem Valid.load_splice (ht : Valid t) (hbare : RootsBare t) (hs : Valid sub) (hne : sub ≠ .nil)
    (p : NodeId) (o : Outcome) :
    ((∃ u, ofRecords? (t.flatten ++ sub.flattenUnder (some p) (some o)) = .ok u) ↔
        Spliceable t sub p o) ∧
      ∀ u, ofRecords? (t.flatten ++ sub.flattenUnder (some p) (some o)) = .ok u →
        Spliced t sub p o u := by
  rw [hbare.flatten_eq]
  have hiff : Acceptable (t.records ++ sub.flattenUnder (some p) (some o)) ↔
      Spliceable t sub p o :=
    ⟨fun h => h.spliceable ht hs hne, fun h => h.acceptable ht hs⟩
  refine ⟨⟨?_, fun h => ?_⟩, fun u hu => ?_⟩
  · rintro ⟨u, hu⟩
    exact hiff.mp (ofRecords?_eq_ok_iff.mp hu).1
  · exact ⟨_, ofRecords?_eq_ok_iff.mpr ⟨hiff.mpr h, rfl⟩⟩
  · obtain ⟨hacceptable, rfl⟩ := ofRecords?_eq_ok_iff.mp hu
    exact (hiff.mp hacceptable).spliced ht hs (describes_grow hacceptable)

end Splice

/-- A condition that was loaded with an outcome of its own, and a saving throw against more
damage. -/
def aftermath : Tree :=
  .leaf ⟨"slow", some .miss, .condition ⟨"slow", none⟩⟩ ++
    .node ⟨"chill", none, .savingThrow ⟨.dexterity, none⟩⟩
      (.leaf ⟨"cold", some .sharedRolls, .damage ⟨.cold, "1d6", none, none, none⟩⟩) .nil

theorem valid_aftermath : Valid aftermath := by
  have hload : ofRecords? aftermath.records = .ok aftermath := by decide
  exact (Reachable.load hload).valid

/-- Spliced into a place that is taken already, and into a place of its own. -/
theorem load_splice_aftermath :
    (∃ u, ofRecords? (gradedFailures.flatten ++
          aftermath.flattenUnder (some "save") (some (.failedSaveBy 5))) = .ok u ∧
        Spliced gradedFailures aftermath "save" (.failedSaveBy 5) u ∧
        u.childrenOf "save" (.failedSaveBy 5) = ["prone", "slow", "chill"]) ∧
      ¬ ∃ u, ofRecords? (gradedFailures.flatten ++
        aftermath.flattenUnder (some "chill") (some .failedSave)) = .ok u := by
  have hvalid : Valid gradedFailures := built_gradedFailures.reachable.valid
  have hbare : RootsBare gradedFailures := built_gradedFailures.rootsBare
  have hne : aftermath ≠ .nil := by decide
  constructor
  · obtain ⟨hiff, hspliced⟩ :=
      Valid.load_splice hvalid hbare valid_aftermath hne "save" (.failedSaveBy 5)
    have hdisjoint : ∀ id, gradedFailures.contains id = true → aftermath.contains id = false := by
      intro id hid
      have hall : ∀ x ∈ gradedFailures.ids, aftermath.contains x = false := by decide
      exact hall id (contains_iff.mp hid)
    have howner : ∃ r, gradedFailures.get? "save" = some r ∧
        r.effect.canOwn (.failedSaveBy 5) = true := ⟨_, rfl, rfl⟩
    obtain ⟨u, hu⟩ := hiff.mpr ⟨hdisjoint, howner, fun heq => by cases heq⟩
    refine ⟨u, hu, hspliced u hu, ?_⟩
    rw [(hspliced u hu).place]
    decide
  · rw [(Valid.load_splice hvalid hbare valid_aftermath hne "chill" .failedSave).1]
    rintro ⟨-, ⟨r, hr, -⟩, -⟩
    have hnone : gradedFailures.get? "chill" = none := by decide
    rw [hnone] at hr
    cases hr

end Tree

end Spellwork
