import Spellwork.Proofs.RoundTrip

/-!
# What decides over a change

Whether an effect may take the place of another is told from the tree as it can be looked at: from
its roots, the shared rolls of its saving throws and the edges of the effect itself (`Misfit`). The
check reads the header of the record in place of the lists. Header and lists say the same of every
effect below another, so the check follows the tree (`Told`), but the outcome on a root is in no
list. A root that was loaded with the outcome of shared rolls is therefore refused every change to
something else than damage (`Reachable.update_told_iff`); no root that operations build carries one.
-/

namespace Spellwork

namespace Tree

open Forest

/-! ## Told from the tree -/

/-- Why an effect may not take the place of the one at an id, told from the lists of the tree, each
reason given that those before it do not apply. -/
inductive Misfit (t : Tree) (id : NodeId) (e : Effect) : EditError → Prop where
  | outcomeAsRoot (hroot : id ∈ t.roots) (hkind : e.isDamageOutcome = true) :
      Misfit t id e (.outcomeAsRoot id)
  | invalidSharedRoll {p : NodeId} (hroot : ¬ (id ∈ t.roots ∧ e.isDamageOutcome = true))
      (hlisted : id ∈ t.childrenOf p .sharedRolls) (hkind : e.isDamage = false) :
      Misfit t id e (.invalidSharedRoll p id e.typeName)
  | invalidEdge {front rest : List (Outcome × List NodeId)} {edge : Outcome × List NodeId}
      (hroot : ¬ (id ∈ t.roots ∧ e.isDamageOutcome = true))
      (hshared : ∀ p, id ∈ t.childrenOf p .sharedRolls → e.isDamage = true)
      (hedges : t.edges? id = some (front ++ edge :: rest))
      (hfront : ∀ f ∈ front, e.canOwn f.1 = true) (hedge : e.canOwn edge.1 = false) :
      Misfit t id e (.invalidEdge id e.typeName edge.1)

/-- A tree that differs from another in the effect of one id and in nothing else. -/
structure ChangedAt (t : Tree) (id : NodeId) (e : Effect) (t' : Tree) : Prop where
  records : t'.records = t.records.map fun r => if r.id = id then { r with effect := e } else r
  roots : t'.roots = t.roots
  edges? : ∀ p, t'.edges? p = t.edges? p

/-- The result of a change is the one that the lists of the tree tell. -/
structure Told (t : Tree) (id : NodeId) (e : Effect) (result : Except EditError Tree) : Prop where
  error_iff : ∀ err, result = .error err ↔ Misfit t id e err
  ok : (∀ err, ¬ Misfit t id e err) → ∃ t', result = .ok t' ∧ ChangedAt t id e t'

/-- A root that carries the outcome of shared rolls is to become something that might be a root but
is not damage. -/
def StraySharedRoll (r : Record) (e : Effect) : Prop :=
  r.parent = none ∧ r.outcome = some .sharedRolls ∧ e.isDamage = false ∧ e.isDamageOutcome = false

/-! ## Headers and lists -/

section Headers

variable {t : Tree} (h : Valid t) {id : NodeId} {r : Record} (hr : t.get? id = some r)

include h hr

theorem mem_listing_iff {place : Slot} : id ∈ t.listing place ↔ r.slot? = some place := by
  obtain ⟨hmem, rfl⟩ := (get?_eq_some_iff h.ids_nodup).mp hr
  rw [listing_eq h.ids_nodup, List.mem_map]
  constructor
  · rintro ⟨x, hx, hid⟩
    obtain ⟨hx, hslot⟩ := List.mem_filter.mp hx
    rw [← Record.eq_of_id h.record_ids_nodup hx hmem hid]
    exact of_decide_eq_true hslot
  · intro hslot
    exact ⟨r, List.mem_filter.mpr ⟨hmem, decide_eq_true hslot⟩, rfl⟩

theorem mem_roots_iff : id ∈ t.roots ↔ r.parent = none := by
  have hlist : id ∈ t.listing none ↔ r.slot? = some none := mem_listing_iff h hr
  exact hlist.trans Record.slot?_eq_root_iff

theorem mem_childrenOf_iff {p : NodeId} {o : Outcome} :
    id ∈ t.childrenOf p o ↔ r.parent = some p ∧ r.outcome = some o := by
  have hlist : id ∈ t.listing (some (p, o)) ↔ r.slot? = some (some (p, o)) := mem_listing_iff h hr
  exact hlist.trans Record.slot?_eq_below_iff

end Headers

/-! ## The check -/

section Check

variable {r : Record} {es : List (Outcome × List NodeId)} {e : Effect}

theorem checkChange_root (hp : r.parent = none) (hkind : e.isDamageOutcome = true) :
    checkChange r es e = .error (.outcomeAsRoot r.id) := by
  simp [checkChange, hp, hkind]

theorem checkChange_shared (hroot : ¬ (r.parent = none ∧ e.isDamageOutcome = true))
    (ho : r.outcome = some .sharedRolls) (hkind : e.isDamage = false) :
    checkChange r es e = .error (.invalidSharedRoll (r.parent.getD r.id) r.id e.typeName) := by
  have hfirst : ¬ (r.parent.isNone && e.isDamageOutcome) = true := by simpa using hroot
  rw [checkChange, if_neg hfirst, if_pos (by simp [ho, hkind])]

theorem checkChange_edges (hroot : ¬ (r.parent = none ∧ e.isDamageOutcome = true))
    (hshared : r.outcome = some .sharedRolls → e.isDamage = true) :
    checkChange r es e =
      match es.find? fun edge => !e.canOwn edge.1 with
      | some edge => .error (.invalidEdge r.id e.typeName edge.1)
      | none => .ok () := by
  have hfirst : ¬ (r.parent.isNone && e.isDamageOutcome) = true := by simpa using hroot
  have hsecond : ¬ (decide (r.outcome = some .sharedRolls) && !e.isDamage) = true := by
    simpa using hshared
  unfold checkChange
  exact (if_neg hfirst).trans (if_neg hsecond)

end Check

/-- The edge that the check finds is the first of the effect's own that the new one may not have. -/
theorem find?_edges_eq_some_iff {t : Tree} {id : NodeId} {e : Effect}
    {edge : Outcome × List NodeId} :
    (((t.edges? id).getD []).find? fun x => !e.canOwn x.1) = some edge ↔
      e.canOwn edge.1 = false ∧ ∃ front rest, t.edges? id = some (front ++ edge :: rest) ∧
        ∀ f ∈ front, e.canOwn f.1 = true := by
  cases t.edges? id with
  | none => simp
  | some es => simp [List.find?_eq_some_iff_append]

/-! ## The changed tree -/

theorem branches_adjust {t : Tree} (hnd : t.ids.Nodup) (id : NodeId) (change : Effect → Effect)
    (p : NodeId) : (t.adjust id change).branches p = t.branches p := by
  have hids : (t.adjust id change).ids = t.ids := by
    rw [adjust_eq_map]
    simp [ids, List.map_map, Function.comp_def]
  rw [branches_eq (hids ▸ hnd), branches_eq hnd, adjust_eq_map, records,
    recordsBelow_map (id_adjustNode id change), ← records, List.filter_map, List.filterMap_map]
  simp [Function.comp_def, Node.record, Record.node]

theorem Valid.changedAt {t : Tree} (h : Valid t) {id : NodeId} {r : Record}
    (hr : t.get? id = some r) (change : Effect → Effect) :
    ChangedAt t id (change r.effect) (t.adjust id change) where
  records := by
    obtain ⟨hmem, rfl⟩ := (get?_eq_some_iff h.ids_nodup).mp hr
    rw [adjust_eq_map, records, recordsBelow_map (id_adjustNode r.id change), ← records]
    refine List.map_congr_left fun x hx => ?_
    by_cases hid : x.id = r.id
    · rw [Record.eq_of_id h.record_ids_nodup hx hmem hid, if_pos rfl]
      simp [adjustNode, Node.record, Record.node]
    · rw [if_neg hid]
      simp [adjustNode, Node.record, Record.node, hid]
  roots := by
    rw [adjust_eq_map]
    simp [Tree.roots, Function.comp_def]
  edges? := by
    intro p
    unfold Tree.edges?
    rw [branches_adjust h.ids_nodup]

/-! ## Changes -/

theorem update_eq_error_iff {t : Tree} {id : NodeId} {r : Record} (hr : t.get? id = some r)
    {change : Effect → Effect} {err : EditError} :
    t.update id change = .error err ↔
      checkChange r ((t.edges? id).getD []) (change r.effect) = .error err := by
  unfold update
  simp only [hr]
  cases checkChange r ((t.edges? id).getD []) (change r.effect) with
  | error e => simp
  | ok u => simp

section Changes

variable {t : Tree} (h : Valid t) {id : NodeId} {r : Record} (hr : t.get? id = some r)

include h hr

/-- What is listed nowhere under shared rolls has no such outcome either, strays apart. -/
theorem isDamage_of_not_listed {e : Effect} (hstray : ¬ StraySharedRoll r e)
    (hroot : ¬ (id ∈ t.roots ∧ e.isDamageOutcome = true))
    (hshared : ∀ p, id ∈ t.childrenOf p .sharedRolls → e.isDamage = true)
    (ho : r.outcome = some .sharedRolls) : e.isDamage = true := by
  cases hp : r.parent with
  | some p => exact hshared p ((mem_childrenOf_iff h hr).mpr ⟨hp, ho⟩)
  | none =>
      have hkind : e.isDamageOutcome = false := by
        by_contra hne
        exact hroot ⟨(mem_roots_iff h hr).mpr hp, by simpa using hne⟩
      by_contra hne
      exact hstray ⟨hp, ho, by simpa using hne, hkind⟩

/-- The check refuses what the lists tell. -/
theorem Misfit.checkChange_eq {e : Effect} {err : EditError} (hstray : ¬ StraySharedRoll r e)
    (hm : Misfit t id e err) : checkChange r ((t.edges? id).getD []) e = .error err := by
  have hid : r.id = id := ((get?_eq_some_iff h.ids_nodup).mp hr).2
  have hroots := mem_roots_iff h hr
  cases hm with
  | outcomeAsRoot hroot hkind => rw [checkChange_root (hroots.mp hroot) hkind, hid]
  | invalidSharedRoll hroot hlisted hkind =>
      obtain ⟨hp, ho⟩ := (mem_childrenOf_iff h hr).mp hlisted
      rw [hroots] at hroot
      rw [checkChange_shared hroot ho hkind, hp, hid, Option.getD_some]
  | invalidEdge hroot hshared hedges hfront hedge =>
      have hfind := find?_edges_eq_some_iff.mpr ⟨hedge, _, _, hedges, hfront⟩
      have hdamage := isDamage_of_not_listed h hr hstray hroot hshared
      rw [hroots] at hroot
      rw [checkChange_edges hroot hdamage, hfind, hid]

/-- The check refuses nothing else. -/
theorem misfit_of_checkChange {e : Effect} {err : EditError} (hstray : ¬ StraySharedRoll r e)
    (hcheck : checkChange r ((t.edges? id).getD []) e = .error err) : Misfit t id e err := by
  have hid : r.id = id := ((get?_eq_some_iff h.ids_nodup).mp hr).2
  have hroots := mem_roots_iff h hr
  by_cases hroot : r.parent = none ∧ e.isDamageOutcome = true
  · rw [checkChange_root hroot.1 hroot.2, hid] at hcheck
    cases hcheck
    exact .outcomeAsRoot (hroots.mpr hroot.1) hroot.2
  · have hnot : ¬ (id ∈ t.roots ∧ e.isDamageOutcome = true) := by rwa [hroots]
    by_cases hshared : r.outcome = some .sharedRolls ∧ e.isDamage = false
    · rw [checkChange_shared hroot hshared.1 hshared.2, hid] at hcheck
      cases hp : r.parent with
      | none => exact absurd ⟨hp, hshared.1, hshared.2, by simpa [hp] using hroot⟩ hstray
      | some p =>
          rw [hp, Option.getD_some] at hcheck
          cases hcheck
          exact .invalidSharedRoll hnot ((mem_childrenOf_iff h hr).mpr ⟨hp, hshared.1⟩) hshared.2
    · have hdamage : r.outcome = some .sharedRolls → e.isDamage = true := by simpa using hshared
      rw [checkChange_edges hroot hdamage, hid] at hcheck
      cases hfind : ((t.edges? id).getD []).find? fun edge => !e.canOwn edge.1 with
      | none =>
          rw [hfind] at hcheck
          cases hcheck
      | some edge =>
          rw [hfind] at hcheck
          cases hcheck
          obtain ⟨hedge, front, rest, hedges, hfront⟩ := find?_edges_eq_some_iff.mp hfind
          exact .invalidEdge hnot (fun p hp => hdamage ((mem_childrenOf_iff h hr).mp hp).2) hedges
            hfront hedge

theorem told_of_not_stray {change : Effect → Effect}
    (hstray : ¬ StraySharedRoll r (change r.effect)) :
    Told t id (change r.effect) (t.update id change) where
  error_iff := by
    intro err
    rw [update_eq_error_iff hr]
    exact ⟨misfit_of_checkChange h hr hstray, Misfit.checkChange_eq h hr hstray⟩
  ok := by
    intro hnone
    cases hcheck : checkChange r ((t.edges? id).getD []) (change r.effect) with
    | error err => exact absurd (misfit_of_checkChange h hr hstray hcheck) (hnone err)
    | ok u =>
        have hok := update_eq_ok_iff.mpr ⟨r, hr, hcheck, rfl⟩
        exact ⟨_, hok, h.changedAt hr change⟩

/-- A stray outcome of shared rolls on a root is taken for a place below a saving throw. -/
theorem update_of_stray {change : Effect → Effect} (hstray : StraySharedRoll r (change r.effect)) :
    t.update id change = .error (.invalidSharedRoll id id (change r.effect).typeName) := by
  obtain ⟨hp, ho, hdamage, hkind⟩ := hstray
  have hid : r.id = id := ((get?_eq_some_iff h.ids_nodup).mp hr).2
  have hroot : ¬ (r.parent = none ∧ (change r.effect).isDamageOutcome = true) := by simp [hkind]
  rw [update_eq_error_iff hr, checkChange_shared hroot ho hdamage, hp, hid, Option.getD_none]

theorem not_told_of_stray {change : Effect → Effect}
    (hstray : StraySharedRoll r (change r.effect)) :
    ¬ Told t id (change r.effect) (t.update id change) := by
  intro htold
  have hm := (htold.error_iff _).mp (update_of_stray h hr hstray)
  cases hm with
  | invalidSharedRoll _ hlisted _ =>
      -- a root stands in no place below another effect
      have hp := ((mem_childrenOf_iff h hr).mp hlisted).1
      rw [hstray.1] at hp
      cases hp

end Changes

/-- The result of a change is told from the lists of the tree, except that a root with a stray
outcome of shared rolls is refused what might stand there. -/
theorem Reachable.update_told_iff {t : Tree} (h : Reachable t) {id : NodeId} {r : Record}
    (hr : t.get? id = some r) (change : Effect → Effect) :
    (Told t id (change r.effect) (t.update id change) ↔
      ¬ StraySharedRoll r (change r.effect)) ∧
    (StraySharedRoll r (change r.effect) →
      t.update id change = .error (.invalidSharedRoll id id (change r.effect).typeName)) := by
  refine ⟨⟨fun htold hstray => ?_, told_of_not_stray h.valid hr⟩, update_of_stray h.valid hr⟩
  exact not_told_of_stray h.valid hr hstray htold

/-- In a tree that operations have built no root carries an outcome, so the lists tell the result of
every change. -/
theorem Built.told {t : Tree} (h : Built t) {id : NodeId} {r : Record} (hr : t.get? id = some r)
    (change : Effect → Effect) : Told t id (change r.effect) (t.update id change) := by
  refine told_of_not_stray h.reachable.valid hr fun ⟨hp, ho, _⟩ => ?_
  obtain ⟨hmem, rfl⟩ := (get?_eq_some_iff h.reachable.valid.ids_nodup).mp hr
  have hbare : r.outcome = none := h.rootsBare r.node (root_of_record hmem hp)
  rw [hbare] at ho
  cases ho

theorem update_told_sharedRoll :
    Told sharedRoll "fire" (.condition ⟨"prone", none⟩)
      (sharedRoll.update "fire" fun _ => .condition ⟨"prone", none⟩) ∧
    sharedRoll.update "fire" (fun _ => .condition ⟨"prone", none⟩) =
      .error (.invalidSharedRoll "save" "fire" "condition") := by
  have hr : sharedRoll.get? "fire" =
      some ⟨"fire", some "save", some .sharedRolls, .damage ⟨.fire, "2d6", none, none, none⟩⟩ := by
    decide
  obtain ⟨htold, -⟩ := Reachable.update_told_iff built_sharedRoll.reachable hr
    fun _ => .condition ⟨"prone", none⟩
  have hbelow : ¬ StraySharedRoll ⟨"fire", some "save", some .sharedRolls,
      .damage ⟨.fire, "2d6", none, none, none⟩⟩ (.condition ⟨"prone", none⟩) := by
    rintro ⟨hp, -⟩
    cases hp
  exact ⟨htold.mpr hbelow, by decide⟩

/-- A condition without a parent that is stored under shared rolls all the same. -/
def strayRoll : Record :=
  ⟨"r", none, some .sharedRolls, .condition ⟨"prone", none⟩⟩

/-- The stray record loads as a root. The root stands in no shared rolls and owns nothing, and yet
it cannot be changed into a note. -/
theorem not_told_strayRoll :
    ofRecords? [strayRoll] = .ok (.leaf strayRoll.node) ∧
      update "r" (fun _ => .text ⟨.general, "Burns blue."⟩) (.leaf strayRoll.node) =
        .error (.invalidSharedRoll "r" "r" "text") ∧
      ¬ Told (.leaf strayRoll.node) "r" (.text ⟨.general, "Burns blue."⟩)
        (update "r" (fun _ => .text ⟨.general, "Burns blue."⟩) (.leaf strayRoll.node)) := by
  have hload : ofRecords? [strayRoll] = .ok (.leaf strayRoll.node) := by decide
  have hr : Tree.get? (.leaf strayRoll.node) "r" = some strayRoll := by decide
  have hstray : StraySharedRoll strayRoll (.text ⟨.general, "Burns blue."⟩) :=
    ⟨rfl, rfl, rfl, rfl⟩
  have hvalid : Valid (.leaf strayRoll.node) := (Reachable.load hload).valid
  let change : Effect → Effect := fun _ => .text ⟨.general, "Burns blue."⟩
  have hrefused : update "r" change (.leaf strayRoll.node) = _ :=
    update_of_stray hvalid hr hstray
  have hnot : ¬ Told _ "r" (change strayRoll.effect) (update "r" change (.leaf strayRoll.node)) :=
    not_told_of_stray hvalid hr hstray
  exact ⟨hload, hrefused, hnot⟩

end Tree

end Spellwork
