import Spellwork.Proofs.ActionShape
import Spellwork.Proofs.FoundConditions

/-!
# Repeated conditions

Whether an action puts one condition twice into one list of siblings. Reading keeps a condition once
for each outcome. Below a saving throw all conditions stand under one outcome and are told apart by
their names again; below damage each outcome has a list of its own. Where there are only conditions
they become roots, whose list knows no outcomes: there a condition stands twice if it was found for
two outcomes (`Action.nodup_listed_iff`).
-/

namespace Spellwork

open Spellwork.Forest Spellwork.Tree

/-- The name of a condition. -/
def Effect.conditionName? : Effect → Option String
  | .condition c => some c.condition
  | _ => none

/-- The list in which a condition stands, told by the effect above it and the outcome, with the name
of the condition. -/
def Record.listed? (r : Record) : Option (Option NodeId × Option Outcome × String) :=
  r.effect.conditionName?.map fun name => (r.parent, r.outcome, name)

namespace Action

open Prose

/-- The conditions among siblings, with their outcomes. -/
def namesOf (ds : List (Option Outcome × Effect)) : List (Option Outcome × String) :=
  ds.filterMap fun d => d.2.conditionName?.map fun name => (d.1, name)

theorem namesOf_append (ds ds' : List (Option Outcome × Effect)) :
    namesOf (ds ++ ds') = namesOf ds ++ namesOf ds' :=
  List.filterMap_append

/-- The records of leaves tell the siblings that the leaves are. -/
theorem filterMap_listed_leaves (q : Option NodeId) {t : Tree}
    {ds : List (Option Outcome × Effect)}
    (h : t.map (fun n => (n.outcome, n.effect)) = leaves ds) :
    (recordsBelow q t).filterMap Record.listed? = (namesOf ds).map fun d => (q, d) := by
  induction ds generalizing t with
  | nil =>
      cases t with
      | nil => rfl
      | node n c r => cases h
  | cons d ds ih =>
      cases t with
      | nil => cases h
      | node n c r =>
          obtain ⟨rfl, hc, hr⟩ := Forest.node.inj h
          have hnil : c = .nil := by
            cases c with
            | nil => rfl
            | node => cases hc
          rw [hnil, recordsBelow, recordsBelow, List.nil_append, namesOf, List.filterMap_cons,
            List.filterMap_cons, ih hr, Record.listed?]
          cases n.effect.conditionName? <;> rfl

theorem nodup_map_prod {q : Option NodeId} {ds : List (Option Outcome × String)} :
    (ds.map fun d => (q, d)).Nodup ↔ ds.Nodup :=
  List.nodup_map_iff fun _ _ h => (Prod.mk.inj h).2

/-- Below a root that is no condition the lists are those of the leaves. -/
theorem nodup_listed_node {t : Tree} {d : Option Outcome × Effect}
    {ds : List (Option Outcome × Effect)} (hroot : d.2.conditionName? = none)
    (h : t.map (fun n => (n.outcome, n.effect)) = .node d (leaves ds) .nil) :
    (t.records.filterMap Record.listed?).Nodup ↔ (namesOf ds).Nodup := by
  cases t with
  | nil => cases h
  | node n c r =>
      obtain ⟨rfl, hc, hr⟩ := Forest.node.inj h
      have hnil : r = .nil := by
        cases r with
        | nil => rfl
        | node => cases hr
      have hnone : Record.listed? ⟨n.id, none, n.outcome, n.effect⟩ = none := by
        rw [Record.listed?, hroot]
        rfl
      rw [hnil, records, recordsBelow, recordsBelow, List.append_nil, List.filterMap_cons, hnone,
        filterMap_listed_leaves (some n.id) hc, nodup_map_prod]

/-! ## The names in each list -/

theorem namesOf_edge (o : Outcome) (es : List Effect) :
    namesOf (edge o es) = (es.filterMap Effect.conditionName?).map fun name => (some o, name) := by
  rw [namesOf, edge, List.filterMap_map, List.map_filterMap]
  rfl

theorem nodup_map_some {o : Outcome} {names : List String} :
    (names.map fun name => (some o, name)).Nodup ↔ names.Nodup :=
  List.nodup_map_iff fun _ _ h => (Prod.mk.inj h).2

theorem nodup_eraseDups (names : List String) : names.eraseDups.Nodup := by
  induction hn : names.length using Nat.strongRecOn generalizing names with
  | ind n ih =>
      cases names with
      | nil => exact List.nodup_nil
      | cons name names =>
          have hlt : (names.filter fun b => !b == name).length < n := by
            rw [← hn]
            exact Nat.lt_succ_of_le (List.length_filter_le _ _)
          rw [List.eraseDups_cons, List.nodup_cons, List.mem_eraseDups]
          exact ⟨fun hmem => by simp at hmem, ih _ hlt _ rfl⟩

/-- Below a saving throw the names of the conditions are told apart. -/
theorem nodup_namesOf_saveEdges (a : Action) (save : SaveClause) (cs : List ConditionClause) :
    (namesOf (a.saveEdges save cs)).Nodup := by
  have hdamage : a.damage?.toList.filterMap Effect.conditionName? = [] := by
    unfold damage?
    cases a.formula? <;> rfl
  have hfull : a.fullMarker.filterMap Effect.conditionName? = [] := by
    unfold fullMarker
    split <;> rfl
  have hhalf : (a.halfMarker save).filterMap Effect.conditionName? = [] := by
    unfold halfMarker
    split <;> rfl
  have hnames : ((conditionNames cs).map (firstNamed cs)).filterMap Effect.conditionName? =
      conditionNames cs := by
    rw [List.filterMap_map]
    exact List.filterMap_some
  rw [saveEdges, namesOf_append, namesOf_append, namesOf_edge, namesOf_edge, namesOf_edge,
    List.filterMap_append, hdamage, hfull, hhalf, hnames]
  simp only [List.map_nil, List.nil_append, List.append_nil, nodup_map_some]
  exact nodup_eraseDups _

theorem filterMap_conditionEffect (cs : List ConditionClause) :
    (cs.map conditionEffect).filterMap Effect.conditionName? =
      cs.map ConditionClause.condition := by
  rw [List.filterMap_map, ← List.filterMap_eq_map]
  rfl

theorem nodup_conditionsFor {cs : List ConditionClause}
    (hcs : cs.Pairwise fun c d => ¬ SameKey c d) (o : Outcome) :
    ((conditionsFor o cs).filterMap Effect.conditionName?).Nodup := by
  rw [conditionsFor, filterMap_conditionEffect]
  refine List.pairwise_map.mpr ((hcs.filter _).imp_of_mem fun {c d} hc hd hne heq => hne ⟨heq, ?_⟩)
  have hc := of_decide_eq_true (List.mem_filter.mp hc).2
  have hd := of_decide_eq_true (List.mem_filter.mp hd).2
  exact hc.trans hd.symm

/-- Below damage the outcomes have lists of their own, and for one outcome no condition was found
twice. -/
theorem nodup_namesOf_damageEdges {cs : List ConditionClause}
    (hcs : cs.Pairwise fun c d => ¬ SameKey c d) : (namesOf (damageEdges cs)).Nodup := by
  have hhit : (Effect.damageOutcome .fullDamage :: conditionsFor .hit cs).filterMap
      Effect.conditionName? = (conditionsFor .hit cs).filterMap Effect.conditionName? := rfl
  rw [damageEdges, namesOf_append, namesOf_edge, namesOf_edge, hhit, List.nodup_append']
  refine ⟨nodup_map_some.mpr (nodup_conditionsFor hcs _),
    nodup_map_some.mpr (nodup_conditionsFor hcs _), fun d hd hd' => ?_⟩
  obtain ⟨name, -, rfl⟩ := List.mem_map.mp hd
  obtain ⟨name', -, heq⟩ := List.mem_map.mp hd'
  cases heq

/-- Roots know no outcomes: they are told apart only if each condition was found for one. -/
theorem nodup_namesOf_roots_iff {cs : List ConditionClause}
    (hcs : cs.Pairwise fun c d => ¬ SameKey c d) :
    (namesOf (cs.map fun c => (none, conditionEffect c))).Nodup ↔
      ∀ c ∈ cs, ∀ d ∈ cs, c.condition = d.condition → c.outcome = d.outcome := by
  have hnames : namesOf (cs.map fun c => (none, conditionEffect c)) =
      (cs.map ConditionClause.condition).map fun name => (none, name) := by
    rw [namesOf, List.filterMap_map, List.map_map, ← List.filterMap_eq_map]
    rfl
  have hinj : ∀ name name' : String, ((none : Option Outcome), name) = (none, name') →
      name = name' := fun _ _ h => (Prod.mk.inj h).2
  rw [hnames, List.nodup_map_iff hinj]
  constructor
  · intro hnd c hc d hd heq
    rw [List.inj_on_of_nodup_map hnd hc hd heq]
  · intro hsame
    refine List.pairwise_map.mpr (hcs.imp_of_mem fun {c d} hc hd hne heq => hne ⟨heq, ?_⟩)
    exact hsame c hc d hd heq

/-! ## The lists of an action -/

/-- No list of siblings has a condition twice, if and only if there are no effects, because ids
coincide, or a saving throw or damage is the root, or every condition was found for one outcome
only. -/
theorem nodup_listed_iff (a : Action) :
    (a.effects.filterMap Record.listed?).Nodup ↔
      ¬ a.mintedIds.Nodup ∨ (save? a.description.toList).isSome = true ∨
        a.formula?.isSome = true ∨
        ∀ c ∈ conditionsOf a.description.toList, ∀ d ∈ conditionsOf a.description.toList,
          c.condition = d.condition → c.outcome = d.outcome := by
  obtain ⟨t, -, hbare, hstore, hshape, hnil⟩ := a.exists_tree
  rw [← hstore, hbare.flatten_eq]
  by_cases hnd : a.mintedIds.Nodup
  · have hshape := (hshape hnd).1
    have hcs := pairwise_conditionsOf a.description.toList
    unfold shape at hshape
    dsimp only at hshape
    split at hshape
    · rename_i save hsave
      rw [nodup_listed_node rfl hshape, hsave]
      exact iff_of_true (nodup_namesOf_saveEdges a save _) (Or.inr (Or.inl rfl))
    · rename_i damage _ hdamage
      obtain ⟨formula, hformula, rfl⟩ := Option.map_eq_some_iff.mp hdamage
      rw [nodup_listed_node rfl hshape, hformula]
      exact iff_of_true (nodup_namesOf_damageEdges hcs) (Or.inr (Or.inr (Or.inl rfl)))
    · rename_i hsave hdamage
      have hformula : a.formula? = none := Option.map_eq_none_iff.mp hdamage
      rw [records, filterMap_listed_leaves none hshape, nodup_map_prod,
        nodup_namesOf_roots_iff hcs, hsave, hformula]
      simp [hnd]
  · rw [hnil hnd]
    exact iff_of_true List.nodup_nil (Or.inl hnd)

/-- A blow that knocks down on a hit and on a critical hit. -/
def knockdown : Action where
  description := "[[Prone]]. Crit: [[Prone]]"

/-- The blow has the condition twice among its roots. -/
theorem not_forall_nodup_listed : ¬ ∀ a : Action, (a.effects.filterMap Record.listed?).Nodup := by
  intro hall
  have hlisted : knockdown.effects.filterMap Record.listed? =
      [(none, none, "prone"), (none, none, "prone")] := by
    decide +kernel
  have hnd := hall knockdown
  rw [hlisted] at hnd
  simp at hnd

end Action

end Spellwork
