import Spellwork.Proofs.Leaves
import Spellwork.Proofs.RoundTrip
import Spellwork.Prose.Action

/-!
# The shape of an action's effects

What the text of an action speaks of fixes the tree of its effects up to the ids (`Action.shape`).
The ids are the next ones of the mint. Unless two of them coincide, the records of the action are
those of that tree and can be loaded again (`Action.effects_shape`).
-/

namespace Spellwork

open Spellwork.Forest Spellwork.Tree

namespace Action

open Prose

/-! ## The shape -/

/-- Effects under one outcome. -/
def edge (o : Outcome) (es : List Effect) : List (Option Outcome × Effect) :=
  es.map fun e => (some o, e)

/-- The damage, if a formula was found. -/
def damage? (a : Action) : Option Effect :=
  a.formula?.map fun formula => .damage { damageType := a.damageType, formula }

/-- The names of conditions, each one where it comes first. -/
def conditionNames (cs : List ConditionClause) : List String :=
  (cs.map ConditionClause.condition).eraseDups

/-- A condition with the way out of its first clause. -/
def firstNamed (cs : List ConditionClause) (name : String) : Effect :=
  .condition {
    condition := name
    escape := (cs.find? fun c => c.condition = name).bind ConditionClause.escape }

/-- The conditions for an outcome. -/
def conditionsFor (o : Outcome) (cs : List ConditionClause) : List Effect :=
  (cs.filter fun c => c.outcome = o).map conditionEffect

/-- All of the damage, if a formula was found. -/
def fullMarker (a : Action) : List Effect :=
  if a.damage?.isSome then [.damageOutcome .fullDamage] else []

/-- Half of the damage, if a formula was found and saving halves it. -/
def halfMarker (a : Action) (save : SaveClause) : List Effect :=
  if a.damage?.isSome && save.halfOnSave then [.damageOutcome .halfDamage] else []

/-- What stands below a saving throw, in the order of outcomes. -/
def saveEdges (a : Action) (save : SaveClause) (cs : List ConditionClause) :
    List (Option Outcome × Effect) :=
  edge .sharedRolls a.damage?.toList ++
    edge .failedSave (a.fullMarker ++ (conditionNames cs).map (firstNamed cs)) ++
    edge .passedSave (a.halfMarker save)

/-- What stands below damage, in the order of outcomes. -/
def damageEdges (cs : List ConditionClause) : List (Option Outcome × Effect) :=
  edge .hit (.damageOutcome .fullDamage :: conditionsFor .hit cs) ++
    edge .criticalHit (conditionsFor .criticalHit cs)

/-- The outcomes and effects of the tree, given what was found in the text: a saving throw, or else
damage, or else conditions. -/
def shape (a : Action) : Forest (Option Outcome × Effect) :=
  let conditions := conditionsOf a.description.toList
  match save? a.description.toList, a.damage? with
  | some save, _ =>
    .node (none, .savingThrow { ability := save.ability, dc := some save.dc })
      (leaves (a.saveEdges save conditions)) .nil
  | none, some damage => .node (none, damage) (leaves (damageEdges conditions)) .nil
  | none, none => leaves (conditions.map fun c => (none, conditionEffect c))

/-- The ids minted for the action, as many as its shape has effects. -/
def mintedIds (a : Action) : List NodeId :=
  ((Random.Mint.ofContext a.context).take a.shape.size).1

/-! ## Conditions under a saving throw -/

theorem firstNamed_cons_self (c : ConditionClause) (cs : List ConditionClause) :
    firstNamed (c :: cs) c.condition = conditionEffect c := by
  simp [firstNamed, conditionEffect]

theorem firstNamed_cons_of_ne {c : ConditionClause} {name : String} (h : name ≠ c.condition)
    (cs : List ConditionClause) : firstNamed (c :: cs) name = firstNamed cs name := by
  simp [firstNamed, h.symm]

/-- A condition that is not kept yet is kept where it comes first. -/
theorem map_distinctConditions_kept (kept : List String) (cs : List ConditionClause) :
    (distinctConditions kept cs).map conditionEffect =
      ((cs.map ConditionClause.condition).filter (· ∉ kept)).eraseDups.map (firstNamed cs) := by
  induction cs generalizing kept with
  | nil => rfl
  | cons c cs ih =>
      rw [distinctConditions, List.map_cons]
      by_cases hkept : c.condition ∈ kept
      · rw [if_pos (by simpa using hkept), ih, List.filter_cons_of_neg (by simpa using hkept)]
        refine List.map_congr_left fun name hname => (firstNamed_cons_of_ne ?_ cs).symm
        rintro rfl
        simp [List.mem_eraseDups, hkept] at hname
      · have hrest : (cs.map ConditionClause.condition).filter (· ∉ c.condition :: kept) =
            ((cs.map ConditionClause.condition).filter (· ∉ kept)).filter
              fun name => !name == c.condition := by
          rw [List.filter_filter]
          refine List.filter_congr fun name _ => Bool.eq_iff_iff.mpr ?_
          simp [not_or]
        rw [if_neg (by simpa using hkept), List.map_cons, ih,
          List.filter_cons_of_pos (by simpa using hkept), List.eraseDups_cons, List.map_cons,
          firstNamed_cons_self, hrest]
        refine congrArg (conditionEffect c :: ·) (List.map_congr_left fun name hname => ?_)
        refine (firstNamed_cons_of_ne ?_ cs).symm
        rintro rfl
        simp [List.mem_eraseDups] at hname

theorem map_distinctConditions (cs : List ConditionClause) :
    (distinctConditions [] cs).map conditionEffect =
      (conditionNames cs).map (firstNamed cs) := by
  have hall : (cs.map ConditionClause.condition).filter (· ∉ ([] : List String)) =
      cs.map ConditionClause.condition := by simp
  rw [map_distinctConditions_kept, hall, conditionNames]

/-! ## Below the root -/

theorem siblings_eq (ds : List (Outcome × Effect)) :
    siblings ds = Outline.draftLeaves (ds.map fun d => (some d.1, d.2)) := by
  induction ds with
  | nil => rfl
  | cons d ds ih => exact congrArg (Forest.node ⟨none, some d.1, d.2⟩ .nil) ih

theorem roots_eq (cs : List ConditionClause) :
    cs.foldr (fun c rest => .node ⟨none, none, conditionEffect c⟩ .nil rest) .nil =
      Outline.draftLeaves (cs.map fun c => (none, conditionEffect c)) := by
  induction cs with
  | nil => rfl
  | cons c cs ih => exact congrArg (Forest.node ⟨none, none, conditionEffect c⟩ .nil) ih

theorem edge_append (o : Outcome) (es fs : List Effect) :
    edge o (es ++ fs) = edge o es ++ edge o fs :=
  List.map_append

theorem filter_edge (o o' : Outcome) (es : List Effect) :
    (edge o es).filter (fun d => d.1 = some o') = if o = o' then edge o es else [] := by
  by_cases h : o = o' <;> simp [edge, h]

theorem fst_of_mem_edge {o : Outcome} {es : List Effect} {d : Option Outcome × Effect}
    (h : d ∈ edge o es) : d.1 = some o := by
  obtain ⟨e, -, rfl⟩ := List.mem_map.mp h
  rfl

theorem underSave_eq (a : Action) (save : SaveClause) (cs : List ConditionClause) :
    (a.underSave save cs).map (fun d => (some d.1, d.2)) =
      edge .sharedRolls a.damage?.toList ++ (edge .failedSave a.fullMarker ++
        (edge .passedSave (a.halfMarker save) ++
          edge .failedSave ((conditionNames cs).map (firstNamed cs)))) := by
  have hconditions : (distinctConditions [] cs).map (fun c =>
      (some Outcome.failedSave, conditionEffect c)) =
        edge .failedSave ((conditionNames cs).map (firstNamed cs)) := by
    rw [← map_distinctConditions, edge, List.map_map]
    rfl
  unfold underSave fullMarker halfMarker damage?
  cases a.formula? with
  | none =>
      simpa [List.map_map, Function.comp_def, edge] using hconditions
  | some formula =>
      cases save.halfOnSave <;>
        simpa [List.map_map, Function.comp_def, edge] using hconditions

/-- Behind what comes before both, effects under two outcomes fall into two edges. -/
theorem placeAll_two_edges {low high : Outcome} (hrank : low.rank < high.rank)
    {before l : List (Option Outcome × Effect)}
    (hbefore : ∀ y ∈ before, notAfter y.1 (some low) = true)
    (hl : ∀ x ∈ l, x.1 = some low ∨ x.1 = some high) :
    placeAll Prod.fst before l =
      before ++ l.filter (fun x => x.1 = some low) ++ l.filter fun x => x.1 = some high := by
  have hlow : notAfter (some high) (some low) = false :=
    Bool.eq_false_iff.mpr fun h => Nat.not_le.mpr hrank (notAfter_iff.mp h)
  have hnone : ∀ y ∈ ([] : List (Option Outcome × Effect)), y.1 = some high :=
    fun _ hy => nomatch hy
  have hsplit := placeAll_two hlow hbefore hnone hl
  rwa [List.append_nil] at hsplit

theorem placeAll_underSave (a : Action) (save : SaveClause) (cs : List ConditionClause) :
    placeAll Prod.fst [] ((a.underSave save cs).map fun d => (some d.1, d.2)) =
      a.saveEdges save cs := by
  have hshared : placeAll Prod.fst [] (edge .sharedRolls a.damage?.toList) =
      edge .sharedRolls a.damage?.toList := by
    cases a.damage? <;> rfl
  have hbefore : ∀ y ∈ edge .sharedRolls a.damage?.toList,
      notAfter y.1 (some Outcome.failedSave) = true := by
    intro y hy
    rw [fst_of_mem_edge hy]
    rfl
  -- full damage and the conditions share an edge, with half damage between them in the text
  have hrest : ∀ d ∈ edge .failedSave a.fullMarker ++ (edge .passedSave (a.halfMarker save) ++
      edge .failedSave ((conditionNames cs).map (firstNamed cs))),
      d.1 = some .failedSave ∨ d.1 = some .passedSave := by
    intro d hd
    simp only [List.mem_append] at hd
    rcases hd with hd | hd | hd
    · exact Or.inl (fst_of_mem_edge hd)
    · exact Or.inr (fst_of_mem_edge hd)
    · exact Or.inl (fst_of_mem_edge hd)
  rw [underSave_eq, placeAll_append, hshared, placeAll_two_edges (by decide) hbefore hrest]
  simp [saveEdges, List.filter_append, filter_edge, edge_append]

theorem edge_conditionsFor (o : Outcome) (cs : List ConditionClause) :
    edge o (conditionsFor o cs) =
      (cs.filter fun c => c.outcome = o).map fun c => (some c.outcome, conditionEffect c) := by
  rw [edge, conditionsFor, List.map_map]
  refine List.map_congr_left fun c hc => ?_
  obtain rfl : c.outcome = o := of_decide_eq_true (List.mem_filter.mp hc).2
  rfl

/-- Of the conditions below damage, those for one of its outcomes are all there are. -/
theorem filter_underDamage {o : Outcome} (h : o = .hit ∨ o = .criticalHit)
    (cs : List ConditionClause) :
    ((underDamage cs).map fun d => (some d.1, d.2)).filter (fun d => d.1 = some o) =
      (if o = .hit then edge .hit [.damageOutcome .fullDamage] else []) ++
        edge o (conditionsFor o cs) := by
  have hkept : (cs.filter fun c => c.outcome = .hit || c.outcome = .criticalHit).filter
      (fun c => c.outcome = o) = cs.filter fun c => c.outcome = o := by
    rw [List.filter_filter]
    refine List.filter_congr fun c _ => ?_
    rcases h with rfl | rfl <;> cases c.outcome <;> rfl
  rw [edge_conditionsFor, ← hkept]
  rcases h with rfl | rfl <;>
    simp [underDamage, edge, List.filter_map, Function.comp_def]

theorem fst_of_mem_underDamage {cs : List ConditionClause} {d : Option Outcome × Effect}
    (hd : d ∈ (underDamage cs).map fun d => (some d.1, d.2)) :
    d.1 = some .hit ∨ d.1 = some .criticalHit := by
  simp only [underDamage, List.map_cons, List.map_map, List.mem_cons, List.mem_map,
    List.mem_filter] at hd
  rcases hd with rfl | ⟨c, ⟨-, hc⟩, rfl⟩
  · exact Or.inl rfl
  · simpa using hc

theorem placeAll_underDamage (cs : List ConditionClause) :
    placeAll Prod.fst [] ((underDamage cs).map fun d => (some d.1, d.2)) = damageEdges cs := by
  have hnone : ∀ y ∈ ([] : List (Option Outcome × Effect)),
      notAfter y.1 (some Outcome.hit) = true := fun _ hy => nomatch hy
  rw [placeAll_two_edges (by decide) hnone fun _ => fst_of_mem_underDamage,
    filter_underDamage (Or.inl rfl), filter_underDamage (Or.inr rfl), damageEdges,
    ← List.singleton_append, edge_append]
  rfl

/-! ## The tree -/

theorem admits_underSave {a : Action} {save : SaveClause} {cs : List ConditionClause}
    {d : Option Outcome × Effect} (hd : d ∈ (a.underSave save cs).map fun d => (some d.1, d.2))
    (root : SavingThrow) (id : NodeId) : (Effect.savingThrow root).Admits ⟨id, d.1, d.2⟩ := by
  rw [underSave_eq] at hd
  simp only [List.mem_append] at hd
  rcases hd with hd | hd | hd | hd
  · refine ⟨_, fst_of_mem_edge hd, rfl, fun _ => ?_⟩
    obtain ⟨e, he, rfl⟩ := List.mem_map.mp hd
    obtain ⟨formula, -, rfl⟩ := Option.map_eq_some_iff.mp (Option.mem_toList.mp he)
    rfl
  all_goals exact ⟨_, fst_of_mem_edge hd, rfl, fun h => nomatch h⟩

theorem admits_underDamage {cs : List ConditionClause} {d : Option Outcome × Effect}
    (hd : d ∈ (underDamage cs).map fun d => (some d.1, d.2)) (root : Damage) (id : NodeId) :
    (Effect.damage root).Admits ⟨id, d.1, d.2⟩ := by
  rcases fst_of_mem_underDamage hd with h | h
  all_goals exact ⟨_, h, rfl, fun hshared => nomatch hshared⟩

theorem becomes_shape (a : Action) (mint : Random.Mint) :
    Outline.Becomes a.drafts mint a.shape := by
  unfold drafts shape
  dsimp only
  cases save? a.description.toList with
  | some save =>
      dsimp only
      rw [siblings_eq, ← placeAll_underSave]
      exact Outline.becomes_root rfl (fun d hd id => admits_underSave hd _ id) mint
  | none =>
      unfold damage?
      cases a.formula? with
      | some formula =>
          dsimp only [Option.map_some]
          rw [siblings_eq, ← placeAll_underDamage]
          exact Outline.becomes_root rfl (fun d hd id => admits_underDamage hd _ id) mint
      | none =>
          dsimp only [Option.map_none]
          rw [roots_eq]
          refine Outline.becomes_leaves (fun d hd => ?_) mint
          obtain ⟨c, -, rfl⟩ := List.mem_map.mp hd
          exact ⟨rfl, rfl⟩

/-- The tree that the records of an action come from. It has the shape of the action and the ids
minted for it, or two of these coincide and it is empty. -/
theorem exists_tree (a : Action) :
    ∃ t, Valid t ∧ RootsBare t ∧ t.flatten = a.effects ∧
      (a.mintedIds.Nodup →
        t.map (fun n => (n.outcome, n.effect)) = a.shape ∧ t.ids.Perm a.mintedIds) ∧
      (¬ a.mintedIds.Nodup → t = .nil) := by
  have hbecomes := a.becomes_shape (Random.Mint.ofContext a.context)
  have hnil : RootsBare .nil := fun _ hn => nomatch hn
  unfold effects
  cases hplant : Outline.plantDrafts none a.drafts .nil (Random.Mint.ofContext a.context) with
  | ok planted =>
      obtain ⟨t, later⟩ := planted
      have hedits := Outline.edits_plantDrafts hplant
      refine ⟨t, hedits.valid valid_nil, hedits.rootsBare hnil, rfl, fun hnd => ?_,
        fun htwice => ?_⟩
      · obtain ⟨t', later', ht, hshape, hids⟩ := hbecomes.planted hnd
        rw [hplant] at ht
        cases ht
        exact ⟨hshape, hids⟩
      · have hnone := hbecomes.refused htwice
        rw [hplant] at hnone
        cases hnone
  | error err =>
      refine ⟨.nil, valid_nil, hnil, rfl, fun hnd => ?_, fun _ => rfl⟩
      obtain ⟨t, later, ht, -⟩ := hbecomes.planted hnd
      rw [hplant] at ht
      cases ht

/-- The records of an action can be loaded, and storing what was loaded gives them again. What was
loaded has the shape of the action and the ids minted for it; only if two of these coincide it is
empty. -/
theorem effects_shape (a : Action) :
    ∃ t, Tree.ofRecords? a.effects = .ok t ∧ t.flatten = a.effects ∧
      (a.mintedIds.Nodup →
        t.map (fun n => (n.outcome, n.effect)) = a.shape ∧ t.ids.Perm a.mintedIds) ∧
      (¬ a.mintedIds.Nodup → t = .nil ∧ a.effects = []) := by
  obtain ⟨t, hvalid, hbare, hstore, hshape, hnil⟩ := a.exists_tree
  refine ⟨t, ?_, hstore, hshape, fun htwice => ⟨hnil htwice, ?_⟩⟩
  · rw [← hstore, hvalid.ofRecords?_flatten, clearRoots_eq_iff.mpr hbare]
  · rw [← hstore, hnil htwice]
    rfl

/-- An attack with a claw. -/
def claw : Action where
  damageFormula := some "2d6+4 slashing"

theorem effects_claw :
    claw.effects =
      [⟨"QuWLBcbmyMHysNoN", none, none, .damage { damageType := .slashing, formula := "2d6+4" }⟩,
        ⟨"SsewfOtV3fxbObdw", some "QuWLBcbmyMHysNoN", some .hit, .damageOutcome .fullDamage⟩] := by
  decide +kernel

theorem effects_shape_claw :
    claw.mintedIds.Nodup ∧ ∃ t, Tree.ofRecords? claw.effects = .ok t ∧ t.flatten = claw.effects ∧
      t.map (fun n => (n.outcome, n.effect)) = claw.shape ∧ t.ids.Perm claw.mintedIds := by
  obtain ⟨t, hload, hstore, hshape, hnone⟩ := effects_shape claw
  have hids : claw.mintedIds.Nodup := by
    by_contra htwice
    have hempty := (hnone htwice).2
    rw [effects_claw] at hempty
    cases hempty
  exact ⟨hids, t, hload, hstore, hshape hids⟩

/-- A saving throw with all that it can have below it. -/
example : shape { description := "DC 14 DEX save for half: 4d6 fire damage, [[prone]]" } =
    .node (none, .savingThrow { ability := .dexterity, dc := some 14 })
      (leaves [(some .sharedRolls, .damage { damageType := .fire, formula := "4d6" }),
        (some .failedSave, .damageOutcome .fullDamage),
        (some .failedSave, .condition { condition := "prone", escape := none }),
        (some .passedSave, .damageOutcome .halfDamage)]) .nil := by
  decide

end Action

end Spellwork
