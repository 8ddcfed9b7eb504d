import Spellwork.Effect.OutlineWire
import Spellwork.Proofs.Drafts
import Spellwork.Proofs.EffectWire

/-!
# Outlines as text

What is written of an outline reads back as the outline, if its map of graded failures is one that
can be written: keys in order and no empty list among them (`Tidy`). Lists that are empty are left
out on the way, and an effect with nothing below it says nothing about what stands there, so the
reader has to put them back. The outlines of a tree are tidy.
-/

namespace Spellwork

namespace Json

/-! ## Depth of parts -/

theorem depth_lt_array {items : List Json} {v : Json} (h : v ∈ items) :
    v.depth < (Json.array items).depth :=
  Nat.lt_succ_of_le (depthOfItems_le_iff.mp (Nat.le_refl _) v h)

theorem depth_lt_object {members : List (String × Json)} {m : String × Json}
    (h : m ∈ members) : m.2.depth < (Json.object members).depth :=
  Nat.lt_succ_of_le (depthOfMembers_le_iff.mp (Nat.le_refl _) m h)

/-! ## Maps with distinct keys -/

theorem putPair_of_not_mem {key : String} {value : α} {ps : List (String × α)}
    (h : key ∉ ps.map Prod.fst) : putPair key value ps = ps ++ [(key, value)] := by
  induction ps with
  | nil => rfl
  | cons p ps ih =>
      rw [List.map_cons, List.mem_cons, not_or] at h
      rw [putPair, if_neg (Ne.symm h.1), ih h.2]
      rfl

theorem lastPairs_of_nodup {ps : List (String × α)} (h : (ps.map Prod.fst).Nodup) :
    lastPairs ps = ps := by
  have step : ∀ done : List (String × α), ((done ++ ps).map Prod.fst).Nodup →
      ps.foldl (fun done p => putPair p.1 p.2 done) done = done ++ ps := by
    clear h
    induction ps with
    | nil => exact fun done _ => (List.append_nil done).symm
    | cons p ps ih =>
        intro done hnd
        have hsame : done ++ p :: ps = (done ++ [p]) ++ ps := by simp
        have hp : p.1 ∉ done.map Prod.fst := by
          rw [List.map_append, List.nodup_append] at hnd
          exact fun hmem => hnd.2.2 p.1 hmem p.1 (by simp) rfl
        rw [List.foldl_cons, putPair_of_not_mem hp, hsame, ih _ (hsame ▸ hnd)]
  exact step [] h

theorem map?_object {decode : Json → Option α} {encode : α → Json} {ps : List (String × α)}
    (h : ∀ p ∈ ps, decode (encode p.2) = some p.2) (hnd : (ps.map Prod.fst).Nodup) :
    map? decode (.object (ps.map fun p => (p.1, encode p.2))) = some ps := by
  have hvalues : (ps.map fun p => (p.1, encode p.2)).mapM
      (fun m => (decode m.2).map fun a => (m.1, a)) = some ps := by
    clear hnd
    induction ps with
    | nil => rfl
    | cons p ps ih =>
        have hrest := ih fun q hq => h q (List.mem_cons_of_mem _ hq)
        simp [h p (List.mem_cons_self ..), hrest]
  rw [map?, members?]
  simp only [hvalues, Option.map_some, lastPairs_of_nodup hnd]

end Json

open Json Members

/-- All outlines that stand below an effect. -/
def OutlineEdges.outlines (on : OutlineEdges α) : List α :=
  on.hit ++ on.miss ++ on.criticalHit ++ on.failedSave ++ on.passedSave ++
    on.failedSaveBy.flatMap (·.2)

namespace Outline

/-- Graded failures stand in the order of their keys, and there are none with nothing below. -/
inductive Tidy : Outline → Prop where
  | shorthand (text : String) : Tidy (.shorthand text)
  | full {id : Option NodeId} {effect : Effect} {sharedRolls : List Outline}
      {on : OutlineEdges Outline} (hshared : ∀ o ∈ sharedRolls, Tidy o)
      (hbelow : ∀ o ∈ on.outlines, Tidy o)
      (hkeys : (on.failedSaveBy.map Prod.fst).Pairwise (· < ·))
      (hlists : ∀ p ∈ on.failedSaveBy, p.2 ≠ []) : Tidy (.full id effect sharedRolls on)

theorem toJsons_eq (os : List Outline) : toJsons os = os.map toJson := by
  induction os with
  | nil => rfl
  | cons o os ih => rw [toJsons, ih, List.map_cons]

theorem gradedToMembers_eq (ps : List (String × List Outline)) :
    gradedToMembers ps = ps.map fun p => (p.1, ofList toJson p.2) := by
  induction ps with
  | nil => rfl
  | cons p ps ih => rw [gradedToMembers, ih, List.map_cons, toJsons_eq, ofList]

theorem eq_empty_of_isEmpty {on : OutlineEdges Outline}
    (hlists : ∀ p ∈ on.failedSaveBy, p.2 ≠ []) (h : on.isEmpty = true) : on = {} := by
  obtain ⟨hit, miss, criticalHit, failedSave, passedSave, failedSaveBy⟩ := on
  simp only [OutlineEdges.isEmpty, Bool.and_eq_true, List.isEmpty_iff, List.all_eq_true] at h
  obtain ⟨⟨⟨⟨⟨rfl, rfl⟩, rfl⟩, rfl⟩, rfl⟩, hgraded⟩ := h
  have hnone : failedSaveBy = [] :=
    List.eq_nil_iff_forall_not_mem.mpr fun p hp => hlists p hp (hgraded p hp)
  rw [hnone]

theorem isEmpty_eq_false_of_mem {on : OutlineEdges Outline} {o : Outline}
    (h : o ∈ on.outlines) : on.isEmpty = false := by
  obtain ⟨hit, miss, criticalHit, failedSave, passedSave, failedSaveBy⟩ := on
  rw [Bool.eq_false_iff]
  intro hempty
  simp only [OutlineEdges.isEmpty, Bool.and_eq_true, List.isEmpty_iff, List.all_eq_true] at hempty
  obtain ⟨⟨⟨⟨⟨rfl, rfl⟩, rfl⟩, rfl⟩, rfl⟩, hgraded⟩ := hempty
  simp only [OutlineEdges.outlines, List.nil_append, List.mem_flatMap] at h
  obtain ⟨p, hp, ho⟩ := h
  rw [hgraded p hp] at ho
  cases ho

/-! ## Fields that are lists -/

theorem mem_memberIfAny {name : String} {items : List Json} {m : String × Json} :
    m ∈ memberIfAny name items ↔ items ≠ [] ∧ m = (name, .array items) := by
  cases items <;> simp [memberIfAny]

@[simp] theorem valuesOf_memberIfAny_of_ne {name other : String} (h : other ≠ name)
    (items : List Json) : valuesOf name (memberIfAny other items) = [] := by
  cases items <;> simp [memberIfAny, h]

/-- The member for graded failures. -/
def gradedMember (ps : List (String × List Outline)) : Members :=
  if ps.isEmpty then [] else [("failedSaveBy", .object (gradedToMembers ps))]

/-- The members for what stands below an effect. -/
def edgeMembers (on : OutlineEdges Outline) : Members :=
  memberIfAny "hit" (toJsons on.hit) ++ memberIfAny "miss" (toJsons on.miss) ++
    memberIfAny "criticalHit" (toJsons on.criticalHit) ++
    memberIfAny "failedSave" (toJsons on.failedSave) ++
    memberIfAny "passedSave" (toJsons on.passedSave) ++ gradedMember on.failedSaveBy

theorem edgesToMembers_eq (on : OutlineEdges Outline) :
    edgesToMembers on = edgeMembers on := by
  obtain ⟨hit, miss, criticalHit, failedSave, passedSave, failedSaveBy⟩ := on
  rw [edgesToMembers]
  rfl

/-- The member for what stands below an effect. -/
def onMember (on : OutlineEdges Outline) : Members :=
  if on.isEmpty then [] else [("on", .object (edgeMembers on))]

/-- The members of an effect that is written out, the effect's own ones in the middle. -/
def fullMembers (id : Option NodeId) (e : Effect) (sharedRolls : List Outline)
    (on : OutlineEdges Outline) : Members :=
  memberIfSome "id" Json.string id ++ e.toMembers ++
    (memberIfAny "sharedRolls" (toJsons sharedRolls) ++ onMember on)

theorem toJson_full (id : Option NodeId) (e : Effect) (sharedRolls : List Outline)
    (on : OutlineEdges Outline) :
    toJson (.full id e sharedRolls on) = .object (fullMembers id e sharedRolls on) := by
  rw [toJson, fullMembers, ← List.append_assoc, edgesToMembers_eq]
  rfl

@[simp] theorem valuesOf_gradedMember_of_ne {name : String} (h : "failedSaveBy" ≠ name)
    (ps : List (String × List Outline)) : valuesOf name (gradedMember ps) = [] := by
  cases ps <;> simp [gradedMember, h]

theorem mem_onMember {on : OutlineEdges Outline} {m : String × Json} :
    m ∈ onMember on ↔ on.isEmpty = false ∧ m = ("on", .object (edgeMembers on)) := by
  cases hempty : on.isEmpty <;> simp [onMember, hempty]

@[simp] theorem valuesOf_onMember_of_ne {name : String} (h : "on" ≠ name)
    (on : OutlineEdges Outline) : valuesOf name (onMember on) = [] := by
  cases hempty : on.isEmpty <;> simp [onMember, hempty, h]

section Decode

variable {decode : Json → Option Outline}

theorem list?_toJsons {os : List Outline} (h : ∀ o ∈ os, decode o.toJson = some o) :
    list? decode (.array (toJsons os)) = some os := by
  rw [toJsons_eq]
  exact list?_ofList h

/-- A list that was left out is empty. -/
theorem defaulted?_memberIfAny {ms : Members} {name : String} {os : List Outline}
    (h : ∀ o ∈ os, decode o.toJson = some o)
    (hms : ms.valuesOf name = valuesOf name (memberIfAny name (toJsons os))) :
    ms.defaulted? name [] (list? decode) = some os := by
  rw [defaulted?, hms]
  cases os with
  | nil => rfl
  | cons o os =>
      rw [toJsons, memberIfAny, List.isEmpty_cons, if_neg Bool.false_ne_true, valuesOf_cons,
        if_pos rfl, ← toJsons]
      exact list?_toJsons h

theorem gradedOfJson?_eq {ps : List (String × List Outline)}
    (h : ∀ p ∈ ps, ∀ o ∈ p.2, decode o.toJson = some o)
    (hkeys : (ps.map Prod.fst).Pairwise (· < ·)) :
    gradedOfJson? decode (.object (gradedToMembers ps)) = some ps := by
  have hnd : (ps.map Prod.fst).Nodup := hkeys.imp fun {a b} hab => ne_of_lt hab
  have hmap : map? (list? decode) (.object (ps.map fun p => (p.1, ofList toJson p.2))) = some ps :=
    map?_object (fun p hp => list?_ofList (h p hp)) hnd
  rw [gradedOfJson?, gradedToMembers_eq, hmap, Option.map_some, inKeyOrder_of_pairwise hkeys]

theorem edgesOfMembers?_eq {on : OutlineEdges Outline}
    (h : ∀ o ∈ on.outlines, decode o.toJson = some o)
    (hkeys : (on.failedSaveBy.map Prod.fst).Pairwise (· < ·)) :
    edgesOfMembers? decode (edgesToMembers on) = some on := by
  simp only [OutlineEdges.outlines, List.mem_append, List.mem_flatMap] at h
  rw [edgesToMembers_eq]
  generalize hms : edgeMembers on = ms
  have hhit : ms.defaulted? "hit" [] (list? decode) = some on.hit :=
    defaulted?_memberIfAny (fun o ho => h o (by simp [ho])) (by simp [← hms, edgeMembers])
  have hmiss : ms.defaulted? "miss" [] (list? decode) = some on.miss :=
    defaulted?_memberIfAny (fun o ho => h o (by simp [ho])) (by simp [← hms, edgeMembers])
  have hcriticalHit : ms.defaulted? "criticalHit" [] (list? decode) = some on.criticalHit :=
    defaulted?_memberIfAny (fun o ho => h o (by simp [ho])) (by simp [← hms, edgeMembers])
  have hfailedSave : ms.defaulted? "failedSave" [] (list? decode) = some on.failedSave :=
    defaulted?_memberIfAny (fun o ho => h o (by simp [ho])) (by simp [← hms, edgeMembers])
  have hpassedSave : ms.defaulted? "passedSave" [] (list? decode) = some on.passedSave :=
    defaulted?_memberIfAny (fun o ho => h o (by simp [ho])) (by simp [← hms, edgeMembers])
  have hfailedSaveBy :
      ms.defaulted? "failedSaveBy" [] (gradedOfJson? decode) = some on.failedSaveBy := by
    have hvalues : ms.valuesOf "failedSaveBy" = valuesOf "failedSaveBy"
        (gradedMember on.failedSaveBy) := by simp [← hms, edgeMembers]
    have hgraded := gradedOfJson?_eq (fun p hp o ho => h o (Or.inr ⟨p, hp, ho⟩)) hkeys
    rw [defaulted?, hvalues]
    cases hon : on.failedSaveBy with
    | nil => rfl
    | cons p ps =>
        rw [hon] at hgraded
        simpa [gradedMember] using hgraded
  simp only [edgesOfMembers?, hhit, hmiss, hcriticalHit, hfailedSave, hpassedSave, hfailedSaveBy]
  rfl

theorem effectOfMembers?_eq {id : Option NodeId} {e : Effect} {sharedRolls : List Outline}
    {on : OutlineEdges Outline} (hshared : ∀ o ∈ sharedRolls, decode o.toJson = some o)
    (hbelow : ∀ o ∈ on.outlines, decode o.toJson = some o)
    (hkeys : (on.failedSaveBy.map Prod.fst).Pairwise (· < ·))
    (hlists : ∀ p ∈ on.failedSaveBy, p.2 ≠ []) :
    effectOfMembers? decode (fullMembers id e sharedRolls on) =
      some (.full id e sharedRolls on) := by
  have hnone := e.valuesOf_toMembers
  have heffect : Effect.ofMembers? (fullMembers id e sharedRolls on) = some e := by
    refine Effect.ofMembers?_eq (((Agree.refl _ _).append_left ?_).append_right ?_)
    · intro m hm
      obtain ⟨_, -, rfl⟩ := mem_memberIfSome.mp hm
      simp [Effect.fieldNames]
    · intro m hm
      rcases List.mem_append.mp hm with hm | hm
      · obtain ⟨-, rfl⟩ := mem_memberIfAny.mp hm
        simp [Effect.fieldNames]
      · obtain ⟨-, rfl⟩ := mem_onMember.mp hm
        simp [Effect.fieldNames]
  generalize hms : fullMembers id e sharedRolls on = ms at heffect ⊢
  have hid : ms.optional? "id" string? = some id :=
    optional?_eq undoes_string (by simp [← hms, fullMembers, hnone "id" (by decide)])
  have hrolls : ms.defaulted? "sharedRolls" [] (list? decode) = some sharedRolls :=
    defaulted?_memberIfAny hshared
      (by simp [← hms, fullMembers, hnone "sharedRolls" (by decide)])
  have hon : ms.defaulted? "on" {} (record? (edgesOfMembers? decode)) = some on := by
    have hvalues : ms.valuesOf "on" = valuesOf "on" (onMember on) := by
      simp [← hms, fullMembers, hnone "on" (by decide)]
    rw [defaulted?, hvalues]
    cases hempty : on.isEmpty with
    | true =>
        rw [onMember, if_pos hempty, valuesOf_nil]
        exact congrArg some (eq_empty_of_isEmpty hlists hempty).symm
    | false =>
        have hedges := edgesOfMembers?_eq hbelow hkeys
        rw [edgesToMembers_eq] at hedges
        simpa [onMember, hempty, record?, members?] using hedges
  simp only [effectOfMembers?, hid, hrolls, hon, heffect]
  rfl

end Decode

/-! ## Depth -/

theorem toJson_mem_toJsons {os : List Outline} {o : Outline} (h : o ∈ os) :
    o.toJson ∈ toJsons os := by
  rw [toJsons_eq]
  exact List.mem_map_of_mem h

theorem depth_lt_memberIfAny {os : List Outline} {o : Outline} (h : o ∈ os) (name : String) :
    ∃ m ∈ memberIfAny name (toJsons os), o.toJson.depth < m.2.depth := by
  have hitem := toJson_mem_toJsons h
  exact ⟨(name, .array (toJsons os)), mem_memberIfAny.mpr ⟨List.ne_nil_of_mem hitem, rfl⟩,
    depth_lt_array hitem⟩

theorem depth_lt_gradedMember {ps : List (String × List Outline)} {p : String × List Outline}
    (hp : p ∈ ps) {o : Outline} (h : o ∈ p.2) :
    ∃ m ∈ gradedMember ps, o.toJson.depth < m.2.depth := by
  have hentry : (p.1, ofList toJson p.2) ∈ gradedToMembers ps := by
    rw [gradedToMembers_eq]
    exact List.mem_map_of_mem hp
  have hitem : o.toJson.depth < (ofList toJson p.2).depth :=
    depth_lt_array (List.mem_map_of_mem h)
  have hmember : ("failedSaveBy", Json.object (gradedToMembers ps)) ∈ gradedMember ps := by
    cases ps with
    | nil => cases hp
    | cons q ps => simp [gradedMember]
  exact ⟨_, hmember, Nat.lt_trans hitem (depth_lt_object hentry)⟩

theorem depth_lt_edgeMembers {on : OutlineEdges Outline} {o : Outline} (h : o ∈ on.outlines) :
    ∃ m ∈ edgeMembers on, o.toJson.depth < m.2.depth := by
  simp only [OutlineEdges.outlines, List.mem_append, List.mem_flatMap] at h
  rcases h with ((((h | h) | h) | h) | h) | ⟨p, hp, h⟩
  · obtain ⟨m, hm, hlt⟩ := depth_lt_memberIfAny h "hit"
    exact ⟨m, by simp [edgeMembers, hm], hlt⟩
  · obtain ⟨m, hm, hlt⟩ := depth_lt_memberIfAny h "miss"
    exact ⟨m, by simp [edgeMembers, hm], hlt⟩
  · obtain ⟨m, hm, hlt⟩ := depth_lt_memberIfAny h "criticalHit"
    exact ⟨m, by simp [edgeMembers, hm], hlt⟩
  · obtain ⟨m, hm, hlt⟩ := depth_lt_memberIfAny h "failedSave"
    exact ⟨m, by simp [edgeMembers, hm], hlt⟩
  · obtain ⟨m, hm, hlt⟩ := depth_lt_memberIfAny h "passedSave"
    exact ⟨m, by simp [edgeMembers, hm], hlt⟩
  · obtain ⟨m, hm, hlt⟩ := depth_lt_gradedMember hp h
    exact ⟨m, by simp [edgeMembers, hm], hlt⟩

theorem depth_lt_full {id : Option NodeId} {e : Effect} {sharedRolls : List Outline}
    {on : OutlineEdges Outline} {o : Outline} (h : o ∈ sharedRolls ∨ o ∈ on.outlines) :
    o.toJson.depth < (toJson (.full id e sharedRolls on)).depth := by
  rw [toJson_full]
  rcases h with h | h
  · obtain ⟨m, hm, hlt⟩ := depth_lt_memberIfAny h "sharedRolls"
    have hmember : m ∈ fullMembers id e sharedRolls on :=
      List.mem_append_right _ (List.mem_append_left _ hm)
    exact Nat.lt_trans hlt (depth_lt_object hmember)
  · obtain ⟨m, hm, hlt⟩ := depth_lt_edgeMembers h
    have hmember : ("on", Json.object (edgeMembers on)) ∈ fullMembers id e sharedRolls on :=
      List.mem_append_right _ (List.mem_append_right _
        (mem_onMember.mpr ⟨isEmpty_eq_false_of_mem h, rfl⟩))
    exact Nat.lt_trans (Nat.lt_trans hlt (depth_lt_object hm)) (depth_lt_object hmember)

/-- A tidy outline reads back from what it is written as, with any fuel that is enough for the
depth of that. -/
theorem decode?_toJson {o : Outline} (h : Tidy o) {fuel : Nat} (hfuel : o.toJson.depth ≤ fuel) :
    decode? fuel o.toJson = some o := by
  induction h generalizing fuel with
  | shorthand text => cases fuel <;> rfl
  | @full id e sharedRolls on hshared hbelow hkeys hlists ihshared ihbelow =>
      cases fuel with
      | zero =>
          rw [toJson_full] at hfuel
          simp only [depth] at hfuel
          omega
      | succ fuel =>
          -- one unit of fuel is spent, and what stands below is less deep by at least one
          have hless : ∀ o, o ∈ sharedRolls ∨ o ∈ on.outlines → o.toJson.depth ≤ fuel :=
            fun o ho => Nat.le_of_lt_succ (Nat.lt_of_lt_of_le (depth_lt_full ho) hfuel)
          rw [toJson_full]
          exact effectOfMembers?_eq (fun o ho => ihshared o ho (hless o (Or.inl ho)))
            (fun o ho => ihbelow o ho (hless o (Or.inr ho))) hkeys hlists

/-! ## Texts -/

theorem integersOnly_toJsons {os : List Outline} (h : ∀ o ∈ os, o.toJson.IntegersOnly) :
    (Json.array (toJsons os)).IntegersOnly := by
  rw [toJsons_eq]
  refine integerItems_iff.mpr fun v hv => ?_
  obtain ⟨o, ho, rfl⟩ := List.mem_map.mp hv
  exact h o ho

theorem integersOnly_gradedMember {ps : List (String × List Outline)}
    (h : ∀ p ∈ ps, ∀ o ∈ p.2, o.toJson.IntegersOnly) :
    ∀ m ∈ gradedMember ps, m.2.IntegersOnly := by
  intro m hm
  have hentries : (Json.object (gradedToMembers ps)).IntegersOnly := by
    rw [gradedToMembers_eq]
    refine integerMembers_iff.mpr fun m hm => ?_
    obtain ⟨p, hp, rfl⟩ := List.mem_map.mp hm
    rw [ofList, ← toJsons_eq]
    exact integersOnly_toJsons (h p hp)
  cases ps with
  | nil => cases hm
  | cons p ps =>
      rw [List.mem_singleton.mp hm]
      exact hentries

theorem integersOnly_edgeMembers {on : OutlineEdges Outline}
    (h : ∀ o ∈ on.outlines, o.toJson.IntegersOnly) : ∀ m ∈ edgeMembers on, m.2.IntegersOnly := by
  intro m hm
  simp only [OutlineEdges.outlines, List.mem_append, List.mem_flatMap] at h
  simp only [edgeMembers, List.mem_append, mem_memberIfAny] at hm
  rcases hm with ((((⟨-, rfl⟩ | ⟨-, rfl⟩) | ⟨-, rfl⟩) | ⟨-, rfl⟩) | ⟨-, rfl⟩) | hm
  · exact integersOnly_toJsons fun o ho => h o (by simp [ho])
  · exact integersOnly_toJsons fun o ho => h o (by simp [ho])
  · exact integersOnly_toJsons fun o ho => h o (by simp [ho])
  · exact integersOnly_toJsons fun o ho => h o (by simp [ho])
  · exact integersOnly_toJsons fun o ho => h o (by simp [ho])
  · exact integersOnly_gradedMember (fun p hp o ho => h o (Or.inr ⟨p, hp, ho⟩)) m hm

theorem Tidy.integersOnly {o : Outline} (h : Tidy o) : o.toJson.IntegersOnly := by
  induction h with
  | shorthand text => exact trivial
  | @full id e sharedRolls on hshared hbelow hkeys hlists ihshared ihbelow =>
      rw [toJson_full]
      refine integerMembers_iff.mpr fun m hm => ?_
      simp only [fullMembers, List.mem_append, mem_memberIfSome, mem_memberIfAny,
        mem_onMember] at hm
      rcases hm with (⟨_, -, rfl⟩ | hm) | ⟨-, rfl⟩ | ⟨-, rfl⟩
      · exact trivial
      · exact (Effect.mem_toMembers hm).2.integers
      · exact integersOnly_toJsons ihshared
      · exact integerMembers_iff.mpr (integersOnly_edgeMembers ihbelow)

/-- Tidy outlines are stored as text that gives them back, unless they nest too deep to be read. -/
theorem readList?_writeList_of_tidy {os : List Outline} (h : ∀ o ∈ os, Tidy o) :
    readList? (writeList os) =
      if (Json.array (toJsons os)).depth ≤ maxDepth then some os else none := by
  have hintegers : (Json.array (toJsons os)).IntegersOnly :=
    integersOnly_toJsons fun o ho => (h o ho).integersOnly
  rw [readList?, writeList, read?_toText hintegers]
  by_cases hdepth : (Json.array (toJsons os)).depth ≤ maxDepth
  · rw [if_pos hdepth, if_pos hdepth]
    exact list?_toJsons fun o ho => decode?_toJson (h o ho) (Nat.le_refl _)
  · rw [if_neg hdepth, if_neg hdepth]
    rfl

/-! ## Outlines of trees -/

open Spellwork.Tree

theorem mem_pick {o : Outcome} {bs : List (Option Outcome × Outline)} {outline : Outline} :
    outline ∈ pick o bs ↔ (some o, outline) ∈ bs := by
  simp only [pick, List.mem_map, List.mem_filter, decide_eq_true_eq]
  constructor
  · rintro ⟨b, ⟨hb, hbo⟩, rfl⟩
    rwa [← hbo]
  · exact fun h => ⟨_, ⟨h, rfl⟩, rfl⟩

theorem mem_failedSaveBy {bs : List (Option Outcome × Outline)} {p : String × List Outline} :
    p ∈ (outlineEdges bs).failedSaveBy ↔
      ∃ m ∈ margins bs, (marginKey m, pick (.failedSaveBy m) bs) = p :=
  (inKeyOrder_perm _).mem_iff.trans List.mem_map

theorem exists_branch_of_mem_outlines {bs : List (Option Outcome × Outline)} {outline : Outline}
    (h : outline ∈ (outlineEdges bs).outlines) : ∃ b ∈ bs, b.2 = outline := by
  have hpick : ∀ {o : Outcome}, outline ∈ pick o bs → ∃ b ∈ bs, b.2 = outline :=
    fun hmem => ⟨_, mem_pick.mp hmem, rfl⟩
  simp only [OutlineEdges.outlines, List.mem_append, List.mem_flatMap] at h
  rcases h with ((((h | h) | h) | h) | h) | ⟨p, hp, h⟩
  · exact hpick h
  · exact hpick h
  · exact hpick h
  · exact hpick h
  · exact hpick h
  · obtain ⟨m, -, rfl⟩ := mem_failedSaveBy.mp hp
    exact hpick h

theorem pairwise_keys_outlineEdges {bs : List (Option Outcome × Outline)}
    (h : Ordered (bs.map Prod.fst)) :
    ((outlineEdges bs).failedSaveBy.map Prod.fst).Pairwise (· < ·) := by
  refine pairwise_keys_inKeyOrder ?_
  rw [List.map_map]
  refine List.pairwise_map.mpr ((pairwise_margins h).imp fun {m m'} hlt heq => ?_)
  -- different margins have different keys, for a key denotes its margin
  have hmargin : margin? (marginKey m) = margin? (marginKey m') := congrArg margin? heq
  rw [margin?_marginKey, margin?_marginKey, Option.some.injEq] at hmargin
  exact UInt32.ne_of_lt hlt hmargin

theorem tidy_outlined {t : Tree}
    (hordered : ∀ s ∈ t.subtrees, Ordered (s.2.rootLabels.map Node.outcome)) :
    ∀ b ∈ t.outlined, Tidy b.2 := by
  induction t with
  | nil => exact fun b hb => by cases hb
  | node n c r ihc ihr =>
      have hc := ihc fun s hs => hordered s (by simp [hs])
      have hr := ihr fun s hs => hordered s (by simp [hs])
      have hbelow : Ordered ((outlined c).map Prod.fst) := by
        rw [map_fst_outlined]
        exact hordered (n, c) (by simp)
      intro b hb
      rcases List.mem_cons.mp hb with rfl | hb
      · refine .full (fun o ho => hc _ (mem_pick.mp ho)) (fun o ho => ?_)
          (pairwise_keys_outlineEdges hbelow) fun p hp => ?_
        · obtain ⟨b, hb, rfl⟩ := exists_branch_of_mem_outlines ho
          exact hc b hb
        · obtain ⟨m, hm, rfl⟩ := mem_failedSaveBy.mp hp
          obtain ⟨b, hb, hbm⟩ := mem_margins.mp hm
          have hmem : (some (Outcome.failedSaveBy m), b.2) ∈ outlined c := by rwa [← hbm]
          exact List.ne_nil_of_mem (mem_pick.mpr hmem)
      · exact hr b hb

end Outline

end Spellwork
