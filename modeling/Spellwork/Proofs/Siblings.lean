import Mathlib.Data.List.Nodup
import Spellwork.Effect.Storage
import Spellwork.Proofs.Records

/-!
# The order of siblings

Siblings stand in the order of their outcomes, and those with one outcome in the order in which
they came. Both the editor and the loader keep this by putting a newcomer behind all siblings that
it does not come before; `placeBy` is that one step on lists, and all its facts are proved there.
The last section is about gathering ordered siblings into edges.
-/

namespace Spellwork

namespace Tree

open Forest

/-! ## Ordered outcomes -/

/-- The place of an outcome in the order; none stands with the first. -/
def outcomeRank (o : Option Outcome) : Nat :=
  (o.map Outcome.rank).getD 0

theorem notAfter_iff {a b : Option Outcome} :
    notAfter a b = true ↔ outcomeRank a ≤ outcomeRank b := by
  simp [notAfter, outcomeRank]

theorem notAfter_trans {a b c : Option Outcome} (hab : notAfter a b = true)
    (hbc : notAfter b c = true) : notAfter a c = true := by
  rw [notAfter_iff] at *
  exact Nat.le_trans hab hbc

theorem notAfter_of_not {a b : Option Outcome} (h : ¬ notAfter a b = true) :
    notAfter b a = true := by
  rw [notAfter_iff] at *
  omega

/-- Outcomes of which none comes before an earlier one. -/
def Ordered (os : List (Option Outcome)) : Prop :=
  os.Pairwise fun a b => notAfter a b = true

theorem Ordered.nil : Ordered [] :=
  List.Pairwise.nil

/-! ## Placing one among others -/

section PlaceBy

variable {α : Type u} (key : α → Option Outcome)

/-- Puts a newcomer behind those that it does not come before. -/
def placeBy (x : α) : List α → List α
  | [] => [x]
  | y :: rest => if notAfter (key y) (key x) then y :: placeBy x rest else x :: y :: rest

variable {key}

theorem placeBy_perm (x : α) (l : List α) : (placeBy key x l).Perm (x :: l) := by
  induction l with
  | nil => exact List.Perm.refl _
  | cons y l ih =>
      unfold placeBy
      split
      · exact (ih.cons y).trans (List.Perm.swap x y l)
      · exact List.Perm.refl _

theorem mem_placeBy {x z : α} {l : List α} : z ∈ placeBy key x l ↔ z = x ∨ z ∈ l :=
  (placeBy_perm x l).mem_iff.trans List.mem_cons

theorem ordered_placeBy {x : α} {l : List α} (h : Ordered (l.map key)) :
    Ordered ((placeBy key x l).map key) := by
  induction l with
  | nil => exact List.pairwise_singleton _ _
  | cons y l ih =>
      obtain ⟨hy, hl⟩ := List.pairwise_cons.mp h
      unfold placeBy
      split
      · rename_i hyx
        refine List.pairwise_cons.mpr ⟨?_, ih hl⟩
        intro o ho
        obtain ⟨z, hz, rfl⟩ := List.mem_map.mp ho
        rcases mem_placeBy.mp hz with rfl | hz
        · exact hyx
        · exact hy _ (List.mem_map_of_mem hz)
      · rename_i hyx
        have hxy := notAfter_of_not hyx
        refine List.pairwise_cons.mpr ⟨?_, h⟩
        intro o ho
        rcases List.mem_cons.mp ho with rfl | ho
        · exact hxy
        · exact notAfter_trans hxy (hy o ho)

theorem placeBy_eq_append {x : α} {l : List α} (h : ∀ y ∈ l, notAfter (key y) (key x) = true) :
    placeBy key x l = l ++ [x] := by
  induction l with
  | nil => rfl
  | cons y l ih =>
      unfold placeBy
      rw [if_pos (h y (List.mem_cons_self ..)), ih fun z hz => h z (List.mem_cons_of_mem _ hz)]
      rfl

/-- Among those with its outcome a newcomer comes last; the others stay as they are. -/
theorem filter_placeBy {x : α} {l : List α} (h : Ordered (l.map key)) (o : Outcome) :
    (placeBy key x l).filter (fun y => key y = some o) =
      l.filter (fun y => key y = some o) ++ if key x = some o then [x] else [] := by
  induction l with
  | nil => by_cases hx : key x = some o <;> simp [placeBy, hx]
  | cons y l ih =>
      obtain ⟨hy, hl⟩ := List.pairwise_cons.mp h
      unfold placeBy
      split
      · by_cases hyo : key y = some o <;> simp [hyo, ih hl]
      · -- all behind the newcomer have a later outcome than it
        rename_i hyx
        by_cases hx : key x = some o
        · have hlate : ∀ z ∈ y :: l, key z ≠ some o := by
            intro z hz heq
            have hyz : notAfter (key y) (key z) = true := by
              rcases List.mem_cons.mp hz with rfl | hz
              · exact notAfter_iff.mpr (Nat.le_refl _)
              · exact hy _ (List.mem_map_of_mem hz)
            rw [heq, ← hx] at hyz
            exact hyx hyz
          have hnil : (y :: l).filter (fun z => key z = some o) = [] :=
            List.filter_eq_nil_iff.mpr fun z hz => by simpa using hlate z hz
          rw [List.filter_cons_of_pos (by simpa using hx), hnil, if_pos hx, List.nil_append]
        · rw [List.filter_cons_of_neg (by simpa using hx), if_neg hx, List.append_nil]

/-! ## Placing one after the other -/

variable (key) in
/-- Places newcomers one after the other. -/
def placeAll (done : List α) (l : List α) : List α :=
  l.foldl (fun done x => placeBy key x done) done

theorem placeAll_perm (done l : List α) : (placeAll key done l).Perm (done ++ l) := by
  induction l generalizing done with
  | nil => rw [List.append_nil]; exact List.Perm.refl _
  | cons x l ih =>
      refine (ih (placeBy key x done)).trans ?_
      exact ((placeBy_perm x done).append_right l).trans List.perm_middle.symm

theorem ordered_placeAll {done l : List α} (h : Ordered (done.map key)) :
    Ordered ((placeAll key done l).map key) := by
  induction l generalizing done with
  | nil => exact h
  | cons x l ih => exact ih (ordered_placeBy h)

theorem filter_placeAll {done l : List α} (h : Ordered (done.map key)) (o : Outcome) :
    (placeAll key done l).filter (fun y => key y = some o) =
      (done ++ l).filter fun y => key y = some o := by
  induction l generalizing done with
  | nil => rw [List.append_nil]; rfl
  | cons x l ih =>
      refine (ih (ordered_placeBy h)).trans ?_
      rw [List.filter_append, filter_placeBy h, List.filter_append]
      by_cases hx : key x = some o <;> simp [hx]

theorem placeAll_append (done l m : List α) :
    placeAll key done (l ++ m) = placeAll key (placeAll key done l) m :=
  List.foldl_append

theorem placeAll_of_ordered {done l : List α} (h : Ordered ((done ++ l).map key)) :
    placeAll key done l = done ++ l := by
  induction l generalizing done with
  | nil => rw [List.append_nil]; rfl
  | cons x l ih =>
      have hlast : ∀ y ∈ done, notAfter (key y) (key x) = true := by
        intro y hy
        rw [Ordered, List.map_append, List.pairwise_append] at h
        exact h.2.2 _ (List.mem_map_of_mem hy) _ (by simp)
      have hsame : done ++ [x] ++ l = done ++ x :: l := by simp
      show placeAll key (placeBy key x done) l = _
      rw [placeBy_eq_append hlast, ih (by rw [hsame]; exact h), hsame]

theorem map_placeBy {β : Type v} {key' : β → Option Outcome} {f : α → β}
    (hkey : ∀ x, key' (f x) = key x) (x : α) (l : List α) :
    (placeBy key x l).map f = placeBy key' (f x) (l.map f) := by
  induction l with
  | nil => rfl
  | cons y l ih =>
      rw [List.map_cons, placeBy, placeBy, hkey, hkey, ← ih]
      split <;> rfl

theorem map_placeAll {β : Type v} {key' : β → Option Outcome} {f : α → β}
    (hkey : ∀ x, key' (f x) = key x) (done l : List α) :
    (placeAll key done l).map f = placeAll key' (done.map f) (l.map f) := by
  induction l generalizing done with
  | nil => rfl
  | cons x l ih =>
      show (placeAll key (placeBy key x done) l).map f =
        placeAll key' (placeBy key' (f x) (done.map f)) (l.map f)
      rw [ih, map_placeBy hkey]

/-- A newcomer goes between those that it does not come before and those that come after it. -/
theorem placeBy_append {x : α} {before after : List α}
    (hbefore : ∀ y ∈ before, notAfter (key y) (key x) = true)
    (hafter : ∀ y ∈ after, notAfter (key y) (key x) = false) :
    placeBy key x (before ++ after) = before ++ x :: after := by
  induction before with
  | nil =>
      cases after with
      | nil => rfl
      | cons y after =>
          have hy := hafter y List.mem_cons_self
          rw [List.nil_append, placeBy, if_neg (by rw [hy]; exact Bool.false_ne_true)]
          rfl
  | cons y before ih =>
      rw [List.cons_append, placeBy, if_pos (hbefore y List.mem_cons_self),
        ih fun z hz => hbefore z (List.mem_cons_of_mem y hz)]
      rfl

/-- Newcomers of two outcomes, the lower one behind `before` and the higher one behind `after`. -/
theorem placeAll_two {low high : Option Outcome} (hlow : notAfter high low = false)
    {before after l : List α} (hbefore : ∀ y ∈ before, notAfter (key y) low = true)
    (hafter : ∀ y ∈ after, key y = high) (hl : ∀ x ∈ l, key x = low ∨ key x = high) :
    placeAll key (before ++ after) l =
      before ++ l.filter (fun x => key x = low) ++
        (after ++ l.filter fun x => key x = high) := by
  have hne : low ≠ high := by
    rintro rfl
    rw [notAfter_iff.mpr (Nat.le_refl _)] at hlow
    cases hlow
  have hupper : notAfter low high = true := notAfter_of_not (by rw [hlow]; exact Bool.false_ne_true)
  induction l generalizing before after with
  | nil => simp [placeAll]
  | cons x l ih =>
      have hrest : ∀ y ∈ l, key y = low ∨ key y = high := fun y hy =>
        hl y (List.mem_cons_of_mem x hy)
      show placeAll key (placeBy key x (before ++ after)) l = _
      rcases hl x List.mem_cons_self with hx | hx
      · have hplace : placeBy key x (before ++ after) = (before ++ [x]) ++ after := by
          rw [placeBy_append (fun y hy => by rw [hx]; exact hbefore y hy)
            (fun y hy => by rw [hx, hafter y hy]; exact hlow), List.append_assoc]
          rfl
        have hbefore' : ∀ y ∈ before ++ [x], notAfter (key y) low = true := by
          intro y hy
          rcases List.mem_append.mp hy with hy | hy
          · exact hbefore y hy
          · rw [List.mem_singleton.mp hy, hx]
            exact notAfter_iff.mpr (Nat.le_refl _)
        rw [hplace, ih hbefore' hafter hrest]
        simp [hx, hne]
      · have hplace : placeBy key x (before ++ after) = before ++ (after ++ [x]) := by
          rw [placeBy_eq_append, List.append_assoc]
          intro y hy
          rw [hx]
          rcases List.mem_append.mp hy with hy | hy
          · exact notAfter_trans (hbefore y hy) hupper
          · rw [hafter y hy]
            exact notAfter_iff.mpr (Nat.le_refl _)
        have hafter' : ∀ y ∈ after ++ [x], key y = high := by
          intro y hy
          rcases List.mem_append.mp hy with hy | hy
          · exact hafter y hy
          · rw [List.mem_singleton.mp hy, hx]
        rw [hplace, ih hbefore hafter' hrest]
        simp [hx, hne.symm]

end PlaceBy

/-! ## The editor's and the loader's step -/

theorem rootLabels_placeAmong (n : Node) (t : Tree) :
    (placeAmong n t).rootLabels = placeBy Node.outcome n t.rootLabels := by
  induction t with
  | nil => rfl
  | node m c r _ ih =>
      unfold placeAmong
      simp only [rootLabels_node, placeBy]
      split <;> simp [ih]

theorem placeRecord_eq (r : Record) (l : List Record) :
    placeRecord r l = placeBy Record.outcome r l := by
  induction l with
  | nil => rfl
  | cons s l ih => simp only [placeRecord, placeBy, ih]

theorem recordsOf_some (rs : List Record) (p : NodeId) :
    recordsOf rs (some p) = placeAll Record.outcome [] (rs.filter fun r => r.parent = some p) := by
  have hstep : (fun (done : List Record) r => placeRecord r done) =
      fun done r => placeBy Record.outcome r done := by
    funext done r
    exact placeRecord_eq r done
  rw [recordsOf, hstep]
  rfl

theorem recordsOf_perm (rs : List Record) (q : Option NodeId) :
    (recordsOf rs q).Perm (rs.filter fun r => r.parent = q) := by
  cases q with
  | none =>
      have hsame : (fun r : Record => r.parent.isNone) = fun r => decide (r.parent = none) := by
        funext r
        cases r.parent <;> rfl
      rw [recordsOf, hsame]
  | some p =>
      rw [recordsOf_some]
      exact placeAll_perm [] _

theorem mem_recordsOf {rs : List Record} {q : Option NodeId} {r : Record} :
    r ∈ recordsOf rs q ↔ r ∈ rs ∧ r.parent = q := by
  rw [(recordsOf_perm rs q).mem_iff, List.mem_filter, decide_eq_true_eq]

theorem mem_map_node_recordsOf {rs : List Record} {q : Option NodeId} {n : Node} :
    n ∈ (recordsOf rs q).map Record.node ↔ n.record q ∈ rs := by
  rw [List.mem_map]
  constructor
  · rintro ⟨r, hr, rfl⟩
    obtain ⟨hmem, rfl⟩ := mem_recordsOf.mp hr
    exact hmem
  · intro h
    exact ⟨n.record q, mem_recordsOf.mpr ⟨h, rfl⟩, rfl⟩

theorem ordered_recordsOf (rs : List Record) (p : NodeId) :
    Ordered ((recordsOf rs (some p)).map Record.outcome) := by
  rw [recordsOf_some]
  exact ordered_placeAll Ordered.nil

theorem filter_recordsOf (rs : List Record) (p : NodeId) (o : Outcome) :
    (recordsOf rs (some p)).filter (fun r => r.outcome = some o) =
      rs.filter fun r => r.parent = some p ∧ r.outcome = some o := by
  have hempty : Ordered (([] : List Record).map Record.outcome) := Ordered.nil
  rw [recordsOf_some, filter_placeAll hempty, List.nil_append, Record.filter_place]

theorem recordsOf_of_ordered {rs : List Record} {p : NodeId}
    (h : Ordered ((rs.filter fun r => r.parent = some p).map Record.outcome)) :
    recordsOf rs (some p) = rs.filter fun r => r.parent = some p := by
  rw [recordsOf_some]
  exact placeAll_of_ordered h

/-! ## Edges -/

/-- The branches of one edge. -/
def branchesOf (e : Outcome × List NodeId) : List (Outcome × NodeId) :=
  e.2.map fun id => (e.1, id)

theorem fst_of_mem_branchesOf {e : Outcome × List NodeId} {b : Outcome × NodeId}
    (h : b ∈ branchesOf e) : b.1 = e.1 := by
  obtain ⟨id, -, rfl⟩ := List.mem_map.mp h
  rfl

/-- Edges are the branches they gather, taken apart again. -/
theorem flatMap_gather (bs : List (Outcome × NodeId)) : (gather bs).flatMap branchesOf = bs := by
  induction bs with
  | nil => rfl
  | cons b bs ih =>
      obtain ⟨o, id⟩ := b
      unfold gather
      cases hg : gather bs with
      | nil =>
          rw [hg] at ih
          simp [branchesOf, ← ih]
      | cons e more =>
          obtain ⟨o', ids⟩ := e
          rw [hg] at ih
          by_cases heq : o = o'
          · subst heq
            simpa [branchesOf] using ih
          · simpa [branchesOf, heq] using ih

theorem flatMap_snd_gather (bs : List (Outcome × NodeId)) :
    (gather bs).flatMap (·.2) = bs.map (·.2) := by
  have hids : ∀ e : Outcome × List NodeId, (branchesOf e).map (·.2) = e.2 := by
    intro e
    simp [branchesOf, List.map_map, Function.comp_def]
  rw [← flatMap_gather bs, List.map_flatMap]
  simp only [hids, flatMap_gather]

theorem ids_ne_nil_of_mem_gather {bs : List (Outcome × NodeId)} {e : Outcome × List NodeId}
    (h : e ∈ gather bs) : e.2 ≠ [] := by
  induction bs generalizing e with
  | nil => cases h
  | cons b bs ih =>
      obtain ⟨o, id⟩ := b
      unfold gather at h
      cases hg : gather bs with
      | nil =>
          rw [hg] at h
          rw [List.mem_singleton.mp h]
          exact List.cons_ne_nil _ _
      | cons f more =>
          rw [hg] at h
          simp only at h
          split at h
          · rcases List.mem_cons.mp h with rfl | h
            · exact List.cons_ne_nil _ _
            · exact ih (hg ▸ List.mem_cons_of_mem _ h)
          · rcases List.mem_cons.mp h with rfl | h
            · exact List.cons_ne_nil _ _
            · exact ih (hg ▸ h)

theorem exists_branch_of_mem_gather {bs : List (Outcome × NodeId)} {e : Outcome × List NodeId}
    (h : e ∈ gather bs) : ∃ b ∈ bs, b.1 = e.1 := by
  obtain ⟨id, hid⟩ := List.exists_mem_of_ne_nil _ (ids_ne_nil_of_mem_gather h)
  refine ⟨(e.1, id), ?_, rfl⟩
  rw [← flatMap_gather bs]
  exact List.mem_flatMap.mpr ⟨e, h, List.mem_map_of_mem hid⟩

theorem exists_edge_of_mem {bs : List (Outcome × NodeId)} {b : Outcome × NodeId} (h : b ∈ bs) :
    ∃ e ∈ gather bs, e.1 = b.1 := by
  rw [← flatMap_gather bs] at h
  obtain ⟨e, he, hb⟩ := List.mem_flatMap.mp h
  exact ⟨e, he, (fst_of_mem_branchesOf hb).symm⟩

/-- The edges of ordered branches go up in the order of outcomes. -/
theorem pairwise_gather {bs : List (Outcome × NodeId)}
    (h : bs.Pairwise fun a b => a.1.rank ≤ b.1.rank) :
    (gather bs).Pairwise fun e f => e.1.rank < f.1.rank := by
  induction bs with
  | nil => exact List.Pairwise.nil
  | cons b bs ih =>
      obtain ⟨o, id⟩ := b
      obtain ⟨hb, hbs⟩ := List.pairwise_cons.mp h
      have hmore := ih hbs
      unfold gather
      cases hg : gather bs with
      | nil => exact List.pairwise_singleton _ _
      | cons e more =>
          obtain ⟨o', ids⟩ := e
          rw [hg] at hmore
          obtain ⟨he, hrest⟩ := List.pairwise_cons.mp hmore
          by_cases heq : o = o'
          · subst heq
            simp only [if_true]
            exact List.pairwise_cons.mpr ⟨he, hrest⟩
          · simp only [heq, if_false]
            refine List.pairwise_cons.mpr ⟨?_, hmore⟩
            have hlt : o.rank < o'.rank := by
              have hmem : (o', ids) ∈ gather bs := hg ▸ List.mem_cons_self ..
              obtain ⟨c, hc, hco⟩ := exists_branch_of_mem_gather hmem
              have hle : o.rank ≤ c.1.rank := hb c hc
              rw [hco] at hle
              exact Nat.lt_of_le_of_ne hle fun hr => heq (Outcome.rank_injective hr)
            intro f hf
            rcases List.mem_cons.mp hf with rfl | hf
            · exact hlt
            · exact Nat.lt_trans hlt (he f hf)

/-- With outcomes going up, the branches under the outcome of an edge are those of the edge. -/
theorem filter_flatMap_branchesOf {es : List (Outcome × List NodeId)}
    (h : es.Pairwise fun e f => e.1.rank < f.1.rank) {e : Outcome × List NodeId} (he : e ∈ es) :
    (es.flatMap branchesOf).filter (fun b => b.1 = e.1) = branchesOf e := by
  have hother : ∀ f : Outcome × List NodeId, f.1 ≠ e.1 →
      (branchesOf f).filter (fun b => b.1 = e.1) = [] := by
    intro f hne
    refine List.filter_eq_nil_iff.mpr fun b hb => ?_
    simpa [fst_of_mem_branchesOf hb] using hne
  induction es with
  | nil => cases he
  | cons f es ih =>
      obtain ⟨hf, hes⟩ := List.pairwise_cons.mp h
      rw [List.flatMap_cons, List.filter_append]
      rcases List.mem_cons.mp he with rfl | he
      · have hself : (branchesOf e).filter (fun b => b.1 = e.1) = branchesOf e :=
          List.filter_eq_self.mpr fun b hb => by simpa using fst_of_mem_branchesOf hb
        have hrest : (es.flatMap branchesOf).filter (fun b => b.1 = e.1) = [] := by
          rw [List.filter_flatMap]
          refine List.flatMap_eq_nil_iff.mpr fun g hg => hother g fun heq => ?_
          exact Nat.ne_of_gt (hf g hg) (congrArg Outcome.rank heq)
        rw [hself, hrest, List.append_nil]
      · have hne : f.1 ≠ e.1 := fun heq => Nat.ne_of_lt (hf e he) (congrArg Outcome.rank heq)
        rw [hother f hne, List.nil_append, ih hes he]

/-- An edge leads to the ids of its branches, in their order. -/
theorem ids_of_mem_gather {bs : List (Outcome × NodeId)}
    (h : bs.Pairwise fun a b => a.1.rank ≤ b.1.rank) {e : Outcome × List NodeId}
    (he : e ∈ gather bs) : e.2 = (bs.filter fun b => b.1 = e.1).map (·.2) := by
  have hedge := filter_flatMap_branchesOf (pairwise_gather h) he
  rw [flatMap_gather] at hedge
  rw [hedge]
  simp [branchesOf, List.map_map, Function.comp_def]

theorem edges?_eq_some_iff {t : Tree} {p : NodeId} {es : List (Outcome × List NodeId)} :
    t.edges? p = some es ↔ es = gather (t.branches p) ∧ es ≠ [] := by
  unfold edges?
  cases gather (t.branches p) with
  | nil => simp
  | cons e more =>
      simp only [Option.some.injEq]
      constructor
      · rintro rfl
        exact ⟨rfl, List.cons_ne_nil _ _⟩
      · rintro ⟨rfl, -⟩
        rfl

theorem edges?_eq_none_iff {t : Tree} {p : NodeId} :
    t.edges? p = none ↔ t.branches p = [] := by
  unfold edges?
  cases hg : gather (t.branches p) with
  | nil =>
      have hb := flatMap_gather (t.branches p)
      rw [hg] at hb
      simp [← hb]
  | cons e more =>
      have hne : t.branches p ≠ [] := fun hb => by
        rw [hb] at hg
        cases hg
      simp [hne]

theorem getD_edges? (t : Tree) (p : NodeId) :
    (t.edges? p).getD [] = gather (t.branches p) := by
  unfold edges?
  cases gather (t.branches p) <;> rfl

end Tree

end Spellwork
