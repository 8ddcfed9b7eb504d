import Mathlib.Data.String.Basic
import Spellwork.Effect.Outline
import Spellwork.Proofs.Siblings

/-!
# What the outline of a tree drafts

Rendering a tree sorts what stands below an effect into lists, one for each outcome, and the graded
failures into a map whose keys are texts, with 10 before 5. Drafting reads the lists in the order of
outcomes and sorts the graded failures by margin. Siblings of a tree are in the order of outcomes
already, so they come out as they went in (`flatMap_filter_of_ordered`), and the order of the map
does not matter (`Graded.sort_eq`). The drafts of the outline are then the nodes of the tree.
-/

namespace Spellwork

/-! ## Insertion sort -/

section Insertion

variable {α : Type u} {before : α → α → Bool} {le : α → α → Prop}

/-- Puts one behind those at the front that come before it. -/
def insertBy (before : α → α → Bool) (x : α) : List α → List α
  | [] => [x]
  | y :: rest => if before y x then y :: insertBy before x rest else x :: y :: rest

theorem insertBy_perm (x : α) (l : List α) : (insertBy before x l).Perm (x :: l) := by
  induction l with
  | nil => exact List.Perm.refl _
  | cons y l ih =>
      unfold insertBy
      split
      · exact (ih.cons y).trans (List.Perm.swap x y l)
      · exact List.Perm.refl _

theorem foldr_insertBy_perm (l : List α) : (l.foldr (insertBy before) []).Perm l := by
  induction l with
  | nil => exact List.Perm.refl _
  | cons x l ih => exact (insertBy_perm x _).trans (ih.cons x)

theorem pairwise_insertBy (htrans : ∀ a b c, le a b → le b c → le a c)
    (hyes : ∀ a b, before a b = true → le a b) (hno : ∀ a b, before a b = false → le b a)
    (x : α) {l : List α} (h : l.Pairwise le) : (insertBy before x l).Pairwise le := by
  induction l with
  | nil => exact List.pairwise_singleton _ _
  | cons y l ih =>
      obtain ⟨hy, hl⟩ := List.pairwise_cons.mp h
      unfold insertBy
      split
      · rename_i hyx
        refine List.pairwise_cons.mpr ⟨fun z hz => ?_, ih hl⟩
        rcases List.mem_cons.mp ((insertBy_perm x l).mem_iff.mp hz) with rfl | hz
        · exact hyes y z hyx
        · exact hy z hz
      · rename_i hyx
        have hxy : le x y := hno y x (by simpa using hyx)
        refine List.pairwise_cons.mpr ⟨fun z hz => ?_, h⟩
        rcases List.mem_cons.mp hz with rfl | hz
        · exact hxy
        · exact htrans x y z hxy (hy z hz)

theorem pairwise_foldr_insertBy (htrans : ∀ a b c, le a b → le b c → le a c)
    (hyes : ∀ a b, before a b = true → le a b) (hno : ∀ a b, before a b = false → le b a)
    (l : List α) : (l.foldr (insertBy before) []).Pairwise le := by
  induction l with
  | nil => exact List.Pairwise.nil
  | cons x l ih => exact pairwise_insertBy htrans hyes hno x ih

end Insertion

namespace Json

/-! ## Keys in order -/

theorem placePair_eq (p : String × α) (ps : List (String × α)) :
    placePair p ps = insertBy (fun q p => decide (q.1 < p.1)) p ps := by
  induction ps with
  | nil => rfl
  | cons q ps ih => simp only [placePair, insertBy, ih, decide_eq_true_eq]

theorem inKeyOrder_eq (ps : List (String × α)) :
    inKeyOrder ps = ps.foldr (insertBy fun q p => decide (q.1 < p.1)) [] := by
  unfold inKeyOrder
  congr 1
  funext p ps
  exact placePair_eq p ps

theorem inKeyOrder_perm (ps : List (String × α)) : (inKeyOrder ps).Perm ps := by
  rw [inKeyOrder_eq]
  exact foldr_insertBy_perm ps

theorem pairwise_inKeyOrder (ps : List (String × α)) :
    (inKeyOrder ps).Pairwise fun p q => p.1 ≤ q.1 := by
  rw [inKeyOrder_eq]
  refine pairwise_foldr_insertBy (fun p q r hpq hqr => ?_) (fun p q h => ?_) (fun p q h => ?_) ps
  · exact String.le_trans hpq hqr
  · exact String.not_lt.mp (String.lt_asymm (of_decide_eq_true h))
  · exact String.not_lt.mp (of_decide_eq_false h)

theorem pairwise_keys_inKeyOrder {ps : List (String × α)} (h : (ps.map Prod.fst).Nodup) :
    ((inKeyOrder ps).map Prod.fst).Pairwise (· < ·) := by
  have hnd : ((inKeyOrder ps).map Prod.fst).Nodup :=
    ((inKeyOrder_perm ps).map Prod.fst).nodup_iff.mpr h
  have hle : ((inKeyOrder ps).map Prod.fst).Pairwise (· ≤ ·) :=
    List.pairwise_map.mpr (pairwise_inKeyOrder ps)
  exact (hle.and hnd).imp fun {a b} hab => lt_of_le_of_ne hab.1 hab.2

/-- Texts are compared letter by letter. -/
example : inKeyOrder [("5", 'a'), ("10", 'b')] = [("10", 'b'), ("5", 'a')] := by decide

theorem inKeyOrder_of_pairwise {ps : List (String × α)}
    (h : (ps.map Prod.fst).Pairwise (· < ·)) : inKeyOrder ps = ps := by
  have hps : ps.Pairwise fun p q => p.1 < q.1 := List.pairwise_map.mp h
  have hnd : (ps.map Prod.fst).Nodup := h.imp fun {a b} hab => ne_of_lt hab
  refine List.Perm.eq_of_pairwise (fun p q hp hq hpq hqp => ?_) (pairwise_inKeyOrder ps)
    (hps.imp fun {p q} hpq => le_of_lt hpq) (inKeyOrder_perm ps)
  exact List.inj_on_of_nodup_map hnd ((inKeyOrder_perm ps).mem_iff.mp hp) hq
    (le_antisymm hpq hqp)

end Json

/-! ## Graded failures -/

namespace Graded

theorem place_eq (g : Graded) (gs : List Graded) : place g gs = insertBy notAfter g gs := by
  induction gs with
  | nil => rfl
  | cons h gs ih => simp only [place, insertBy, ih]

theorem margin_le_of_notAfter {g h : Graded} (hgh : g.notAfter h = true) :
    g.margin ≤ h.margin := by
  simp only [notAfter, Bool.or_eq_true, Bool.and_eq_true, decide_eq_true_eq] at hgh
  rcases hgh with hlt | ⟨heq, -⟩
  · exact UInt32.le_of_lt hlt
  · exact heq ▸ UInt32.le_refl _

theorem margin_le_of_not_notAfter {g h : Graded} (hgh : g.notAfter h = false) :
    h.margin ≤ g.margin := by
  simp only [notAfter, Bool.or_eq_false_iff, decide_eq_false_iff_not] at hgh
  exact UInt32.not_lt.mp hgh.1

/-- Whatever order they come in, graded failures with distinct margins are put in the order of
those. -/
theorem foldr_place_eq {gs hs : List Graded} (hperm : gs.Perm hs)
    (h : hs.Pairwise fun g g' => g.margin < g'.margin) : gs.foldr place [] = hs := by
  have hplace : place = insertBy notAfter := by
    funext g gs
    exact place_eq g gs
  have hnd : (hs.map Graded.margin).Nodup :=
    List.pairwise_map.mpr (h.imp fun {g g'} hlt => UInt32.ne_of_lt hlt)
  have hsorted : (gs.foldr (insertBy notAfter) []).Pairwise fun g g' => g.margin ≤ g'.margin := by
    refine pairwise_foldr_insertBy (fun _ _ _ hle hle' => ?_) (fun _ _ hyes => ?_)
      (fun _ _ hno => ?_) gs
    · exact UInt32.le_trans hle hle'
    · exact margin_le_of_notAfter hyes
    · exact margin_le_of_not_notAfter hno
  have hsame : (gs.foldr (insertBy notAfter) []).Perm hs := (foldr_insertBy_perm gs).trans hperm
  rw [hplace]
  refine List.Perm.eq_of_pairwise (fun g g' hg hg' hle hge => ?_) hsorted
    (h.imp fun {g g'} hlt => UInt32.le_of_lt hlt) hsame
  exact List.inj_on_of_nodup_map hnd (hsame.mem_iff.mp hg) hg' (UInt32.le_antisymm hle hge)

end Graded

namespace Tree

/-! ## Ordered branches by outcome -/

section Classes

variable {α : Type u} {key : α → Option Outcome}

/-- Where those with a property stand in front, they can be taken apart from the others. -/
theorem filter_append_filter_not {p : α → Bool} {l : List α}
    (h : l.Pairwise fun a b => p b = true → p a = true) :
    l.filter p ++ l.filter (fun a => !p a) = l := by
  induction l with
  | nil => rfl
  | cons a l ih =>
      obtain ⟨ha, hl⟩ := List.pairwise_cons.mp h
      by_cases hpa : p a = true
      · simp [hpa, ih hl]
      · have hnone : ∀ b ∈ l, ¬ p b = true := fun b hb hpb => hpa (ha b hb hpb)
        have hnil : l.filter p = [] := List.filter_eq_nil_iff.mpr hnone
        have hall : l.filter (fun b => !p b) = l :=
          List.filter_eq_self.mpr fun b hb => by simpa using hnone b hb
        simp [hpa, hnil, hall]

/-- Where a list is in the order of outcomes, taking it apart by outcome and going through the
outcomes in order gives it back. -/
theorem flatMap_filter_of_ordered {os : List Outcome} {l : List α} (h : Ordered (l.map key))
    (hos : os.Pairwise fun o o' => o.rank < o'.rank)
    (hcover : ∀ x ∈ l, ∃ o ∈ os, key x = some o) :
    os.flatMap (fun o => l.filter fun x => key x = some o) = l := by
  induction os generalizing l with
  | nil =>
      cases l with
      | nil => rfl
      | cons x l =>
          obtain ⟨o, ho, -⟩ := hcover x (List.mem_cons_self ..)
          cases ho
  | cons o os ih =>
      obtain ⟨hfirst, hos⟩ := List.pairwise_cons.mp hos
      -- those with the first outcome stand in front of all others
      have hfront : l.Pairwise fun x y =>
          decide (key y = some o) = true → decide (key x = some o) = true := by
        have hl : l.Pairwise fun x y => notAfter (key x) (key y) = true := List.pairwise_map.mp h
        refine hl.imp_of_mem fun {x y} hx _ hxy hy => ?_
        have hyo : key y = some o := of_decide_eq_true hy
        obtain ⟨o', ho', hxo'⟩ := hcover x hx
        rw [hyo, hxo', notAfter_iff] at hxy
        rcases List.mem_cons.mp ho' with rfl | ho'
        · exact decide_eq_true hxo'
        · exact absurd hxy (Nat.not_le.mpr (hfirst o' ho'))
      -- and taking them out takes nothing from the outcomes behind
      have hbehind : ∀ o' ∈ os, (l.filter fun x => key x = some o') =
          (l.filter fun x => !decide (key x = some o)).filter fun x => key x = some o' := by
        intro o' ho'
        rw [List.filter_filter]
        refine List.filter_congr fun x _ => ?_
        have hne : o' ≠ o := fun heq => absurd (hfirst o' ho') (by simp [heq])
        by_cases hxo' : key x = some o'
        · simp [hxo', hne]
        · simp [hxo']
      have hrest := ih (l := l.filter fun x => !decide (key x = some o))
        (h.sublist (List.filter_sublist.map key)) hos fun x hx => by
          obtain ⟨hxl, hxo⟩ := List.mem_filter.mp hx
          obtain ⟨o', ho', hxo'⟩ := hcover x hxl
          rcases List.mem_cons.mp ho' with rfl | ho'
          · simp [hxo'] at hxo
          · exact ⟨o', ho', hxo'⟩
      rw [List.flatMap_cons, List.flatMap_congr hbehind, hrest]
      exact filter_append_filter_not hfront

end Classes

/-! ## Margins -/

theorem margin?_eq_some_iff {o : Outcome} {m : UInt32} :
    o.margin? = some m ↔ o = .failedSaveBy m := by
  cases o <;> simp [Outcome.margin?]

theorem mem_margins {bs : List (Option Outcome × Outline)} {m : UInt32} :
    m ∈ margins bs ↔ ∃ b ∈ bs, b.1 = some (.failedSaveBy m) := by
  simp only [margins, List.mem_eraseDups, List.mem_filterMap, Option.bind_eq_some_iff,
    margin?_eq_some_iff, exists_eq_right]

theorem pairwise_eraseDups {ms : List UInt32} (h : ms.Pairwise (· ≤ ·)) :
    ms.eraseDups.Pairwise (· < ·) := by
  induction hlen : ms.length using Nat.strongRecOn generalizing ms with
  | ind n ih =>
      cases ms with
      | nil => exact List.Pairwise.nil
      | cons m ms =>
          obtain ⟨hm, hms⟩ := List.pairwise_cons.mp h
          have hless : (ms.filter fun m' => !m' == m).length < n := by
            have hle := List.length_filter_le (fun m' => !m' == m) ms
            simp only [List.length_cons] at hlen
            omega
          rw [List.eraseDups_cons]
          refine List.pairwise_cons.mpr ⟨fun m' hm' => ?_, ih _ hless (hms.filter _) rfl⟩
          obtain ⟨hmem, hne⟩ := List.mem_filter.mp (List.mem_eraseDups.mp hm')
          exact UInt32.lt_of_le_of_ne (hm m' hmem) fun heq => by simp [heq] at hne

theorem pairwise_margins {bs : List (Option Outcome × Outline)} (h : Ordered (bs.map Prod.fst)) :
    (margins bs).Pairwise (· < ·) := by
  have hbs : bs.Pairwise fun b b' => notAfter b.1 b'.1 = true := List.pairwise_map.mp h
  refine pairwise_eraseDups (List.Pairwise.filterMap _ (fun b b' hle m hm m' hm' => ?_) hbs)
  obtain ⟨o, ho, hom⟩ := Option.bind_eq_some_iff.mp hm
  obtain ⟨o', ho', hom'⟩ := Option.bind_eq_some_iff.mp hm'
  rw [margin?_eq_some_iff] at hom hom'
  rw [ho, ho', hom, hom', notAfter_iff] at hle
  simp only [outcomeRank, Option.map_some, Option.getD_some, Outcome.rank] at hle
  exact UInt32.le_iff_toNat_le.mpr (by omega)

end Tree

/-- A node as a draft. -/
def Draft.ofNode (n : Node) : Draft :=
  ⟨some n.id, n.outcome, n.effect⟩

namespace Outline

open Spellwork.Tree

/-! ## Drafting what stands below -/

/-- The key under which a margin stands. -/
def marginKey (m : UInt32) : String :=
  String.ofList (Text.natText m.toNat)

theorem margin?_marginKey (m : UInt32) : margin? (marginKey m) = some m := by
  have htrim : Text.trim (Text.natText m.toNat) = Text.natText m.toNat :=
    Text.trimBy_eq_self
      (fun c hc =>
        Text.isBlank_of_isDigit (Text.isDigit_of_mem_natText (List.mem_of_mem_head? hc)))
      (fun c hc =>
        Text.isBlank_of_isDigit (Text.isDigit_of_mem_natText (List.mem_of_mem_getLast? hc)))
  rw [margin?, marginKey, String.toList_ofList, htrim, Text.uint32?_natText]

/-- The drafts of branches, each under its own outcome. -/
def draftBranches : List (Option Outcome × Outline) → Forest Draft
  | [] => .nil
  | (o, outline) :: rest => outline.draft o ++ draftBranches rest

theorem draftBranches_append (bs cs : List (Option Outcome × Outline)) :
    draftBranches (bs ++ cs) = draftBranches bs ++ draftBranches cs := by
  induction bs with
  | nil => rfl
  | cons b bs ih =>
      obtain ⟨o, outline⟩ := b
      rw [List.cons_append, draftBranches, draftBranches, ih, Forest.append_assoc]

theorem drafts_map (o : Option Outcome) (bs : List (Option Outcome × Outline))
    (h : ∀ b ∈ bs, b.1 = o) : drafts o (bs.map (·.2)) = draftBranches bs := by
  induction bs with
  | nil => rfl
  | cons b bs ih =>
      obtain ⟨o', outline⟩ := b
      obtain rfl : o' = o := h _ (List.mem_cons_self ..)
      rw [List.map_cons, drafts, draftBranches, ih fun b hb => h b (List.mem_cons_of_mem _ hb)]

theorem drafts_pick (o : Outcome) (bs : List (Option Outcome × Outline)) :
    drafts (some o) (pick o bs) = draftBranches (bs.filter fun b => b.1 = some o) :=
  drafts_map _ _ fun _ hb => of_decide_eq_true (List.mem_filter.mp hb).2

theorem draftGraded_eq (ps : List (String × List Outline)) :
    draftGraded ps = ps.filterMap fun p => (margin? p.1).map fun m =>
      ⟨p.1, m, drafts (some (.failedSaveBy m)) p.2⟩ := by
  induction ps with
  | nil => rfl
  | cons p ps ih =>
      obtain ⟨key, outlines⟩ := p
      rw [draftGraded, List.filterMap_cons]
      cases margin? key with
      | none => exact ih
      | some m => exact congrArg _ ih

/-- What a rendered tree holds under graded failures. -/
def gradedDrafts (bs : List (Option Outcome × Outline)) (m : UInt32) : Graded :=
  ⟨marginKey m, m, drafts (some (.failedSaveBy m)) (pick (.failedSaveBy m) bs)⟩

theorem draftGraded_outlineEdges_perm (bs : List (Option Outcome × Outline)) :
    (draftGraded (outlineEdges bs).failedSaveBy).Perm ((margins bs).map (gradedDrafts bs)) := by
  let entries : List (String × List Outline) :=
    (margins bs).map fun m => (marginKey m, pick (.failedSaveBy m) bs)
  have hentries : draftGraded entries = (margins bs).map (gradedDrafts bs) := by
    rw [draftGraded_eq, List.filterMap_map]
    refine List.filterMap_eq_map_iff_forall_eq_some.mpr fun m _ => ?_
    simp [margin?_marginKey, gradedDrafts]
  rw [← hentries, draftGraded_eq, draftGraded_eq]
  exact (Json.inKeyOrder_perm entries).filterMap _

theorem foldr_gradedDrafts (bs : List (Option Outcome × Outline)) (ms : List UInt32) :
    (ms.map (gradedDrafts bs)).foldr (fun g rest => g.drafts ++ rest) .nil =
      draftBranches (ms.flatMap fun m => bs.filter fun b => b.1 = some (.failedSaveBy m)) := by
  induction ms with
  | nil => rfl
  | cons m ms ih =>
      rw [List.map_cons, List.foldr_cons, ih, List.flatMap_cons, draftBranches_append,
        gradedDrafts, drafts_pick]

/-- Graded failures are drafted in the order of margins, whatever the order of their keys. -/
theorem inOrder_draftGraded {bs : List (Option Outcome × Outline)}
    (h : Ordered (bs.map Prod.fst)) :
    Graded.inOrder (draftGraded (outlineEdges bs).failedSaveBy) =
      draftBranches
        ((margins bs).flatMap fun m => bs.filter fun b => b.1 = some (.failedSaveBy m)) := by
  have hpairwise : ((margins bs).map (gradedDrafts bs)).Pairwise
      fun g g' => g.margin < g'.margin :=
    List.pairwise_map.mpr (pairwise_margins h)
  rw [Graded.inOrder, Graded.foldr_place_eq (draftGraded_outlineEdges_perm bs) hpairwise,
    foldr_gradedDrafts]

/-- The outcomes of branches, in order. -/
def outcomesOf (bs : List (Option Outcome × Outline)) : List Outcome :=
  Outcome.plain ++ (margins bs).map .failedSaveBy

theorem pairwise_outcomesOf {bs : List (Option Outcome × Outline)}
    (h : Ordered (bs.map Prod.fst)) :
    (outcomesOf bs).Pairwise fun o o' => o.rank < o'.rank := by
  refine List.pairwise_append.mpr ⟨by decide, ?_, fun o ho o' ho' => ?_⟩
  · refine List.pairwise_map.mpr ((pairwise_margins h).imp fun {m m'} hlt => ?_)
    have hnat := UInt32.lt_iff_toNat_lt.mp hlt
    simp only [Outcome.rank]
    omega
  · obtain ⟨m, -, rfl⟩ := List.mem_map.mp ho'
    have hplain : ∀ o ∈ Outcome.plain, o.rank < 6 := by decide
    exact Nat.lt_of_lt_of_le (hplain o ho) (Nat.le_add_right 6 m.toNat)

theorem exists_mem_outcomesOf {bs : List (Option Outcome × Outline)}
    {b : Option Outcome × Outline} (hb : b ∈ bs) (hsome : b.1 ≠ none) :
    ∃ o ∈ outcomesOf bs, b.1 = some o := by
  obtain ⟨o, ho⟩ := Option.ne_none_iff_exists'.mp hsome
  refine ⟨o, List.mem_append.mpr ?_, ho⟩
  rcases Outcome.mem_plain_or_graded o with hplain | ⟨m, rfl⟩
  · exact Or.inl hplain
  · exact Or.inr (List.mem_map_of_mem (mem_margins.mpr ⟨b, hb, ho⟩))

/-- What is sorted by outcome and drafted again stands in its order. -/
theorem draft_outlineEdges {bs : List (Option Outcome × Outline)} (h : Ordered (bs.map Prod.fst))
    (hsome : ∀ b ∈ bs, b.1 ≠ none) :
    drafts (some .sharedRolls) (pick .sharedRolls bs) ++ draftEdges (outlineEdges bs) =
      draftBranches bs := by
  have hparts := flatMap_filter_of_ordered h (pairwise_outcomesOf h)
    fun b hb => exists_mem_outcomesOf hb (hsome b hb)
  -- shared rolls come first among the outcomes, then the edges, and the margins close the list
  conv_rhs => rw [← hparts]
  simp only [outcomesOf, Outcome.plain, List.flatMap_append, List.flatMap_cons, List.flatMap_nil,
    List.flatMap_map, draftBranches_append, List.append_nil, List.append_assoc]
  rw [← inOrder_draftGraded h]
  simp only [← drafts_pick]
  rfl

/-! ## Drafting a tree -/

theorem map_fst_outlined (t : Tree) : t.outlined.map Prod.fst = t.rootLabels.map Node.outcome := by
  induction t with
  | nil => rfl
  | node n c r _ ih => simp [outlined, ih]

theorem exists_root_of_mem_outlined {t : Tree} {b : Option Outcome × Outline}
    (h : b ∈ t.outlined) : ∃ n ∈ t.rootLabels, n.outcome = b.1 := by
  have hmem : b.1 ∈ t.rootLabels.map Node.outcome := by
    rw [← map_fst_outlined]
    exact List.mem_map_of_mem h
  exact List.mem_map.mp hmem

theorem draftBranches_outlined {t : Tree}
    (hordered : ∀ s ∈ t.subtrees, Ordered (s.2.rootLabels.map Node.outcome))
    (hsome : ∀ s ∈ t.subtrees, ∀ n ∈ s.2.rootLabels, n.outcome ≠ none) :
    draftBranches t.outlined = t.map Draft.ofNode := by
  induction t with
  | nil => rfl
  | node n c r ihc ihr =>
      have hc := ihc (fun s hs => hordered s (by simp [hs])) fun s hs => hsome s (by simp [hs])
      have hr := ihr (fun s hs => hordered s (by simp [hs])) fun s hs => hsome s (by simp [hs])
      have hbelow : Ordered ((outlined c).map Prod.fst) := by
        rw [map_fst_outlined]
        exact hordered (n, c) (by simp)
      have hnone : ∀ b ∈ outlined c, b.1 ≠ none := by
        intro b hb heq
        obtain ⟨m, hm, hmo⟩ := exists_root_of_mem_outlined hb
        exact hsome (n, c) (by simp) m hm (hmo.trans heq)
      rw [outlined, draftBranches, draft, draft_outlineEdges hbelow hnone, hc, hr]
      rfl

/-- Where no root carries an outcome, those of the roots are read back as they were. -/
theorem drafts_outline {t : Tree} (hroots : ∀ n ∈ t.rootLabels, n.outcome = none)
    (hordered : ∀ s ∈ t.subtrees, Ordered (s.2.rootLabels.map Node.outcome))
    (hsome : ∀ s ∈ t.subtrees, ∀ n ∈ s.2.rootLabels, n.outcome ≠ none) :
    drafts none t.outline = t.map Draft.ofNode := by
  have hnone : ∀ b ∈ t.outlined, b.1 = none := by
    intro b hb
    obtain ⟨n, hn, hno⟩ := exists_root_of_mem_outlined hb
    rw [← hno, hroots n hn]
  rw [outline, drafts_map none _ hnone, draftBranches_outlined hordered hsome]

end Outline

end Spellwork
