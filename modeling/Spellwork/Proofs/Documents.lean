import Spellwork.Proofs.OutlineText

/-!
# What a document says

An outline read from top to bottom, without the shorthand that stands for nothing and the graded
failures whose keys denote no margin, says a forest of drafts (`Document`): each effect, and below
it what stands under its outcomes, one outcome after the other and the graded failures by margin.
What is drafted of an outline is what it says (`document_draftBranches`), and where no key stands
twice it says nothing else (`Document.unique`).
-/

namespace Spellwork

open Spellwork.Tree

namespace Outline

/-! ## Induction on outlines -/

theorem sizeOf_lt_of_mem_outlines {on : OutlineEdges Outline} {o : Outline}
    (h : o ∈ on.outlines) : sizeOf o < sizeOf on := by
  obtain ⟨hit, miss, criticalHit, failedSave, passedSave, failedSaveBy⟩ := on
  simp only [OutlineEdges.outlines, List.mem_append, List.mem_flatMap] at h
  rw [OutlineEdges.mk.sizeOf_spec]
  rcases h with ((((h | h) | h) | h) | h) | ⟨p, hp, h⟩
  · have hlt := List.sizeOf_lt_of_mem h
    omega
  · have hlt := List.sizeOf_lt_of_mem h
    omega
  · have hlt := List.sizeOf_lt_of_mem h
    omega
  · have hlt := List.sizeOf_lt_of_mem h
    omega
  · have hlt := List.sizeOf_lt_of_mem h
    omega
  · have hentry := List.sizeOf_lt_of_mem hp
    have hlt := List.sizeOf_lt_of_mem h
    rw [Prod.mk.sizeOf_spec] at hentry
    omega

/-- What holds of an effect that is written out if it holds of all that stands below it holds of
every outline. -/
theorem induction {P : Outline → Prop} (shorthand : ∀ text, P (.shorthand text))
    (full : ∀ id e sharedRolls on, (∀ o ∈ sharedRolls, P o) → (∀ o ∈ on.outlines, P o) →
      P (.full id e sharedRolls on)) : ∀ o, P o
  | .shorthand text => shorthand text
  | .full id e sharedRolls on =>
    full id e sharedRolls on (fun o _ => induction shorthand full o)
      fun o _ => induction shorthand full o
termination_by o => sizeOf o
decreasing_by
  · have hlt : sizeOf o < sizeOf sharedRolls := List.sizeOf_lt_of_mem ‹_›
    rw [Outline.full.sizeOf_spec]
    omega
  · have hlt : sizeOf o < sizeOf on := sizeOf_lt_of_mem_outlines ‹_›
    rw [Outline.full.sizeOf_spec]
    omega

/-! ## Documents -/

/-- The outlines under one graded failure, with the key that they stand under. -/
structure Grade where
  key : String
  margin : UInt32
  outlines : List Outline

/-- A key denotes a margin: but for the blanks at its ends it is made of digits, with or without a
plus sign in front, and they spell the margin. -/
def Denotes (key : String) (m : UInt32) : Prop :=
  ∃ digits, (Text.trim key.toList = digits ∨ Text.trim key.toList = '+' :: digits) ∧
    digits ≠ [] ∧ (∀ c ∈ digits, c.isDigit = true) ∧ Nat.ofDigitChars 10 digits 0 = m.toNat

/-- The graded failures among entries: those whose keys denote margins. -/
inductive Grades : List (String × List Outline) → List Grade → Prop where
  | nil : Grades [] []
  | useless {key : String} {outlines : List Outline} {ps : List (String × List Outline)}
      {gs : List Grade} (hkey : ∀ m, ¬ Denotes key m) (h : Grades ps gs) :
      Grades ((key, outlines) :: ps) gs
  | graded {key : String} {m : UInt32} {outlines : List Outline}
      {ps : List (String × List Outline)} {gs : List Grade} (hkey : Denotes key m)
      (h : Grades ps gs) : Grades ((key, outlines) :: ps) (⟨key, m, outlines⟩ :: gs)

/-- The smaller margin comes first; keys of one margin are in the order of their text. -/
def Grade.Before (a b : Grade) : Prop :=
  a.margin < b.margin ∨ a.margin = b.margin ∧ a.key ≤ b.key

/-- What stands below an effect, outcome by outcome. -/
def lists (sharedRolls : List Outline) (on : OutlineEdges Outline) (graded : List Grade) :
    List (Outcome × List Outline) :=
  [(.sharedRolls, sharedRolls), (.hit, on.hit), (.miss, on.miss), (.criticalHit, on.criticalHit),
    (.failedSave, on.failedSave), (.passedSave, on.passedSave)] ++
    graded.map fun g => (.failedSaveBy g.margin, g.outlines)

/-- Outlines one after the other, each with the outcome that it stands under. -/
def contents (ls : List (Outcome × List Outline)) : List (Option Outcome × Outline) :=
  ls.flatMap fun l => l.2.map fun outline => (some l.1, outline)

/-- A document, as outlines with their outcomes, says a forest. -/
inductive Document : List (Option Outcome × Outline) → Forest Draft → Prop where
  | nil : Document [] .nil
  /-- Shorthand that stands for nothing is passed over. -/
  | useless {o : Option Outcome} {text : String} {rest : List (Option Outcome × Outline)}
      {f : Forest Draft} (htext : Shorthand.effect? text = none) (hrest : Document rest f) :
      Document ((o, .shorthand text) :: rest) f
  | shorthand {o : Option Outcome} {text : String} {id : Option NodeId} {e : Effect}
      {rest : List (Option Outcome × Outline)} {f : Forest Draft}
      (htext : Shorthand.effect? text = some (id, e)) (hrest : Document rest f) :
      Document ((o, .shorthand text) :: rest) (.node ⟨id, o, e⟩ .nil f)
  /-- Below an effect stand its shared rolls, the outcomes in order, and the graded failures by
  margin. -/
  | full {o : Option Outcome} {id : Option NodeId} {e : Effect} {sharedRolls : List Outline}
      {on : OutlineEdges Outline} {entries graded : List Grade} {children : Forest Draft}
      {rest : List (Option Outcome × Outline)} {f : Forest Draft}
      (hentries : Grades on.failedSaveBy entries) (hperm : graded.Perm entries)
      (hsorted : graded.Pairwise Grade.Before)
      (hchildren : Document (contents (lists sharedRolls on graded)) children)
      (hrest : Document rest f) :
      Document ((o, .full id e sharedRolls on) :: rest) (.node ⟨id, o, e⟩ children f)

theorem mem_contents {ls : List (Outcome × List Outline)} {b : Option Outcome × Outline} :
    b ∈ contents ls ↔ ∃ l ∈ ls, b.2 ∈ l.2 ∧ some l.1 = b.1 := by
  obtain ⟨o, outline⟩ := b
  simp only [contents, List.mem_flatMap, List.mem_map, Prod.mk.injEq]
  constructor
  · rintro ⟨l, hl, x, hx, ho, rfl⟩
    exact ⟨l, hl, hx, ho⟩
  · rintro ⟨l, hl, hx, ho⟩
    exact ⟨l, hl, outline, hx, ho, rfl⟩

theorem margin?_iff_denotes {key : String} {m : UInt32} : margin? key = some m ↔ Denotes key m := by
  rw [margin?, Text.uint32?_eq_some_iff, Text.unsigned?_eq_some_iff]
  simp only [Text.nat?_eq_some_iff]
  rfl

/-- The graded failures whose keys are read as margins. -/
def grades (entries : List (String × List Outline)) : List Grade :=
  entries.filterMap fun p => (margin? p.1).map fun m => ⟨p.1, m, p.2⟩

theorem grades_iff {ps : List (String × List Outline)} {gs : List Grade} :
    Grades ps gs ↔ gs = grades ps := by
  constructor
  · intro h
    induction h with
    | nil => rfl
    | @useless key _ _ _ hkey _ ih =>
        have hnone : margin? key = none :=
          Option.eq_none_iff_forall_ne_some.mpr fun m hm => hkey m (margin?_iff_denotes.mp hm)
        simp [grades, hnone, ih]
    | graded hkey _ ih => simp [grades, margin?_iff_denotes.mpr hkey, ih]
  · rintro rfl
    induction ps with
    | nil => exact .nil
    | cons p ps ih =>
        obtain ⟨key, outlines⟩ := p
        cases hkey : margin? key with
        | none =>
            have hgrades : grades ((key, outlines) :: ps) = grades ps := by simp [grades, hkey]
            rw [hgrades]
            exact .useless (fun m hm => by simp [margin?_iff_denotes.mpr hm] at hkey) ih
        | some m =>
            have hgrades : grades ((key, outlines) :: ps) = ⟨key, m, outlines⟩ :: grades ps := by
              simp [grades, hkey]
            rw [hgrades]
            exact .graded (margin?_iff_denotes.mp hkey) ih

theorem mem_grades {ps : List (String × List Outline)} {g : Grade} :
    g ∈ grades ps ↔ (g.key, g.outlines) ∈ ps ∧ margin? g.key = some g.margin := by
  obtain ⟨key, margin, outlines⟩ := g
  simp only [grades, List.mem_filterMap, Option.map_eq_some_iff, Grade.mk.injEq]
  constructor
  · rintro ⟨⟨k, l⟩, hp, m, hm, rfl, rfl, rfl⟩
    exact ⟨hp, hm⟩
  · rintro ⟨hp, hm⟩
    exact ⟨_, hp, margin, hm, rfl, rfl, rfl⟩

/-- Only what stands below an effect is found among its contents. -/
theorem mem_of_mem_contents {sharedRolls : List Outline} {on : OutlineEdges Outline}
    {graded : List Grade} (hperm : graded.Perm (grades on.failedSaveBy))
    {b : Option Outcome × Outline} (h : b ∈ contents (lists sharedRolls on graded)) :
    b.2 ∈ sharedRolls ∨ b.2 ∈ on.outlines := by
  obtain ⟨l, hl, hb, -⟩ := mem_contents.mp h
  simp only [OutlineEdges.outlines, List.mem_append, List.mem_flatMap]
  rcases List.mem_append.mp hl with hl | hl
  · simp only [List.mem_cons, List.not_mem_nil, or_false] at hl
    rcases hl with rfl | rfl | rfl | rfl | rfl | rfl <;> simp [hb]
  · obtain ⟨g, hg, rfl⟩ := List.mem_map.mp hl
    have hentry := (mem_grades.mp (hperm.mem_iff.mp hg)).1
    exact .inr (.inr ⟨_, hentry, hb⟩)

/-! ## What is drafted -/

/-- The draft of graded failures under one key. -/
def Grade.toGraded (g : Grade) : Graded :=
  ⟨g.key, g.margin, drafts (some (.failedSaveBy g.margin)) g.outlines⟩

def Grade.notAfter (a b : Grade) : Bool :=
  a.toGraded.notAfter b.toGraded

theorem map_insertBy {α : Type u} {β : Type v} {before : α → α → Bool} {before' : β → β → Bool}
    {f : α → β} (h : ∀ a b, before' (f a) (f b) = before a b) (x : α) (l : List α) :
    (insertBy before x l).map f = insertBy before' (f x) (l.map f) := by
  induction l with
  | nil => rfl
  | cons y l ih =>
      rw [insertBy, List.map_cons, insertBy, h]
      split
      · rw [List.map_cons, ih]
      · rfl

theorem map_foldr_insertBy {α : Type u} {β : Type v} {before : α → α → Bool}
    {before' : β → β → Bool} {f : α → β} (h : ∀ a b, before' (f a) (f b) = before a b)
    (l : List α) :
    (l.foldr (insertBy before) []).map f = (l.map f).foldr (insertBy before') [] := by
  induction l with
  | nil => rfl
  | cons x l ih => rw [List.foldr_cons, map_insertBy h, ih, List.map_cons, List.foldr_cons]

theorem Grade.notAfter_iff {a b : Grade} : a.notAfter b = true ↔ a.Before b := by
  show a.toGraded.notAfter b.toGraded = true ↔ _
  rw [Graded.notAfter]
  simp only [Bool.or_eq_true, Bool.and_eq_true, decide_eq_true_eq]
  exact or_congr_right (and_congr_right' le_iff_lt_or_eq.symm)

theorem Grade.before_of_not_notAfter {a b : Grade} (h : a.notAfter b = false) : b.Before a := by
  have hnot : ¬ a.Before b := fun hab => by
    rw [Grade.notAfter_iff.mpr hab] at h
    cases h
  obtain ⟨hmargin, hkey⟩ := not_or.mp hnot
  rcases UInt32.lt_or_eq_of_le (UInt32.not_lt.mp hmargin) with hlt | heq
  · exact .inl hlt
  · exact .inr ⟨heq, le_of_not_ge fun hle => hkey ⟨heq.symm, hle⟩⟩

theorem Grade.Before.trans {a b c : Grade} (hab : a.Before b) (hbc : b.Before c) : a.Before c := by
  rcases hab with hab | ⟨hab, hkab⟩
  · rcases hbc with hbc | ⟨hbc, -⟩
    · exact .inl (UInt32.lt_trans hab hbc)
    · exact .inl (hbc ▸ hab)
  · rcases hbc with hbc | ⟨hbc, hkbc⟩
    · exact .inl (hab ▸ hbc)
    · exact .inr ⟨hab.trans hbc, String.le_trans hkab hkbc⟩

/-- The graded failures in the order of margins. -/
def gradesInOrder (ps : List (String × List Outline)) : List Grade :=
  (grades ps).foldr (insertBy Grade.notAfter) []

theorem gradesInOrder_perm (ps : List (String × List Outline)) :
    (gradesInOrder ps).Perm (grades ps) :=
  foldr_insertBy_perm _

theorem pairwise_gradesInOrder (ps : List (String × List Outline)) :
    (gradesInOrder ps).Pairwise Grade.Before :=
  pairwise_foldr_insertBy (fun _ _ _ hab hbc => hab.trans hbc)
    (fun _ _ hyes => Grade.notAfter_iff.mp hyes) (fun _ _ hno => Grade.before_of_not_notAfter hno) _

example : (gradesInOrder [("5", []), ("x", []), ("10", []), (" 05", []), ("+5", [])]).map
    (fun g => (g.margin, g.key)) = [(5, " 05"), (5, "+5"), (5, "5"), (10, "10")] := by
  decide

theorem draftGraded_eq_map (ps : List (String × List Outline)) :
    draftGraded ps = (grades ps).map Grade.toGraded := by
  rw [draftGraded_eq, grades, List.map_filterMap]
  refine List.filterMap_congr fun p _ => ?_
  cases margin? p.1 <;> rfl

theorem draftBranches_map (o : Option Outcome) (outlines : List Outline) :
    draftBranches (outlines.map fun outline => (o, outline)) = drafts o outlines := by
  induction outlines with
  | nil => rfl
  | cons outline rest ih => rw [List.map_cons, draftBranches, ih, drafts]

/-- The drafts of lists of outlines, one list after the other. -/
theorem draftBranches_contents (ls : List (Outcome × List Outline)) :
    draftBranches (contents ls) = ls.foldr (fun l rest => drafts (some l.1) l.2 ++ rest) .nil := by
  induction ls with
  | nil => rfl
  | cons l ls ih =>
      rw [contents, List.flatMap_cons, draftBranches_append, draftBranches_map, List.foldr_cons,
        ← ih, contents]

theorem draft_full (sharedRolls : List Outline) (on : OutlineEdges Outline) :
    drafts (some .sharedRolls) sharedRolls ++ draftEdges on =
      draftBranches (contents (lists sharedRolls on (gradesInOrder on.failedSaveBy))) := by
  have hplace : Graded.place = insertBy Graded.notAfter := by
    funext g gs
    exact Graded.place_eq g gs
  have hgraded : (draftGraded on.failedSaveBy).foldr Graded.place [] =
      (gradesInOrder on.failedSaveBy).map Grade.toGraded := by
    rw [hplace, draftGraded_eq_map]
    exact (map_foldr_insertBy (fun _ _ => rfl) _).symm
  obtain ⟨hit, miss, criticalHit, failedSave, passedSave, failedSaveBy⟩ := on
  rw [draftEdges, Graded.inOrder, hgraded, draftBranches_contents, lists, List.foldr_append,
    List.foldr_map, List.foldr_map]
  rfl

theorem document_cons {outline : Outline} {o : Option Outcome}
    {rest : List (Option Outcome × Outline)} {f : Forest Draft} (hrest : Document rest f) :
    Document ((o, outline) :: rest) (outline.draft o ++ f) := by
  induction outline using Outline.induction generalizing o rest f with
  | shorthand text =>
      rw [draft]
      cases htext : Shorthand.effect? text with
      | none => exact .useless htext hrest
      | some read => exact .shorthand htext hrest
  | full id e sharedRolls on hshared hon =>
      have hperm := gradesInOrder_perm on.failedSaveBy
      have hall : ∀ bs : List (Option Outcome × Outline),
          (∀ b ∈ bs, b.2 ∈ sharedRolls ∨ b.2 ∈ on.outlines) → Document bs (draftBranches bs) := by
        intro bs hbs
        induction bs with
        | nil => exact .nil
        | cons b bs ih =>
            have hrest := ih fun c hc => hbs c (List.mem_cons_of_mem _ hc)
            rcases hbs b List.mem_cons_self with hb | hb
            · exact hshared b.2 hb hrest
            · exact hon b.2 hb hrest
      rw [draft, draft_full]
      exact .full (grades_iff.mpr rfl) hperm (pairwise_gradesInOrder _)
        (hall _ fun b hb => mem_of_mem_contents hperm hb) hrest

/-- What is drafted is what the document says. -/
theorem document_draftBranches (bs : List (Option Outcome × Outline)) :
    Document bs (draftBranches bs) := by
  induction bs with
  | nil => exact .nil
  | cons b bs ih => exact document_cons ih

/-! ## The order of outcomes -/

/-- In a forest of drafts, what stands below an effect stands under outcomes, in their order. -/
def Arranged (f : Forest Draft) : Prop :=
  ∀ s ∈ f.subtrees, (∀ d ∈ s.2.rootLabels, d.outcome ≠ none) ∧
    Ordered (s.2.rootLabels.map Draft.outcome)

theorem Arranged.children {d : Draft} {c r : Forest Draft} (h : Arranged (.node d c r)) :
    Arranged c :=
  fun s hs => h s (by simp [hs])

theorem Arranged.rest {d : Draft} {c r : Forest Draft} (h : Arranged (.node d c r)) :
    Arranged r :=
  fun s hs => h s (by simp [hs])

theorem ordered_contents {ls : List (Outcome × List Outline)}
    (h : ls.Pairwise fun l l' => l.1.rank ≤ l'.1.rank) : Ordered ((contents ls).map Prod.fst) := by
  rw [Ordered, List.pairwise_map]
  induction ls with
  | nil => exact List.Pairwise.nil
  | cons l ls ih =>
      obtain ⟨hfirst, hrest⟩ := List.pairwise_cons.mp h
      rw [contents, List.flatMap_cons]
      refine List.pairwise_append.mpr ⟨?_, ih hrest, fun b hb c hc => ?_⟩
      · exact List.pairwise_map.mpr
          (List.pairwise_of_forall fun _ _ => notAfter_iff.mpr (Nat.le_refl _))
      · obtain ⟨outline, -, rfl⟩ := List.mem_map.mp hb
        obtain ⟨l', hl', -, ho⟩ := mem_contents.mp hc
        rw [← ho, notAfter_iff]
        exact hfirst l' hl'

theorem pairwise_lists {graded : List Grade} (h : graded.Pairwise Grade.Before)
    (sharedRolls : List Outline) (on : OutlineEdges Outline) :
    (lists sharedRolls on graded).Pairwise fun l l' => l.1.rank ≤ l'.1.rank := by
  refine List.pairwise_append.mpr ⟨?_, ?_, fun l hl l' hl' => ?_⟩
  · simp [Outcome.rank]
  · refine List.pairwise_map.mpr (h.imp fun {a b} hab => ?_)
    have hle : a.margin ≤ b.margin :=
      hab.elim (fun hlt => UInt32.le_of_lt hlt) fun heq => heq.1 ▸ UInt32.le_refl _
    exact Nat.add_le_add_left (UInt32.le_iff_toNat_le.mp hle) 6
  · obtain ⟨g, -, rfl⟩ := List.mem_map.mp hl'
    simp only [List.mem_cons, List.not_mem_nil, or_false] at hl
    rcases hl with rfl | rfl | rfl | rfl | rfl | rfl <;> simp only [Outcome.rank] <;> omega

namespace Document

variable {bs : List (Option Outcome × Outline)} {f : Forest Draft}

theorem rootLabels_sublist (h : Document bs f) :
    (f.rootLabels.map Draft.outcome).Sublist (bs.map Prod.fst) := by
  induction h with
  | nil => exact List.Sublist.refl []
  | useless _ _ ih => exact ih.cons _
  | shorthand _ _ ih => exact ih.cons_cons _
  | full _ _ _ _ _ _ ih => exact ih.cons_cons _

theorem arranged (h : Document bs f) : Arranged f := by
  induction h with
  | nil => exact fun s hs => by cases hs
  | useless _ _ ih => exact ih
  | shorthand _ _ ih =>
      intro s hs
      rcases List.mem_cons.mp hs with rfl | hs
      · exact ⟨fun d hd => (by cases hd), Ordered.nil⟩
      · exact ih s hs
  | @full _ _ _ sharedRolls on _ graded _ _ _ _ _ hsorted hchildren _ ihchildren ih =>
      intro s hs
      rcases List.mem_cons.mp hs with rfl | hs
      · have hsub := hchildren.rootLabels_sublist
        refine ⟨fun d hd hnone => ?_, (ordered_contents (pairwise_lists hsorted _ _)).sublist hsub⟩
        obtain ⟨b, hb, hbo⟩ := List.mem_map.mp (hsub.subset (List.mem_map_of_mem hd))
        obtain ⟨l, -, -, ho⟩ := mem_contents.mp hb
        rw [← ho, hnone] at hbo
        cases hbo
      · rcases List.mem_append.mp hs with hs | hs
        · exact ihchildren s hs
        · exact ih s hs

end Document

/-! ## One document, one forest -/

/-- No key stands twice among graded failures. -/
inductive Keyed : Outline → Prop where
  | shorthand (text : String) : Keyed (.shorthand text)
  | full {id : Option NodeId} {e : Effect} {sharedRolls : List Outline}
      {on : OutlineEdges Outline} (hshared : ∀ o ∈ sharedRolls, Keyed o)
      (hbelow : ∀ o ∈ on.outlines, Keyed o) (hkeys : (on.failedSaveBy.map Prod.fst).Nodup) :
      Keyed (.full id e sharedRolls on)

theorem Grade.eq_of_before {ps : List (String × List Outline)} (hkeys : (ps.map Prod.fst).Nodup)
    {a b : Grade} (ha : a ∈ grades ps) (hb : b ∈ grades ps) (hab : a.Before b)
    (hba : b.Before a) : a = b := by
  have hkey : a.key = b.key := by
    rcases hab with hlt | ⟨heq, hab⟩
    · rcases hba with hba | ⟨hba, -⟩
      · exact absurd hba (UInt32.lt_asymm hlt)
      · exact absurd (hba ▸ hlt) (UInt32.lt_irrefl _)
    · rcases hba with hba | ⟨-, hba⟩
      · exact absurd (heq ▸ hba) (UInt32.lt_irrefl _)
      · exact le_antisymm hab hba
  obtain ⟨hpa, hma⟩ := mem_grades.mp ha
  obtain ⟨hpb, hmb⟩ := mem_grades.mp hb
  have hentry := List.inj_on_of_nodup_map hkeys hpa hpb hkey
  obtain ⟨ka, ma, la⟩ := a
  obtain ⟨kb, mb, lb⟩ := b
  cases hentry
  rw [hma] at hmb
  cases hmb
  rfl

theorem Document.unique {bs : List (Option Outcome × Outline)} (hkeyed : ∀ b ∈ bs, Keyed b.2)
    {f g : Forest Draft} (hf : Document bs f) (hg : Document bs g) : f = g := by
  induction hf generalizing g with
  | nil => cases hg; rfl
  | useless htext _ ih =>
      have hrest := fun b hb => hkeyed b (List.mem_cons_of_mem _ hb)
      cases hg with
      | useless _ hg => exact ih hrest hg
      | shorthand htext' hg =>
          rw [htext] at htext'
          cases htext'
  | shorthand htext _ ih =>
      have hrest := fun b hb => hkeyed b (List.mem_cons_of_mem _ hb)
      cases hg with
      | useless htext' hg =>
          rw [htext] at htext'
          cases htext'
      | shorthand htext' hg =>
          rw [htext] at htext'
          cases htext'
          rw [ih hrest hg]
  | full hentries hperm hsorted _ _ ihchildren ih =>
      have hrest := fun b hb => hkeyed b (List.mem_cons_of_mem _ hb)
      cases hkeyed _ List.mem_cons_self with
      | full hshared hbelow hkeys =>
          cases hg with
          | full hentries' hperm' hsorted' hchildren' hg =>
              obtain rfl := grades_iff.mp hentries
              obtain rfl := grades_iff.mp hentries'
              have hgraded := (hperm.trans hperm'.symm).eq_of_pairwise
                (fun a b ha hb hab hba => Grade.eq_of_before hkeys (hperm.mem_iff.mp ha)
                  (hperm'.mem_iff.mp hb) hab hba) hsorted hsorted'
              subst hgraded
              have hchildren := ihchildren (fun b hb =>
                (mem_of_mem_contents hperm hb).elim (hshared b.2) (hbelow b.2)) hchildren'
              rw [hchildren, ih hrest hg]

end Outline

end Spellwork
