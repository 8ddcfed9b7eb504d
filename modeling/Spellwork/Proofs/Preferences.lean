import Spellwork.Proofs.Searches

/-!
# Preferences

Of all ways to match, a search takes the first one from which it can go on. `Pattern.seek` tells
what that way leads to, given what is to follow, and has one equation for each kind of pattern.
Greedy repetition goes on with another round if that leads to anything, and stops otherwise
(`seek_many`); characters of a class are taken as far as they go if nothing can follow before their
end (`seek_many_one`), or if what follows never fails (`not_accepted_of_head_many1`).
-/

namespace Spellwork.Text

namespace Pattern

/-! ## Rounds -/

theorem foldr_rounds_eq {step : Cursor → List Cursor} {fuel : Nat}
    (h : ∀ c others, rounds true step fuel c others = rounds true step fuel c [] ++ others)
    (cs others : List Cursor) :
    cs.foldr (rounds true step fuel) others =
      (cs.flatMap fun c => rounds true step fuel c []) ++ others := by
  induction cs with
  | nil => rfl
  | cons c cs ih => rw [List.foldr_cons, h, ih, List.flatMap_cons, List.append_assoc]

theorem rounds_append (step : Cursor → List Cursor) (fuel : Nat) (c : Cursor)
    (others : List Cursor) :
    rounds true step fuel c others = rounds true step fuel c [] ++ others := by
  induction fuel generalizing c others with
  | zero => rfl
  | succ fuel ih =>
      have hopen : ∀ ds, rounds true step (fuel + 1) c ds =
          (step c).foldr (rounds true step fuel) (c :: ds) := fun _ => rfl
      rw [hopen, hopen, foldr_rounds_eq ih, foldr_rounds_eq ih, List.append_assoc]
      rfl

theorem rounds_succ (step : Cursor → List Cursor) (fuel : Nat) (c : Cursor) :
    rounds true step (fuel + 1) c [] =
      ((step c).flatMap fun d => rounds true step fuel d []) ++ [c] :=
  foldr_rounds_eq (rounds_append step fuel) (step c) [c]

/-- More rounds than there are characters left make no difference. -/
theorem rounds_fuel {body : Pattern} (hbody : body.takesSome = true) {fuel fuel' : Nat}
    {c : Cursor} (h : c.rest.length ≤ fuel) (h' : c.rest.length ≤ fuel') :
    rounds true body.run fuel c [] = rounds true body.run fuel' c [] := by
  have hnone : ∀ {c : Cursor}, c.rest.length ≤ 0 → body.run c = [] := by
    intro c hc
    refine List.eq_nil_iff_forall_not_mem.mpr fun d hd => ?_
    exact absurd (Nat.lt_of_lt_of_le ((matches_of_mem_run hd).length_lt hbody) hc)
      (Nat.not_lt_zero _)
  induction fuel generalizing c fuel' with
  | zero =>
      cases fuel' with
      | zero => rfl
      | succ fuel' =>
          rw [rounds_succ, hnone h]
          rfl
  | succ fuel ih =>
      cases fuel' with
      | zero =>
          rw [rounds_succ, hnone h']
          rfl
      | succ fuel' =>
          rw [rounds_succ, rounds_succ]
          refine congrArg (· ++ [c]) (List.flatMap_congr fun d hd => ?_)
          have hlt := (matches_of_mem_run hd).length_lt hbody
          exact ih (by omega) (by omega)

/-- Greedy repetition prefers another round. -/
theorem run_many {body : Pattern} (hbody : body.takesSome = true) (c : Cursor) :
    (many true body).run c = (body.run c).flatMap (many true body).run ++ [c] := by
  have hfuel : (many true body).run c = rounds true body.run (c.rest.length + 1) c [] :=
    rounds_fuel hbody (Nat.le_refl _) (Nat.le_succ _)
  rw [hfuel, rounds_succ]
  refine congrArg (· ++ [c]) (List.flatMap_congr fun d hd => ?_)
  have hlt := (matches_of_mem_run hd).length_lt hbody
  exact rounds_fuel hbody (by omega) (Nat.le_refl _)

/-! ## The preferred way -/

theorem exists_of_head_seq {first second : Pattern} {c d : Cursor}
    (h : ((seq first second).run c).head? = some d) :
    ∃ e, Matches first c e ∧ (second.run e).head? = some d := by
  have hfind : (first.run c).findSome? (fun e => (second.run e).head?) = some d := by
    rwa [← List.head?_flatMap]
  obtain ⟨e, he, hd⟩ := List.exists_of_findSome?_eq_some hfind
  exact ⟨e, matches_of_mem_run he, hd⟩

/-- If what follows never fails, the preferred way goes on from the preferred way. -/
theorem head_of_head_seq {first second : Pattern} (hsecond : ∀ e, second.run e ≠ []) {c d : Cursor}
    (h : ((seq first second).run c).head? = some d) :
    ∃ e, (first.run c).head? = some e ∧ (second.run e).head? = some d := by
  have hflat : ((first.run c).flatMap second.run).head? = some d := h
  cases hrun : first.run c with
  | nil =>
      rw [hrun] at hflat
      cases hflat
  | cons e es =>
      refine ⟨e, rfl, ?_⟩
      rwa [hrun, List.flatMap_cons, List.head?_append_of_ne_nil _ (hsecond e)] at hflat

theorem exists_of_head_all_append {ps qs : List Pattern} {c d : Cursor}
    (h : ((all (ps ++ qs)).run c).head? = some d) :
    ∃ e, Matches (all ps) c e ∧ ((all qs).run e).head? = some d := by
  induction ps generalizing c with
  | nil => exact ⟨c, .empty, h⟩
  | cons p ps ih =>
      obtain ⟨e, he, hrest⟩ := exists_of_head_seq h
      obtain ⟨e', he', hd⟩ := ih hrest
      exact ⟨e', .seq he he', hd⟩

/-- By preference characters of a class are taken as far as they go. -/
theorem not_accepted_of_head_many {accepts : Char → Bool} {c d : Cursor}
    (h : ((many true (one accepts)).run c).head? = some d) :
    ∀ x ∈ d.rest.head?, accepts x = false := by
  induction hn : c.rest generalizing c with
  | nil =>
      have hone : (one accepts).run c = [] := by
        unfold run Cursor.step?
        rw [hn]
        rfl
      rw [run_many rfl, hone] at h
      obtain rfl := Option.some.inj h
      rw [hn]
      intro x hx
      cases hx
  | cons x rest ih =>
      by_cases hx : accepts x = true
      · have hone : (one accepts).run c = [⟨c.offset + 1, some x, rest, c.groups⟩] := by
          unfold run Cursor.step?
          rw [hn]
          dsimp only
          rw [if_pos hx]
          rfl
        have hmore : (many true (one accepts)).run ⟨c.offset + 1, some x, rest, c.groups⟩ ≠ [] := by
          rw [run_many rfl]
          exact List.append_ne_nil_of_right_ne_nil _ (List.cons_ne_nil _ _)
        rw [run_many rfl, hone, List.flatMap_singleton, List.head?_append_of_ne_nil _ hmore] at h
        exact ih h rfl
      · have hone : (one accepts).run c = [] := by
          unfold run Cursor.step?
          rw [hn]
          dsimp only
          rw [if_neg hx]
          rfl
        rw [run_many rfl, hone] at h
        obtain rfl := Option.some.inj h
        intro y hy
        rw [hn] at hy
        cases hy
        exact Bool.eq_false_iff.mpr hx

theorem not_accepted_of_head_many1 {accepts : Char → Bool} {c d : Cursor}
    (h : ((many1 (one accepts)).run c).head? = some d) : ∀ x ∈ d.rest.head?, accepts x = false := by
  obtain ⟨e, -, he⟩ := exists_of_head_seq h
  exact not_accepted_of_head_many he

/-! ## What follows a match -/

variable {α : Type u} {β : Type v}

/-- What the first way to match leads to that leads to anything. -/
def seek (p : Pattern) (next : Cursor → Option α) (c : Cursor) : Option α :=
  (p.run c).findSome? next

theorem seek_empty (next : Cursor → Option α) (c : Cursor) : empty.seek next c = next c := by
  simp [seek, run]

theorem seek_seq (first second : Pattern) (next : Cursor → Option α) (c : Cursor) :
    (seq first second).seek next c = first.seek (second.seek next) c := by
  show ((first.run c).flatMap second.run).findSome? next =
    (first.run c).findSome? fun d => (second.run d).findSome? next
  induction first.run c with
  | nil => rfl
  | cons d ds ih =>
      rw [List.flatMap_cons, List.findSome?_append, ih, List.findSome?_cons]
      cases (second.run d).findSome? next <;> rfl

theorem seek_alt (first second : Pattern) (next : Cursor → Option α) (c : Cursor) :
    (alt first second).seek next c = (first.seek next c).or (second.seek next c) :=
  List.findSome?_append

theorem seek_opt (p : Pattern) (next : Cursor → Option α) (c : Cursor) :
    (opt p).seek next c = (p.seek next c).or (next c) := by
  rw [opt, seek_alt, seek_empty]

theorem seek_group (label : Nat) (body : Pattern) (next : Cursor → Option α) (c : Cursor) :
    (group label body).seek next c =
      body.seek (fun d => next { d with groups := (label, ⟨c.offset, d.offset⟩) :: d.groups }) c :=
  List.findSome?_map

theorem seek_textStart (next : Cursor → Option α) (c : Cursor) :
    textStart.seek next c = if c.offset = 0 then next c else none := by
  unfold seek run
  split <;> simp

theorem seek_wordEdge (next : Cursor → Option α) (c : Cursor) :
    wordEdge.seek next c = if c.atWordEdge then next c else none := by
  unfold seek run
  split <;> simp

theorem seek_many {body : Pattern} (hbody : body.takesSome = true) (next : Cursor → Option α)
    (c : Cursor) :
    (many true body).seek next c = (body.seek ((many true body).seek next) c).or (next c) := by
  have hseq := seek_seq body (many true body) next c
  unfold seek at hseq ⊢
  rw [run_many hbody, List.findSome?_append]
  refine congrArg₂ Option.or hseq ?_
  simp

theorem seek_map (p : Pattern) (next : Cursor → Option α) (f : α → β) (c : Cursor) :
    p.seek (fun d => (next d).map f) c = (p.seek next c).map f := by
  unfold seek
  induction p.run c with
  | nil => rfl
  | cons d ds ih =>
      rw [List.findSome?_cons, List.findSome?_cons, ih]
      cases next d <;> rfl

theorem findSome?_congr_mem {f g : β → Option α} {xs : List β} (h : ∀ x ∈ xs, f x = g x) :
    xs.findSome? f = xs.findSome? g := by
  induction xs with
  | nil => rfl
  | cons x xs ih =>
      obtain ⟨hx, hxs⟩ := List.forall_mem_cons.mp h
      rw [List.findSome?_cons, List.findSome?_cons, hx, ih hxs]

theorem seek_congr {p : Pattern} {next next' : Cursor → Option α} {c : Cursor}
    (h : ∀ d, Matches p c d → next d = next' d) : p.seek next c = p.seek next' c :=
  findSome?_congr_mem fun d hd => h d (matches_of_mem_run hd)

theorem exists_of_seek {p : Pattern} {next : Cursor → Option α} {c : Cursor} {a : α}
    (h : p.seek next c = some a) : ∃ d, Matches p c d ∧ next d = some a := by
  obtain ⟨d, hd, hnext⟩ := List.exists_of_findSome?_eq_some h
  exact ⟨d, matches_of_mem_run hd, hnext⟩

/-- Nothing follows where no match can begin. -/
theorem seek_eq_none_of_begins {p : Pattern} (hp : p.takesSome = true) {next : Cursor → Option α}
    {c : Cursor} (h : ∀ x ∈ c.rest.head?, p.begins x = false) : p.seek next c = none := by
  refine List.findSome?_eq_none_iff.mpr fun d hd => ?_
  obtain ⟨x, rest, hrest, hx⟩ := (matches_of_mem_run hd).begins hp
  rw [h x (by rw [hrest]; rfl)] at hx
  cases hx

/-- The preferred match at a place. -/
theorem matchAt_eq_seek (p : Pattern) (c : Cursor) :
    p.matchAt c = p.seek (fun d => some ⟨⟨c.offset, d.offset⟩, d.groups⟩) c := by
  unfold matchAt seek
  cases p.run c <;> rfl

/-- Something is found if any way to match leads to it. -/
theorem seek_ne_none {p : Pattern} (hp : p.isProductive = true) {next : Cursor → Option α}
    {c d : Cursor} (h : Matches p c d) (hnext : next d ≠ none) : p.seek next c ≠ none := by
  intro hnone
  exact hnext (List.findSome?_eq_none_iff.mp hnone d (mem_run_of_matches hp h))

/-! ## From place to place -/

theorem Matches.exists_covers_before {p : Pattern} {c d : Cursor} (h : Matches p c d) :
    ∃ taken, Covers taken c d ∧
      ∀ past, c.before = past.getLast? → d.before = (past ++ taken).getLast? := by
  induction h with
  | one step =>
      obtain ⟨x, rest, hrest, -, rfl⟩ := matches_one_iff.mp (.one step)
      exact ⟨[x], ⟨hrest, rfl⟩, fun past _ => by simp⟩
  | seq _ _ ih₁ ih₂ | manyMore _ _ ih₁ ih₂ =>
      obtain ⟨taken, hcovers, hbefore⟩ := ih₁
      obtain ⟨taken', hcovers', hbefore'⟩ := ih₂
      refine ⟨taken ++ taken', hcovers.trans hcovers', fun past hpast => ?_⟩
      rw [← List.append_assoc]
      exact hbefore' _ (hbefore past hpast)
  | altFirst _ ih => exact ih
  | altSecond _ ih => exact ih
  | group _ ih => exact ih
  | _ => exact ⟨[], .refl _, fun past hpast => by rwa [List.append_nil]⟩

/-- A pattern without groups leads from a place to another one of the same text. -/
theorem Matches.between {p : Pattern} {past rest : List Char} {d : Cursor}
    (h : Matches p (.between past rest) d) (hp : p.groups = []) :
    ∃ taken ∈ p.language, ∃ behind, rest = taken ++ behind ∧
      d = .between (past ++ taken) behind := by
  obtain ⟨taken, htaken, hcovers⟩ := h.covers
  obtain ⟨taken', hcovers', hbefore⟩ := h.exists_covers_before
  obtain rfl : taken = taken' := List.append_cancel_right (hcovers.1.symm.trans hcovers'.1)
  refine ⟨taken, htaken, d.rest, hcovers.1, ?_⟩
  obtain ⟨offset, before, behind, groups⟩ := d
  obtain rfl : groups = [] := h.groups_eq hp
  obtain rfl : before = (past ++ taken).getLast? := hbefore past rfl
  obtain rfl : offset = past.length + taken.length := hcovers.2
  rw [Cursor.between, List.length_append]

/-! ## Characters of a class -/

theorem seek_one (accepts : Char → Bool) (next : Cursor → Option α) (past : List Char) (x : Char)
    (rest : List Char) :
    (one accepts).seek next (.between past (x :: rest)) =
      if accepts x then next (.between (past ++ [x]) rest) else none := by
  rw [between_snoc]
  unfold seek run Cursor.step? Cursor.between
  dsimp only
  split <;> simp

/-- Characters of a class are taken as far as they go, if nothing can follow before their end. -/
theorem seek_many_one {accepts : Char → Bool} {next : Cursor → Option α}
    {past taken rest : List Char}
    (htaken : ∀ x ∈ taken, accepts x = true) (hstop : ∀ x ∈ rest.head?, accepts x = false)
    (hshort : ∀ before x after, taken = before ++ x :: after →
      next (.between (past ++ before) (x :: after ++ rest)) = none) :
    (many true (one accepts)).seek next (.between past (taken ++ rest)) =
      next (.between (past ++ taken) rest) := by
  induction taken generalizing past with
  | nil =>
      rw [seek_many rfl, seek_eq_none_of_begins rfl hstop, List.append_nil]
      rfl
  | cons x taken ih =>
      obtain ⟨hx, htaken⟩ := List.forall_mem_cons.mp htaken
      have hlater : ∀ before y after, taken = before ++ y :: after →
          next (.between (past ++ [x] ++ before) (y :: after ++ rest)) = none := by
        intro before y after hsplit
        have hnone := hshort (x :: before) y after (by rw [hsplit]; rfl)
        rwa [List.append_cons] at hnone
      have hhere : next (.between past (x :: taken ++ rest)) = none := by
        have hnone := hshort [] x taken rfl
        rwa [List.append_nil] at hnone
      rw [seek_many rfl, hhere, Option.or_none, List.cons_append, seek_one, if_pos hx,
        ih htaken hlater, List.append_assoc, List.singleton_append]

/-- At least one character of a class. -/
theorem seek_many1_one {accepts : Char → Bool} {next : Cursor → Option α}
    {past taken rest : List Char} (hne : taken ≠ []) (htaken : ∀ x ∈ taken, accepts x = true)
    (hstop : ∀ x ∈ rest.head?, accepts x = false)
    (hshort : ∀ before a x after, taken = before ++ a :: x :: after →
      next (.between (past ++ before ++ [a]) (x :: after ++ rest)) = none) :
    (many1 (one accepts)).seek next (.between past (taken ++ rest)) =
      next (.between (past ++ taken) rest) := by
  obtain ⟨first, taken, rfl⟩ := List.exists_cons_of_ne_nil hne
  obtain ⟨hfirst, htaken⟩ := List.forall_mem_cons.mp htaken
  rw [many1, seek_seq, List.cons_append, seek_one, if_pos hfirst,
    seek_many_one htaken hstop, List.append_assoc, List.singleton_append]
  intro before x after hsplit
  obtain ⟨ahead, a, hahead⟩ : ∃ ahead a, first :: before = ahead ++ [a] :=
    ⟨_, _, (List.dropLast_concat_getLast (List.cons_ne_nil first before)).symm⟩
  have hnone := hshort ahead a x after (by
    rw [hsplit, ← List.cons_append, hahead, List.append_assoc, List.singleton_append])
  rwa [List.append_assoc past, ← hahead, List.append_cons] at hnone

end Pattern

end Spellwork.Text
