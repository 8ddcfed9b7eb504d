import Spellwork.Text.Pattern.Language

/-!
# Parts of a match

A match of a pattern that is put together from others falls into matches of these. What can be seen
of it from the pattern alone: the character that it begins with (`Matches.begins`), the groups that
it captures (`Matches.exists_span`) or leaves alone (`Matches.groups_eq`). The other way round, a
text of the language is matched wherever it stands, unless the pattern looks around itself
(`exists_matches_of_mem_language`).
-/

namespace Spellwork.Text

namespace Pattern

/-! ## Taking a match apart -/

theorem matches_one_iff {accepts : Char → Bool} {c d : Cursor} :
    Matches (one accepts) c d ↔ ∃ x rest, c.rest = x :: rest ∧ accepts x = true ∧
      d = ⟨c.offset + 1, some x, rest, c.groups⟩ := by
  constructor
  · intro h
    cases h with
    | one step =>
        unfold Cursor.step? at step
        split at step
        · cases step
        · rename_i x rest hrest
          split at step
          · rename_i hx
            exact ⟨x, rest, hrest, hx, (Option.some.inj step).symm⟩
          · cases step
  · rintro ⟨x, rest, hrest, hx, rfl⟩
    refine .one ?_
    unfold Cursor.step?
    rw [hrest]
    exact if_pos hx

theorem matches_seq_iff {first second : Pattern} {c e : Cursor} :
    Matches (seq first second) c e ↔ ∃ d, Matches first c d ∧ Matches second d e := by
  constructor
  · intro h
    cases h with
    | seq before after => exact ⟨_, before, after⟩
  · rintro ⟨d, before, after⟩
    exact .seq before after

theorem matches_all_nil_iff {c d : Cursor} : Matches (all []) c d ↔ d = c := by
  constructor
  · intro h
    cases h with
    | empty => rfl
  · rintro rfl
    exact .empty

theorem matches_all_cons_iff {p : Pattern} {ps : List Pattern} {c e : Cursor} :
    Matches (all (p :: ps)) c e ↔ ∃ d, Matches p c d ∧ Matches (all ps) d e :=
  matches_seq_iff

theorem matches_group_iff {label : Nat} {body : Pattern} {c d : Cursor} :
    Matches (group label body) c d ↔ ∃ e, Matches body c e ∧
      d = { e with groups := (label, ⟨c.offset, e.offset⟩) :: e.groups } := by
  constructor
  · intro h
    cases h with
    | group h => exact ⟨_, h, rfl⟩
  · rintro ⟨e, h, rfl⟩
    exact .group h

/-- The characters that a match may begin with. -/
def begins : Pattern → Char → Bool
  | one accepts, x => accepts x
  | seq first second, x => first.begins x || (!first.takesSome && second.begins x)
  | alt first second, x => first.begins x || second.begins x
  | many _ body, x => body.begins x
  | group _ body, x => body.begins x
  | _, _ => false

theorem Matches.rest_eq_or_begins {p : Pattern} {c d : Cursor} (h : Matches p c d) :
    d.rest = c.rest ∨ ∃ x rest, c.rest = x :: rest ∧ p.begins x = true := by
  induction h with
  | one step =>
      obtain ⟨x, rest, hrest, hx, -⟩ := matches_one_iff.mp (.one step)
      exact Or.inr ⟨x, rest, hrest, hx⟩
  | @seq first second c d e before after ih₁ ih₂ =>
      rcases ih₁ with hsame | ⟨x, rest, hrest, hx⟩
      · have hnone : first.takesSome = false := by
          refine Bool.eq_false_iff.mpr fun hsome => ?_
          have hlt := before.length_lt hsome
          rw [hsame] at hlt
          exact absurd hlt (Nat.lt_irrefl _)
        rcases ih₂ with hsame' | ⟨x, rest, hrest, hx⟩
        · exact Or.inl (hsame'.trans hsame)
        · exact Or.inr ⟨x, rest, hsame ▸ hrest, by simp [begins, hnone, hx]⟩
      · exact Or.inr ⟨x, rest, hrest, by simp [begins, hx]⟩
  | altFirst _ ih =>
      exact ih.imp_right fun ⟨x, rest, hrest, hx⟩ => ⟨x, rest, hrest, by simp [begins, hx]⟩
  | altSecond _ ih =>
      exact ih.imp_right fun ⟨x, rest, hrest, hx⟩ => ⟨x, rest, hrest, by simp [begins, hx]⟩
  | manyMore _ _ ih₁ ih₂ =>
      rcases ih₁ with hsame | hbegins
      · rw [hsame] at ih₂
        exact ih₂
      · exact Or.inr hbegins
  | group _ ih => exact ih
  | _ => exact Or.inl rfl

/-- A match that takes a character begins with one that it may begin with. -/
theorem Matches.begins {p : Pattern} {c d : Cursor} (h : Matches p c d)
    (hp : p.takesSome = true) : ∃ x rest, c.rest = x :: rest ∧ p.begins x = true := by
  refine h.rest_eq_or_begins.resolve_left fun hsame => ?_
  have hlt := h.length_lt hp
  rw [hsame] at hlt
  exact absurd hlt (Nat.lt_irrefl _)

/-- The groups that every match captures. -/
def captures : Pattern → List Nat
  | seq first second => first.captures ++ second.captures
  | group label body => label :: body.captures
  | _ => []

theorem Matches.groups_subset {p : Pattern} {c d : Cursor} (h : Matches p c d) :
    c.groups ⊆ d.groups := by
  induction h with
  | one step =>
      obtain ⟨x, rest, -, -, rfl⟩ := matches_one_iff.mp (.one step)
      exact List.Subset.refl _
  | seq _ _ ih₁ ih₂ => exact List.Subset.trans ih₁ ih₂
  | altFirst _ ih => exact ih
  | altSecond _ ih => exact ih
  | manyMore _ _ ih₁ ih₂ => exact List.Subset.trans ih₁ ih₂
  | group _ ih => exact List.subset_cons_of_subset _ ih
  | _ => exact List.Subset.refl _

theorem Matches.exists_span {p : Pattern} {c d : Cursor} (h : Matches p c d) {label : Nat}
    (hlabel : label ∈ p.captures) : ∃ span, (label, span) ∈ d.groups := by
  induction h with
  | seq _ after ih₁ ih₂ =>
      rcases List.mem_append.mp hlabel with hlabel | hlabel
      · obtain ⟨span, hspan⟩ := ih₁ hlabel
        exact ⟨span, after.groups_subset hspan⟩
      · exact ih₂ hlabel
  | group _ ih =>
      rcases List.mem_cons.mp hlabel with rfl | hlabel
      · exact ⟨_, List.mem_cons_self⟩
      · obtain ⟨span, hspan⟩ := ih hlabel
        exact ⟨span, List.mem_cons_of_mem _ hspan⟩
  | _ => cases hlabel

/-- A pattern without groups captures nothing. -/
theorem Matches.groups_eq {p : Pattern} {c d : Cursor} (h : Matches p c d) (hp : p.groups = []) :
    d.groups = c.groups := by
  induction h with
  | one step =>
      obtain ⟨x, rest, -, -, rfl⟩ := matches_one_iff.mp (.one step)
      rfl
  | seq _ _ ih₁ ih₂ =>
      obtain ⟨hp₁, hp₂⟩ := List.append_eq_nil_iff.mp hp
      exact (ih₂ hp₂).trans (ih₁ hp₁)
  | altFirst _ ih => exact ih (List.append_eq_nil_iff.mp hp).1
  | altSecond _ ih => exact ih (List.append_eq_nil_iff.mp hp).2
  | manyMore _ _ ih₁ ih₂ => exact (ih₂ hp).trans (ih₁ hp)
  | group _ _ => cases hp
  | _ => rfl

theorem group?_isSome_of_matchAt {p : Pattern} {c : Cursor} {m : Match}
    (h : p.matchAt c = some m) {label : Nat} (hlabel : label ∈ p.captures) :
    (m.group? label).isSome = true := by
  obtain ⟨d, hd, hgroups⟩ := exists_of_matchAt h
  obtain ⟨span, hspan⟩ := hd.exists_span hlabel
  rw [Match.group?, hgroups, List.lookup_isSome_iff]
  exact ⟨_, hspan, by simp⟩

/-! ## From a text to a match -/

/-- Neither the beginning of the text, nor the end of a line, nor a word edge is asked for. -/
def isFree : Pattern → Bool
  | seq first second => first.isFree && second.isFree
  | alt first second => first.isFree && second.isFree
  | many _ body => body.isFree
  | group _ body => body.isFree
  | empty | one _ => true
  | textStart | lineEnd | wordEdge => false

/-- A pattern that does not look around itself matches every text of its language, wherever it
stands. -/
theorem exists_matches_of_mem_language {p : Pattern} (hp : p.isFree = true) {cs tail : List Char}
    (hcs : cs ∈ p.language) {c : Cursor} (hc : c.rest = cs ++ tail) :
    ∃ d, Matches p c d ∧ Covers cs c d := by
  induction p generalizing cs tail c with
  | empty =>
      obtain rfl : cs = [] := hcs
      exact ⟨c, .empty, .refl c⟩
  | one accepts =>
      obtain ⟨x, hx, rfl⟩ := hcs
      exact ⟨_, matches_one_iff.mpr ⟨x, tail, hc, hx, rfl⟩, hc, rfl⟩
  | seq first second ih₁ ih₂ =>
      obtain ⟨hp₁, hp₂⟩ := Bool.and_eq_true_iff.mp hp
      obtain ⟨before, hbefore, after, hafter, rfl⟩ := mem_language_seq.mp hcs
      obtain ⟨d, hd, hcovers⟩ := ih₁ hp₁ hbefore (hc.trans (List.append_assoc ..))
      have hrest : d.rest = after ++ tail := by
        have := hcovers.1
        rw [hc, List.append_assoc, List.append_cancel_left_eq] at this
        exact this.symm
      obtain ⟨e, he, hcovers'⟩ := ih₂ hp₂ hafter hrest
      exact ⟨e, .seq hd he, hcovers.trans hcovers'⟩
  | alt first second ih₁ ih₂ =>
      obtain ⟨hp₁, hp₂⟩ := Bool.and_eq_true_iff.mp hp
      rcases mem_language_alt.mp hcs with hcs | hcs
      · obtain ⟨d, hd, hcovers⟩ := ih₁ hp₁ hcs hc
        exact ⟨d, .altFirst hd, hcovers⟩
      · obtain ⟨d, hd, hcovers⟩ := ih₂ hp₂ hcs hc
        exact ⟨d, .altSecond hd, hcovers⟩
  | many greedy body ih =>
      obtain ⟨parts, rfl, hparts⟩ := mem_language_many.mp hcs
      clear hcs
      induction parts generalizing c with
      | nil => exact ⟨c, .manyNone, .refl c⟩
      | cons part parts ihparts =>
          obtain ⟨hpart, hrest⟩ := List.forall_mem_cons.mp hparts
          rw [List.flatten_cons, List.append_assoc] at hc
          obtain ⟨d, hd, hcovers⟩ := ih hp hpart hc
          have hnext : d.rest = parts.flatten ++ tail := by
            have := hcovers.1
            rw [hc, List.append_cancel_left_eq] at this
            exact this.symm
          obtain ⟨e, he, hcovers'⟩ :=
            ihparts hrest hnext
          exact ⟨e, .manyMore hd he, hcovers.trans hcovers'⟩
  | group label body ih =>
      obtain ⟨d, hd, hcovers⟩ := ih hp hcs hc
      exact ⟨_, .group hd, hcovers⟩
  | textStart => cases hp
  | lineEnd => cases hp
  | wordEdge => cases hp

end Pattern

end Spellwork.Text
