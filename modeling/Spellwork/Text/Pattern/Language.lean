import Mathlib.Computability.Language
import Spellwork.Text.Pattern.Meaning

/-!
# The texts of a pattern

`Pattern.language` forgets where in a text a pattern stands and keeps what it spells: beginnings,
ends of lines and word edges spell nothing. A match covers a text of the language, and so does every
group that it captures (`text?_mem_language`), which is how what is cut out of prose gets its form.
-/

namespace Spellwork.Text

namespace Pattern

/-- The texts that a pattern takes. -/
def language : Pattern → Language Char
  | one accepts => {cs | ∃ c, accepts c = true ∧ cs = [c]}
  | seq first second => first.language * second.language
  | alt first second => first.language + second.language
  | many _ body => KStar.kstar body.language
  | group _ body => body.language
  | empty | textStart | lineEnd | wordEdge => 1

/-- The groups of a pattern with their bodies. -/
def groups : Pattern → List (Nat × Pattern)
  | seq first second => first.groups ++ second.groups
  | alt first second => first.groups ++ second.groups
  | many _ body => body.groups
  | group label body => (label, body) :: body.groups
  | _ => []

/-! ## What a match covers -/

/-- One place leads to another over some text. -/
def Covers (cs : List Char) (c d : Cursor) : Prop :=
  c.rest = cs ++ d.rest ∧ d.offset = c.offset + cs.length

theorem Covers.refl (c : Cursor) : Covers [] c c :=
  ⟨rfl, rfl⟩

theorem Covers.trans {cs ds : List Char} {c d e : Cursor} (h : Covers cs c d)
    (h' : Covers ds d e) : Covers (cs ++ ds) c e := by
  constructor
  · rw [h.1, h'.1, List.append_assoc]
  · rw [h'.2, h.2, List.length_append, Nat.add_assoc]

theorem covers_of_step? {accepts : Char → Bool} {c d : Cursor} (h : c.step? accepts = some d) :
    ∃ x, accepts x = true ∧ Covers [x] c d ∧ d.groups = c.groups := by
  unfold Cursor.step? at h
  split at h
  · cases h
  · rename_i x rest hrest
    split at h
    · rename_i hx
      cases h
      exact ⟨x, hx, ⟨hrest, rfl⟩, rfl⟩
    · cases h

theorem append_mem_kstar {l : Language Char} {cs ds : List Char} (h : cs ∈ l)
    (h' : ds ∈ KStar.kstar l) : cs ++ ds ∈ KStar.kstar l := by
  obtain ⟨parts, rfl, hparts⟩ := Language.mem_kstar.mp h'
  exact Language.join_mem_kstar (L := cs :: parts) (List.forall_mem_cons.mpr ⟨h, hparts⟩)

/-- A match covers a text of the language. -/
theorem Matches.covers {p : Pattern} {c d : Cursor} (h : Matches p c d) :
    ∃ cs ∈ p.language, Covers cs c d := by
  induction h with
  | empty => exact ⟨[], rfl, .refl _⟩
  | one step =>
      obtain ⟨x, hx, hcovers, -⟩ := covers_of_step? step
      exact ⟨[x], ⟨x, hx, rfl⟩, hcovers⟩
  | seq _ _ ih₁ ih₂ =>
      obtain ⟨cs, hcs, hcovers⟩ := ih₁
      obtain ⟨ds, hds, hcovers'⟩ := ih₂
      exact ⟨cs ++ ds, Language.append_mem_mul hcs hds, hcovers.trans hcovers'⟩
  | altFirst _ ih =>
      obtain ⟨cs, hcs, hcovers⟩ := ih
      exact ⟨cs, Or.inl hcs, hcovers⟩
  | altSecond _ ih =>
      obtain ⟨cs, hcs, hcovers⟩ := ih
      exact ⟨cs, Or.inr hcs, hcovers⟩
  | manyNone => exact ⟨[], Language.nil_mem_kstar _, .refl _⟩
  | manyMore _ _ ih₁ ih₂ =>
      obtain ⟨cs, hcs, hcovers⟩ := ih₁
      obtain ⟨ds, hds, hcovers'⟩ := ih₂
      exact ⟨cs ++ ds, append_mem_kstar hcs hds, hcovers.trans hcovers'⟩
  | group _ ih => exact ih
  | textStart _ => exact ⟨[], rfl, .refl _⟩
  | lineEnd _ => exact ⟨[], rfl, .refl _⟩
  | wordEdge _ => exact ⟨[], rfl, .refl _⟩

/-! ## What a group captures -/

/-- A place in a text. -/
def Within (c : Cursor) (cs : List Char) : Prop :=
  cs.drop c.offset = c.rest

theorem Within.covered {c d : Cursor} {cs taken : List Char} (h : Within c cs)
    (hcovers : Covers taken c d) :
    Within d cs ∧ slice c.offset d.offset cs = taken := by
  unfold Within slice
  rw [hcovers.2, ← List.drop_drop, h, hcovers.1]
  simp

theorem Matches.within {p : Pattern} {c d : Cursor} (h : Matches p c d) {cs : List Char}
    (hin : Within c cs) : Within d cs := by
  obtain ⟨taken, -, hcovers⟩ := h.covers
  exact (hin.covered hcovers).1

/-- What a group captures on a match is a text of its body. -/
theorem Matches.captures {p : Pattern} {c d : Cursor} (h : Matches p c d) {cs : List Char}
    (hin : Within c cs) {label : Nat} {span : Span} (hspan : (label, span) ∈ d.groups) :
    (label, span) ∈ c.groups ∨
      ∃ body, (label, body) ∈ p.groups ∧ slice span.start span.stop cs ∈ body.language := by
  induction h with
  | empty => exact Or.inl hspan
  | one step =>
      obtain ⟨x, -, -, hgroups⟩ := covers_of_step? step
      exact Or.inl (hgroups ▸ hspan)
  | seq before _ ih₁ ih₂ =>
      rcases ih₂ (before.within hin) hspan with hspan | ⟨body, hbody, htext⟩
      · rcases ih₁ hin hspan with hspan | ⟨body, hbody, htext⟩
        · exact Or.inl hspan
        · exact Or.inr ⟨body, List.mem_append_left _ hbody, htext⟩
      · exact Or.inr ⟨body, List.mem_append_right _ hbody, htext⟩
  | altFirst _ ih =>
      rcases ih hin hspan with hspan | ⟨body, hbody, htext⟩
      · exact Or.inl hspan
      · exact Or.inr ⟨body, List.mem_append_left _ hbody, htext⟩
  | altSecond _ ih =>
      rcases ih hin hspan with hspan | ⟨body, hbody, htext⟩
      · exact Or.inl hspan
      · exact Or.inr ⟨body, List.mem_append_right _ hbody, htext⟩
  | manyNone => exact Or.inl hspan
  | manyMore round _ ih₁ ih₂ =>
      rcases ih₂ (round.within hin) hspan with hspan | hcaptured
      · exact ih₁ hin hspan
      · exact Or.inr hcaptured
  | group inner ih =>
      rcases List.mem_cons.mp hspan with heq | hspan
      · obtain ⟨rfl, rfl⟩ := Prod.mk.inj heq
        obtain ⟨taken, htaken, hcovers⟩ := inner.covers
        refine Or.inr ⟨_, List.mem_cons_self, ?_⟩
        rw [(hin.covered hcovers).2]
        exact htaken
      · rcases ih hin hspan with hspan | ⟨body, hbody, htext⟩
        · exact Or.inl hspan
        · exact Or.inr ⟨body, List.mem_cons_of_mem _ hbody, htext⟩
  | textStart _ => exact Or.inl hspan
  | lineEnd _ => exact Or.inl hspan
  | wordEdge _ => exact Or.inl hspan

/-! ## What is found -/

theorem exists_of_matchAt {p : Pattern} {c : Cursor} {m : Match} (h : p.matchAt c = some m) :
    ∃ d, Matches p c d ∧ m.groups = d.groups := by
  obtain ⟨d, hd, rfl⟩ := Option.map_eq_some_iff.mp h
  exact ⟨d, matches_of_mem_run (List.mem_of_head? hd), rfl⟩

/-- A match that a search finds begins somewhere in the text, with nothing captured. -/
theorem exists_of_firstFrom {p : Pattern} {offset : Nat} {before : Option Char}
    {rest : List Char} {m : Match} (h : p.firstFrom offset before rest = some m) {cs : List Char}
    (hrest : cs.drop offset = rest) :
    ∃ c d, Within c cs ∧ c.groups = [] ∧ Matches p c d ∧ m.groups = d.groups := by
  induction rest generalizing offset before with
  | nil =>
      obtain ⟨d, hd, hgroups⟩ := exists_of_matchAt h
      exact ⟨⟨offset, before, [], []⟩, d, hrest, rfl, hd, hgroups⟩
  | cons x rest ih =>
      unfold firstFrom at h
      split at h
      · rename_i found hfound
        cases h
        obtain ⟨d, hd, hgroups⟩ := exists_of_matchAt hfound
        exact ⟨⟨offset, before, x :: rest, []⟩, d, hrest, rfl, hd, hgroups⟩
      · refine ih h ?_
        rw [← List.drop_drop, hrest]
        rfl

/-- What a match captures in a group is a text of the body of such a group. -/
theorem Matches.text?_mem_language {p : Pattern} {c d : Cursor} (h : Matches p c d)
    {cs text : List Char} (hin : Within c cs) (hnone : c.groups = []) {m : Match}
    (hgroups : m.groups = d.groups) {label : Nat} (htext : m.text? label cs = some text) :
    ∃ body, (label, body) ∈ p.groups ∧ text ∈ body.language := by
  obtain ⟨span, hspan, rfl⟩ := Option.map_eq_some_iff.mp htext
  have hmem : (label, span) ∈ d.groups := by
    obtain ⟨before, after, hsplit, -⟩ := List.lookup_eq_some_iff.mp hspan
    rw [← hgroups, hsplit]
    exact List.mem_append_right before List.mem_cons_self
  rcases h.captures hin hmem with hbefore | hcaptured
  · rw [hnone] at hbefore
    cases hbefore
  · exact hcaptured

theorem text?_mem_language {p : Pattern} {cs text : List Char} {m : Match} {label : Nat}
    (hfind : p.find cs = some m) (htext : m.text? label cs = some text) :
    ∃ body, (label, body) ∈ p.groups ∧ text ∈ body.language := by
  obtain ⟨c, d, hin, hnone, hmatches, hgroups⟩ := exists_of_firstFrom hfind (rfl : cs.drop 0 = cs)
  exact hmatches.text?_mem_language hin hnone hgroups htext

/-! ## Languages of the smaller patterns -/

theorem mem_language_one {accepts : Char → Bool} {cs : List Char} :
    cs ∈ (one accepts).language ↔ ∃ c, accepts c = true ∧ cs = [c] :=
  Iff.rfl

theorem mem_language_seq {first second : Pattern} {cs : List Char} :
    cs ∈ (seq first second).language ↔
      ∃ before ∈ first.language, ∃ after ∈ second.language, before ++ after = cs :=
  Language.mem_mul

theorem mem_language_alt {first second : Pattern} {cs : List Char} :
    cs ∈ (alt first second).language ↔ cs ∈ first.language ∨ cs ∈ second.language :=
  Iff.rfl

theorem mem_language_opt {p : Pattern} {cs : List Char} :
    cs ∈ (opt p).language ↔ cs ∈ p.language ∨ cs = [] :=
  Iff.rfl

theorem mem_language_many {greedy : Bool} {body : Pattern} {cs : List Char} :
    cs ∈ (many greedy body).language ↔
      ∃ parts : List (List Char), cs = parts.flatten ∧ ∀ part ∈ parts, part ∈ body.language :=
  Language.mem_kstar

theorem mem_language_all_cons {p : Pattern} {ps : List Pattern} {cs : List Char} :
    cs ∈ (all (p :: ps)).language ↔
      ∃ before ∈ p.language, ∃ after ∈ (all ps).language, before ++ after = cs :=
  Language.mem_mul

/-- Repeated characters of a class. -/
theorem mem_language_many_one {greedy : Bool} {accepts : Char → Bool} {cs : List Char} :
    cs ∈ (many greedy (one accepts)).language ↔ ∀ c ∈ cs, accepts c = true := by
  rw [mem_language_many]
  constructor
  · rintro ⟨parts, rfl, hparts⟩ c hc
    obtain ⟨part, hpart, hc⟩ := List.mem_flatten.mp hc
    obtain ⟨d, hd, rfl⟩ := hparts part hpart
    rw [List.mem_singleton.mp hc]
    exact hd
  · intro h
    refine ⟨cs.map ([·]), (List.flatMap_singleton' cs).symm, fun part hpart => ?_⟩
    obtain ⟨c, hc, rfl⟩ := List.mem_map.mp hpart
    exact ⟨c, h c hc, rfl⟩

theorem mem_language_many1_one {accepts : Char → Bool} {cs : List Char} :
    cs ∈ (many1 (one accepts)).language ↔ cs ≠ [] ∧ ∀ c ∈ cs, accepts c = true := by
  unfold many1
  simp only [mem_language_seq, mem_language_one, mem_language_many_one]
  constructor
  · rintro ⟨_, ⟨c, hc, rfl⟩, rest, hrest, rfl⟩
    exact ⟨List.cons_ne_nil c rest, List.forall_mem_cons.mpr ⟨hc, hrest⟩⟩
  · rintro ⟨hne, hall⟩
    obtain ⟨c, rest, rfl⟩ := List.exists_cons_of_ne_nil hne
    obtain ⟨hc, hrest⟩ := List.forall_mem_cons.mp hall
    exact ⟨[c], ⟨c, hc, rfl⟩, rest, hrest, rfl⟩

end Pattern

end Spellwork.Text
