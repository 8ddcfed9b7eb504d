import Mathlib.Data.List.TakeWhile
import Spellwork.Proofs.Drafts
import Spellwork.Proofs.Escapes
import Spellwork.Proofs.Searches
import Spellwork.Proofs.SuggestedOutcomes

/-!
# Conditions found in prose

What a text says about conditions (`Recognised`) is told family by family: names in brackets,
wherever they stand (`InBrackets`), and what the scans for "on hit:" and "target is" come upon
(`BehindOn`, `BehindTarget`). Of everything that is recognised, `conditionsOf` keeps the first find
for each condition and outcome, in the order of the text (`conditionsOf_recognised`). Two finds
never start at one place (`Recognised.eq_of_start`), so there is no doubt which one is the first.
-/

namespace Spellwork.Prose

open Text Pattern

/-! ## What a text says -/

/-- A phrase names a known condition, by its name or by another word for it. -/
def NamesCondition (name : List Char) (condition : String) : Prop :=
  (condition ∈ conditions ∧ condition = key name) ∨ (key name, condition) ∈ conditionAliases

/-- The texts before and behind a condition tell its outcome and its way out. -/
structure ToldBy (before after : List Char) (c : ConditionClause) : Prop where
  outcome : ∃ clause, IsLastClause before clause ∧ Suggests clause c.outcome
  escape : ∀ e, c.escape = some e ↔ Offers after e

/-- A name between double brackets, of which something is left when it is folded: a known condition,
or one of this name. -/
def InBrackets (cs : List Char) (f : Found) : Prop :=
  ∃ before name after, cs = before ++ '[' :: '[' :: (name ++ ']' :: ']' :: after) ∧
    name ≠ [] ∧ (∀ c ∈ name, c ≠ '[' ∧ c ≠ ']') ∧ normalize name ≠ [] ∧ f.1 = before.length ∧
    (NamesCondition name f.2.condition ∨
      (¬ ∃ known, NamesCondition name known) ∧ f.2.condition = key name) ∧
    ToldBy before after f.2

/-- A known condition behind "on" and an outcome. -/
def BehindOn (cs : List Char) (f : Found) : Prop :=
  ∃ m name words, onPattern.Scanned cs m ∧ m.group? nameGroup = some name ∧
    m.text? whenGroup cs = some words ∧ f.1 = m.span.start ∧
    NamesCondition (slice name.start name.stop cs) f.2.condition ∧
    NamesOutcome words f.2.outcome ∧ ∀ e, f.2.escape = some e ↔ Offers (cs.drop name.stop) e

/-- A known condition behind "target is". -/
def BehindTarget (cs : List Char) (f : Found) : Prop :=
  ∃ m name, targetPattern.Scanned cs m ∧ m.text? nameGroup cs = some name ∧
    f.1 = m.span.start ∧ NamesCondition name f.2.condition ∧
    ToldBy (cs.take m.span.start) (cs.drop m.span.stop) f.2

/-- A condition that a text speaks of, with the place where it does. -/
def Recognised (cs : List Char) (f : Found) : Prop :=
  InBrackets cs f ∨ BehindOn cs f ∨ BehindTarget cs f

/-- The same condition under the same outcome. -/
def SameKey (c d : ConditionClause) : Prop :=
  c.condition = d.condition ∧ c.outcome = d.outcome

/-! ## What is told -/

theorem escape_eq_iff {x : Option Escape} {after : List Char} :
    (∀ e, x = some e ↔ Offers after e) ↔ x = escape? after := by
  simp only [← escape?_eq_some_iff]
  exact ⟨Option.ext, fun h e => by rw [h]⟩

theorem toldBy_iff {before after : List Char} {c : ConditionClause} :
    ToldBy before after c ↔ c.outcome = outcomeAfter before ∧ c.escape = escape? after := by
  constructor
  · rintro ⟨⟨clause, hclause, hsuggests⟩, hescape⟩
    exact ⟨((outcomeAfter_eq_iff hclause).mpr hsuggests).symm, escape_eq_iff.mp hescape⟩
  · rintro ⟨houtcome, hescape⟩
    obtain ⟨clause, hclause⟩ := exists_isLastClause before
    exact ⟨⟨clause, hclause, (outcomeAfter_eq_iff hclause).mp houtcome.symm⟩,
      escape_eq_iff.mpr hescape⟩

/-! ## Brackets -/

/-- What a match of the pattern for brackets looks like. -/
theorem matches_bracketPattern {past rest : List Char} {d : Cursor}
    (h : Matches bracketPattern (.between past rest) d) :
    ∃ name after, rest = '[' :: '[' :: (name ++ ']' :: ']' :: after) ∧ name ≠ [] ∧
      (∀ c ∈ name, c ≠ '[' ∧ c ≠ ']') ∧ d.offset = past.length + (name.length + 4) ∧
      d.groups = [(nameGroup, ⟨past.length + 2, past.length + 2 + name.length⟩)] := by
  simp only [bracketPattern, char, matches_all_cons_iff, matches_all_nil_iff, matches_one_iff,
    matches_group_iff] at h
  obtain ⟨_, ⟨_, _, h₁, hopen₁, rfl⟩, _, ⟨_, _, h₂, hopen₂, rfl⟩, _, ⟨e, hname, rfl⟩, _,
    ⟨_, _, h₃, hclose₁, rfl⟩, _, ⟨_, after, h₄, hclose₂, rfl⟩, rfl⟩ := h
  obtain ⟨name, htext, hcovers⟩ := hname.covers
  obtain ⟨hne, hall⟩ := mem_language_many1_one.mp htext
  have hgroups := hname.groups_eq rfl
  simp only [decide_eq_true_eq] at hopen₁ hopen₂ hclose₁ hclose₂
  subst hopen₁ hopen₂ hclose₁ hclose₂
  dsimp only at h₁ h₂ h₃ h₄
  refine ⟨name, after, ?_, hne, fun c hc => by simpa using hall c hc, ?_, ?_⟩
  · rw [← h₄, ← h₃, ← hcovers.1, ← h₂]
    exact h₁
  · have := hcovers.2
    simp only [Cursor.between] at this ⊢
    omega
  · simp [hgroups, hcovers.2, Cursor.between]

/-- A name in brackets is matched wherever it stands. -/
theorem occursAt_bracketPattern (past : List Char) {name : List Char} (hne : name ≠ [])
    (hname : ∀ c ∈ name, c ≠ '[' ∧ c ≠ ']') (after : List Char) :
    bracketPattern.OccursAt past ('[' :: '[' :: (name ++ ']' :: ']' :: after)) := by
  have hopen : ['['] ∈ (char '[').language := ⟨'[', rfl, rfl⟩
  have hclose : [']'] ∈ (char ']').language := ⟨']', rfl, rfl⟩
  have hmany : name ∈ (group nameGroup (many1 (noneOf ['[', ']']))).language :=
    mem_language_many1_one.mpr ⟨hne, fun c hc => by simpa using hname c hc⟩
  have htext : '[' :: '[' :: (name ++ [']', ']']) ∈ bracketPattern.language := by
    simp only [bracketPattern, mem_language_all_cons]
    exact ⟨_, hopen, _, ⟨_, hopen, _, ⟨_, hmany, _, ⟨_, hclose, _, ⟨_, hclose, [], rfl, rfl⟩, rfl⟩,
      rfl⟩, rfl⟩, rfl⟩
  have hrest : (Cursor.between past ('[' :: '[' :: (name ++ ']' :: ']' :: after))).rest =
      '[' :: '[' :: (name ++ [']', ']']) ++ after := by simp [Cursor.between]
  obtain ⟨d, hd, -⟩ := exists_matches_of_mem_language rfl htext hrest
  exact ⟨d, hd⟩

/-- A text without brackets ends where the first bracket stands. -/
theorem brackets_inj {name name' after after' : List Char}
    (hname : ∀ c ∈ name, c ≠ '[' ∧ c ≠ ']') (hname' : ∀ c ∈ name', c ≠ '[' ∧ c ≠ ']')
    (h : name ++ ']' :: after = name' ++ ']' :: after') : name = name' ∧ after = after' := by
  have htake : ∀ {cs : List Char} (ds : List Char), (∀ c ∈ cs, c ≠ '[' ∧ c ≠ ']') →
      (cs ++ ']' :: ds).takeWhile (· ≠ ']') = cs := by
    intro cs ds hcs
    rw [List.takeWhile_append_of_pos fun c hc => by simpa using (hcs c hc).2]
    simp
  have hsame : name = name' := by rw [← htake after hname, h, htake after' hname']
  subst hsame
  exact ⟨rfl, (List.cons.inj (List.append_cancel_left h)).2⟩

/-- Two brackets do not open within a name in brackets. -/
theorem not_brackets_within {name inner after rest : List Char} (hne : name ≠ [])
    (hname : ∀ c ∈ name, c ≠ '[' ∧ c ≠ ']') (hinner : inner ≠ [])
    (hlength : inner.length < name.length + 4)
    (h : '[' :: '[' :: (name ++ ']' :: ']' :: after) = inner ++ '[' :: '[' :: rest) : False := by
  obtain ⟨first, name', rfl⟩ := List.exists_cons_of_ne_nil hne
  cases inner with
  | nil => exact hinner rfl
  | cons x inner =>
      obtain ⟨-, h⟩ := List.cons.inj h
      cases inner with
      | nil => exact (hname first List.mem_cons_self).1 (List.cons.inj (List.cons.inj h).2).1
      | cons y inner =>
          obtain ⟨-, h⟩ := List.cons.inj h
          -- the bracket stands before the end of the match, where there is none
          have hprefix : inner ++ ['['] <+: (first :: name') ++ [']', ']'] := by
            have hopen : inner ++ ['['] <+: (first :: name') ++ ']' :: ']' :: after :=
              ⟨'[' :: rest, by simp [h]⟩
            refine List.prefix_of_prefix_length_le hopen ⟨after, by simp⟩ ?_
            simp only [List.length_append, List.length_cons, List.length_nil] at hlength ⊢
            omega
          have hmem : '[' ∈ (first :: name') ++ [']', ']'] :=
            hprefix.subset (List.mem_append_right inner List.mem_cons_self)
          rcases List.mem_append.mp hmem with hmem | hmem
          · exact (hname '[' hmem).1 rfl
          · simp at hmem

/-! ## Names of conditions -/

theorem condition?_eq_some_iff {cs : List Char} {condition : String} :
    condition? cs = some condition ↔ NamesCondition cs condition := by
  have hapart : ∀ entry ∈ conditionAliases, entry.1 ∉ conditions ∧
      conditionAliases.lookup entry.1 = some entry.2 := by
    decide
  unfold condition?
  split
  · rename_i known hfind
    have hmem := List.mem_of_find?_eq_some hfind
    have hkey := List.find?_some hfind
    obtain rfl : known = key cs := of_decide_eq_true hkey
    constructor
    · intro h
      cases h
      exact Or.inl ⟨hmem, rfl⟩
    · rintro (⟨-, rfl⟩ | halias)
      · rfl
      · exact absurd hmem (hapart _ halias).1
  · rename_i hfind
    constructor
    · intro h
      obtain ⟨before, after, hsplit, -⟩ := List.lookup_eq_some_iff.mp h
      exact Or.inr (hsplit ▸ List.mem_append_right before List.mem_cons_self)
    · rintro (⟨hmem, rfl⟩ | halias)
      · exact absurd (decide_eq_true rfl) (List.find?_eq_none.mp hfind _ hmem)
      · exact (hapart _ halias).2

theorem NamesCondition.mem {cs : List Char} {condition : String}
    (h : NamesCondition cs condition) : condition ∈ conditions := by
  have hnamed : ∀ entry ∈ conditionAliases, entry.2 ∈ conditions := by decide
  rcases h with ⟨hmem, -⟩ | halias
  · exact hmem
  · exact hnamed _ halias

theorem conditionId_eq_iff {cs : List Char} {condition : String} :
    condition = conditionId cs ↔ NamesCondition cs condition ∨
      (¬ ∃ known, NamesCondition cs known) ∧ condition = key cs := by
  simp only [← condition?_eq_some_iff, conditionId]
  cases condition? cs with
  | none => simp
  | some known => simp [eq_comm]

theorem ne_empty_of_namesCondition {cs : List Char} {condition : String}
    (h : NamesCondition cs condition) : condition ≠ "" := by
  have hall : ∀ c ∈ conditions, c ≠ "" := by decide
  exact hall _ h.mem

theorem key_eq_empty_iff {cs : List Char} : key cs = "" ↔ normalize cs = [] := by
  unfold key
  rw [← String.toList_inj, String.toList_ofList]
  rfl

/-- Only a phrase of which nothing is left has an empty name. -/
theorem conditionId_eq_empty_iff {cs : List Char} : conditionId cs = "" ↔ normalize cs = [] := by
  rw [← key_eq_empty_iff]
  unfold conditionId
  cases hknown : condition? cs with
  | none => exact Iff.rfl
  | some condition =>
      refine iff_of_false (ne_empty_of_namesCondition (condition?_eq_some_iff.mp hknown))
        fun hempty => ?_
      have hnone : conditions.find? (fun c => c = "") = none ∧
          conditionAliases.lookup "" = none := by
        decide
      unfold condition? at hknown
      rw [hempty, hnone.1, hnone.2] at hknown
      cases hknown

/-! ## What the scans find -/

/-- What is made of a match that covers a name in brackets. -/
theorem ofBracket?_eq_some_iff {past name after : List Char} {m : Match} {f : Found}
    (hstart : m.span.start = past.length) (hstop : m.span.stop = past.length + (name.length + 4))
    (hgroup : m.group? nameGroup = some ⟨past.length + 2, past.length + 2 + name.length⟩) :
    ofBracket? (past ++ '[' :: '[' :: (name ++ ']' :: ']' :: after)) m = some f ↔
      normalize name ≠ [] ∧
        f = (past.length, ⟨conditionId name, outcomeAfter past, escape? after⟩) := by
  have hname : m.text? nameGroup (past ++ '[' :: '[' :: (name ++ ']' :: ']' :: after)) =
      some name := by
    rw [Match.text?, hgroup, Option.map_some, slice, ← List.drop_drop, List.drop_left]
    simp
  have hafter : (past ++ '[' :: '[' :: (name ++ ']' :: ']' :: after)).drop m.span.stop = after := by
    rw [hstop, ← List.drop_drop, List.drop_left]
    simp
  unfold ofBracket?
  rw [hname, hafter, hstart, List.take_left]
  simp only [Option.bind_eq_bind, Option.bind_some]
  by_cases hempty : normalize name = []
  · rw [if_pos (by rw [conditionId_eq_empty_iff.mpr hempty]; rfl)]
    exact iff_of_false (fun h => Option.some_ne_none f h.symm) fun h => h.1 hempty
  · have hne : ¬ (conditionId name).isEmpty = true := by
      rw [String.isEmpty_iff, conditionId_eq_empty_iff]
      exact hempty
    rw [if_neg hne, Option.some.injEq]
    exact ⟨fun h => ⟨hempty, h.symm⟩, fun h => h.2.symm⟩

theorem bracket_of_matchAt {past rest : List Char} {m : Match}
    (h : bracketPattern.matchAt (.between past rest) = some m) :
    ∃ name after, rest = '[' :: '[' :: (name ++ ']' :: ']' :: after) ∧ name ≠ [] ∧
      (∀ c ∈ name, c ≠ '[' ∧ c ≠ ']') ∧ m.span = ⟨past.length, past.length + (name.length + 4)⟩ ∧
      m.group? nameGroup = some ⟨past.length + 2, past.length + 2 + name.length⟩ := by
  obtain ⟨d, hd, rfl⟩ := Option.map_eq_some_iff.mp h
  obtain ⟨name, after, hrest, hne, hname, hoffset, hgroups⟩ :=
    matches_bracketPattern (matches_of_mem_run (List.mem_of_head? hd))
  refine ⟨name, after, hrest, hne, hname, ?_, ?_⟩
  · rw [hoffset]
    rfl
  · rw [Match.group?, hgroups]
    rfl

theorem inBrackets_iff {cs : List Char} {f : Found} :
    InBrackets cs f ↔
      ∃ before name after, cs = before ++ '[' :: '[' :: (name ++ ']' :: ']' :: after) ∧
        name ≠ [] ∧ (∀ c ∈ name, c ≠ '[' ∧ c ≠ ']') ∧ normalize name ≠ [] ∧
        f = (before.length, ⟨conditionId name, outcomeAfter before, escape? after⟩) := by
  obtain ⟨start, condition, outcome, escape⟩ := f
  simp only [InBrackets, ← conditionId_eq_iff, toldBy_iff, Prod.mk.injEq, ConditionClause.mk.injEq]

/-- The scan for brackets finds the names in brackets. -/
theorem mem_brackets_iff {cs : List Char} {f : Found} :
    f ∈ (bracketPattern.findAll cs).filterMap (ofBracket? cs) ↔ InBrackets cs f := by
  have hscan := bracketPattern.scan_findAll cs
  rw [List.mem_filterMap]
  constructor
  · rintro ⟨m, hm, hf⟩
    obtain ⟨past, rest, rfl, hmatch⟩ := hscan.preferred m hm
    obtain ⟨name, after, rfl, hne, hname, hspan, hgroup⟩ := bracket_of_matchAt hmatch
    rw [ofBracket?_eq_some_iff (by rw [hspan]) (by rw [hspan]) hgroup] at hf
    exact inBrackets_iff.mpr ⟨past, name, after, rfl, hne, hname, hf.1, hf.2⟩
  · intro hf
    obtain ⟨past, name, after, rfl, hne, hname, hleft, rfl⟩ := inBrackets_iff.mp hf
    have hoccurs := occursAt_bracketPattern past hne hname after
    have hsome : (bracketPattern.matchAt (.between past
        ('[' :: '[' :: (name ++ ']' :: ']' :: after)))).isSome = true := by
      rw [← Option.ne_none_iff_isSome, ne_eq, matchAt_eq_none_iff rfl, not_not]
      exact hoccurs
    obtain ⟨m, hm, hat⟩ := hscan.complete past _ rfl hsome
    obtain ⟨past', rest', hsplit, hmatch⟩ := hscan.preferred m hm
    obtain ⟨name', after', rfl, hne', hname', hspan, hgroup⟩ := bracket_of_matchAt hmatch
    rw [hspan] at hat
    rcases hat with heq | ⟨hbefore, hcovers⟩
    · obtain ⟨rfl, hrest⟩ := List.append_inj hsplit heq.symm
      obtain ⟨rfl, hafter⟩ := brackets_inj hname hname' (List.cons.inj (List.cons.inj hrest).2).2
      obtain rfl := (List.cons.inj hafter).2
      refine ⟨m, hm, ?_⟩
      rw [ofBracket?_eq_some_iff (by rw [hspan]) (by rw [hspan]) hgroup]
      exact ⟨hleft, rfl⟩
    · -- a match that covered the place would have brackets within its name
      exfalso
      rcases List.append_eq_append_iff.mp hsplit with ⟨inner, rfl, -⟩ | ⟨inner, rfl, hinner⟩
      · simp at hbefore
      · refine not_brackets_within hne' hname' ?_ ?_ hinner
        · rintro rfl
          simp at hbefore
        · simp at hcovers
          omega

/-- The words that the scan for "on" takes for an outcome are words for one. -/
theorem mem_whenWords_of_scanned {cs words : List Char} {m : Match} (hm : onPattern.Scanned cs m)
    (hwords : m.text? whenGroup cs = some words) : words ∈ whenWords.language := by
  obtain ⟨body, hbody, hmem⟩ := hm.text?_mem_language hwords
  have hwhen : body = whenWords := by
    simpa [onPattern, groups, all, opt, any, text, gap, blanks, many1, letter, char, oneOf,
      whenWords, whenGroup, nameGroup] using hbody
  exact hwhen ▸ hmem

theorem mem_behindOn_iff {cs : List Char} {f : Found} :
    f ∈ (onPattern.findAll cs).filterMap (ofOn? cs) ↔ BehindOn cs f := by
  obtain ⟨start, condition, outcome, escape⟩ := f
  simp only [List.mem_filterMap, ofOn?, Option.bind_eq_bind, Option.bind_eq_some_iff,
    Option.some.injEq, ← scanned_iff, BehindOn, condition?_eq_some_iff, escape_eq_iff,
    Prod.mk.injEq, ConditionClause.mk.injEq]
  constructor
  · rintro ⟨m, hm, name, hname, _, hcondition, words, hwords, rfl, rfl, rfl, rfl⟩
    have hnamed := namesOutcome_outcomeOfWords (mem_whenWords_of_scanned hm hwords)
    exact ⟨m, name, words, hm, hname, hwords, rfl, hcondition, hnamed, rfl⟩
  · rintro ⟨m, name, words, hm, hname, hwords, rfl, hcondition, hnamed, rfl⟩
    have hwhen := mem_whenWords_of_scanned hm hwords
    exact ⟨m, hm, name, hname, condition, hcondition, words, hwords, rfl, rfl,
      (outcomeOfWords_eq_iff hwhen).mpr hnamed, rfl⟩

theorem mem_behindTarget_iff {cs : List Char} {f : Found} :
    f ∈ (targetPattern.findAll cs).filterMap (ofTarget? cs) ↔ BehindTarget cs f := by
  obtain ⟨start, condition, outcome, escape⟩ := f
  simp only [List.mem_filterMap, ofTarget?, Option.bind_eq_bind, Option.bind_eq_some_iff,
    Option.some.injEq, ← scanned_iff, BehindTarget, condition?_eq_some_iff, toldBy_iff,
    Prod.mk.injEq, ConditionClause.mk.injEq]
  constructor
  · rintro ⟨m, hm, _, ⟨name, hname, hcondition⟩, rfl, rfl, rfl, rfl⟩
    exact ⟨m, name, hm, hname, rfl, hcondition, rfl, rfl⟩
  · rintro ⟨m, name, hm, hname, rfl, hcondition, rfl, rfl⟩
    exact ⟨m, hm, condition, ⟨name, hname, hcondition⟩, rfl, rfl, rfl, rfl⟩

/-- The finds are what is recognised. -/
theorem mem_allFound_iff {cs : List Char} {f : Found} : f ∈ allFound cs ↔ Recognised cs f := by
  unfold allFound Recognised
  rw [List.mem_append, List.mem_append, mem_brackets_iff, mem_behindOn_iff, mem_behindTarget_iff]

/-! ## No two finds at one place -/

theorem head_of_inBrackets {cs : List Char} {f : Found} (h : InBrackets cs f) :
    cs[f.1]? = some '[' := by
  obtain ⟨before, name, after, rfl, -, -, -, hstart, -⟩ := h
  simp [hstart]

theorem begins_onPattern {x : Char} (h : onPattern.begins x = true) : foldLetter x = 'o' := by
  simpa [onPattern, all, begins, takesSome, text] using h

theorem begins_targetPattern {x : Char} (h : targetPattern.begins x = true) :
    foldLetter x = 't' := by
  simpa [targetPattern, all, begins, takesSome, text] using h

theorem head_of_behindOn {cs : List Char} {f : Found} (h : BehindOn cs f) :
    ∃ x, cs[f.1]? = some x ∧ foldLetter x = 'o' := by
  obtain ⟨m, -, -, hm, -, -, hstart, -⟩ := h
  obtain ⟨x, hx, hbegins⟩ := hm.head rfl
  exact ⟨x, hstart ▸ hx, begins_onPattern hbegins⟩

theorem head_of_behindTarget {cs : List Char} {f : Found} (h : BehindTarget cs f) :
    ∃ x, cs[f.1]? = some x ∧ foldLetter x = 't' := by
  obtain ⟨m, -, hm, -, hstart, -⟩ := h
  obtain ⟨x, hx, hbegins⟩ := hm.head rfl
  exact ⟨x, hstart ▸ hx, begins_targetPattern hbegins⟩

/-- The letter that a find of each family begins with, a bracket or the first letter of a word. -/
def opener (cs : List Char) (f : Found) : Option Char :=
  cs[f.1]?.map foldLetter

theorem InBrackets.opener {cs : List Char} {f : Found} (h : InBrackets cs f) :
    opener cs f = some '[' := by
  rw [Prose.opener, head_of_inBrackets h]
  rfl

theorem BehindOn.opener {cs : List Char} {f : Found} (h : BehindOn cs f) :
    opener cs f = some 'o' := by
  obtain ⟨x, hx, hfold⟩ := head_of_behindOn h
  rw [Prose.opener, hx, Option.map_some, hfold]

theorem BehindTarget.opener {cs : List Char} {f : Found} (h : BehindTarget cs f) :
    opener cs f = some 't' := by
  obtain ⟨x, hx, hfold⟩ := head_of_behindTarget h
  rw [Prose.opener, hx, Option.map_some, hfold]

theorem pairwise_filterMap_findAll {p : Pattern} {cs : List Char} {read : Match → Option Found}
    (hread : ∀ {m f}, read m = some f → f.1 = m.span.start) :
    ((p.findAll cs).filterMap read).Pairwise fun f g => f.1 ≠ g.1 := by
  rw [List.pairwise_filterMap]
  refine (p.scan_findAll cs).ascending.imp fun {m m'} hascending f hf g hg => ?_
  rw [hread hf, hread hg]
  exact Nat.ne_of_lt hascending.1

theorem fst_of_ofBracket? {cs : List Char} {m : Match} {f : Found}
    (h : ofBracket? cs m = some f) : f.1 = m.span.start := by
  simp only [ofBracket?, Option.bind_eq_bind, Option.bind_eq_some_iff] at h
  obtain ⟨name, -, h⟩ := h
  split at h
  · cases h
  · cases h
    rfl

theorem fst_of_ofOn? {cs : List Char} {m : Match} {f : Found} (h : ofOn? cs m = some f) :
    f.1 = m.span.start := by
  simp only [ofOn?, Option.bind_eq_bind, Option.bind_eq_some_iff, Option.some.injEq] at h
  obtain ⟨-, -, -, -, -, -, rfl⟩ := h
  rfl

theorem fst_of_ofTarget? {cs : List Char} {m : Match} {f : Found} (h : ofTarget? cs m = some f) :
    f.1 = m.span.start := by
  simp only [ofTarget?, Option.bind_eq_bind, Option.bind_eq_some_iff, Option.some.injEq] at h
  obtain ⟨-, -, rfl⟩ := h
  rfl

/-- Nothing is found twice. -/
theorem pairwise_allFound (cs : List Char) : (allFound cs).Pairwise fun f g => f.1 ≠ g.1 := by
  have hopener : ∀ {f g : Found}, opener cs f ≠ opener cs g → f.1 ≠ g.1 := by
    intro f g hne heq
    exact hne (by rw [opener, opener, heq])
  unfold allFound
  refine List.pairwise_append.mpr ⟨pairwise_filterMap_findAll fst_of_ofBracket?,
    List.pairwise_append.mpr ⟨pairwise_filterMap_findAll fst_of_ofOn?,
      pairwise_filterMap_findAll fst_of_ofTarget?, fun f hf g hg => hopener ?_⟩,
    fun f hf g hg => hopener ?_⟩
  · rw [(mem_behindOn_iff.mp hf).opener, (mem_behindTarget_iff.mp hg).opener]
    decide
  · rw [(mem_brackets_iff.mp hf).opener]
    rcases List.mem_append.mp hg with hg | hg
    · rw [(mem_behindOn_iff.mp hg).opener]
      decide
    · rw [(mem_behindTarget_iff.mp hg).opener]
      decide

/-- Two finds never start at one place. -/
theorem Recognised.eq_of_start {cs : List Char} {f g : Found} (hf : Recognised cs f)
    (hg : Recognised cs g) (h : f.1 = g.1) : f = g := by
  by_contra hne
  have hapart : (allFound cs).Pairwise fun f g => f.1 ≠ g.1 := pairwise_allFound cs
  have : Std.Symm fun f g : Found => f.1 ≠ g.1 := ⟨fun _ _ hne => hne.symm⟩
  exact hapart.forall (mem_allFound_iff.mpr hf) (mem_allFound_iff.mpr hg) hne h

/-! ## The order of the text -/

theorem placeFound_eq (f : Found) (l : List Found) :
    placeFound f l = insertBy (fun g f => decide (g.1 < f.1)) f l := by
  induction l with
  | nil => rfl
  | cons g l ih =>
      rw [placeFound, insertBy, ih]
      by_cases hle : f.1 ≤ g.1
      · rw [if_pos hle, if_neg (by simpa using hle)]
      · rw [if_neg hle, if_pos (by simpa using hle)]

/-- Everything that is found, in the order of the text. -/
def inOrder (cs : List Char) : List Found :=
  (allFound cs).foldr placeFound []

theorem inOrder_eq (cs : List Char) :
    inOrder cs = (allFound cs).foldr (insertBy fun g f => decide (g.1 < f.1)) [] := by
  unfold inOrder
  congr 1
  funext f l
  exact placeFound_eq f l

theorem inOrder_perm (cs : List Char) : (inOrder cs).Perm (allFound cs) := by
  rw [inOrder_eq]
  exact foldr_insertBy_perm _

theorem pairwise_inOrder (cs : List Char) : (inOrder cs).Pairwise fun f g => f.1 < g.1 := by
  have hle : (inOrder cs).Pairwise fun f g => f.1 ≤ g.1 := by
    rw [inOrder_eq]
    refine pairwise_foldr_insertBy (fun _ _ _ hle hle' => ?_) (fun f g h => ?_)
      (fun f g h => ?_) _
    · exact Nat.le_trans hle hle'
    · exact Nat.le_of_lt (of_decide_eq_true h)
    · exact Nat.not_lt.mp (of_decide_eq_false h)
  have hne : (inOrder cs).Pairwise fun f g => f.1 ≠ g.1 :=
    (inOrder_perm cs).symm.pairwise (pairwise_allFound cs) fun h => h.symm
  exact (hle.and hne).imp fun h => Nat.lt_of_le_of_ne h.1 h.2

/-! ## The first find for a condition and an outcome -/

/-- The finds that `firstOfEach` keeps. -/
def leaders : (kept : List ConditionClause) → List Found → List Found
  | _, [] => []
  | kept, f :: rest =>
    if kept.any fun k => k.condition = f.2.condition && k.outcome = f.2.outcome then
      leaders kept rest
    else f :: leaders (f.2 :: kept) rest

theorem map_leaders (kept : List ConditionClause) (l : List Found) :
    (leaders kept l).map Prod.snd = firstOfEach kept l := by
  induction l generalizing kept with
  | nil => rfl
  | cons f l ih =>
      rw [leaders, firstOfEach]
      split
      · exact ih kept
      · rw [List.map_cons, ih]

theorem any_sameKey_iff {kept : List ConditionClause} {c : ConditionClause} :
    (kept.any fun k => k.condition = c.condition && k.outcome = c.outcome) = true ↔
      ∃ k ∈ kept, SameKey k c := by
  simp [SameKey]

theorem leaders_sublist (kept : List ConditionClause) (l : List Found) :
    (leaders kept l).Sublist l := by
  induction l generalizing kept with
  | nil => exact List.Sublist.refl _
  | cons f l ih =>
      rw [leaders]
      split
      · exact (ih kept).cons f
      · exact (ih _).cons_cons f

/-- A find is kept if nothing before it has its condition and outcome. -/
theorem mem_leaders_iff {kept : List ConditionClause} {l : List Found}
    (hl : l.Pairwise fun f g => f.1 < g.1) {f : Found} :
    f ∈ leaders kept l ↔
      f ∈ l ∧ (∀ k ∈ kept, ¬ SameKey k f.2) ∧ ∀ g ∈ l, SameKey g.2 f.2 → f.1 ≤ g.1 := by
  induction l generalizing kept with
  | nil => simp [leaders]
  | cons g l ih =>
      obtain ⟨hg, hl⟩ := List.pairwise_cons.mp hl
      rw [leaders]
      split
      · rename_i hkept
        obtain ⟨k, hk, hsame⟩ := any_sameKey_iff.mp hkept
        rw [ih hl]
        constructor
        · rintro ⟨hf, hnone, hfirst⟩
          refine ⟨List.mem_cons_of_mem g hf, hnone,
            List.forall_mem_cons.mpr ⟨fun hsame' => ?_, hfirst⟩⟩
          exact absurd ⟨hsame.1.trans hsame'.1, hsame.2.trans hsame'.2⟩ (hnone k hk)
        · rintro ⟨hf, hnone, hfirst⟩
          rcases List.mem_cons.mp hf with rfl | hf
          · exact absurd hsame (hnone k hk)
          · exact ⟨hf, hnone, (List.forall_mem_cons.mp hfirst).2⟩
      · rename_i hkept
        have hnew : ∀ k ∈ kept, ¬ SameKey k g.2 := fun k hk hsame =>
          hkept (any_sameKey_iff.mpr ⟨k, hk, hsame⟩)
        rw [List.mem_cons, ih hl, List.mem_cons, List.forall_mem_cons, List.forall_mem_cons]
        constructor
        · rintro (rfl | ⟨hf, ⟨hother, hnone⟩, hfirst⟩)
          · exact ⟨Or.inl rfl, hnew, fun _ => Nat.le_refl _, fun h hh _ => Nat.le_of_lt (hg h hh)⟩
          · exact ⟨Or.inr hf, hnone, fun hsame => absurd hsame hother, hfirst⟩
        · rintro ⟨rfl | hf, hnone, hbefore, hfirst⟩
          · exact Or.inl rfl
          · refine Or.inr ⟨hf, ⟨fun hsame => ?_, hnone⟩, hfirst⟩
            exact absurd (hbefore hsame) (Nat.not_le.mpr (hg f hf))

theorem pairwise_firstOfEach (kept : List ConditionClause) (l : List Found) :
    (firstOfEach kept l).Pairwise (fun c d => ¬ SameKey c d) ∧
      ∀ c ∈ firstOfEach kept l, ∀ k ∈ kept, ¬ SameKey k c := by
  induction l generalizing kept with
  | nil => exact ⟨List.Pairwise.nil, List.forall_mem_nil _⟩
  | cons f l ih =>
      rw [firstOfEach]
      split
      · exact ih kept
      · rename_i hkept
        obtain ⟨hpairwise, hnone⟩ := ih (f.2 :: kept)
        refine ⟨List.pairwise_cons.mpr ⟨fun c hc => hnone c hc f.2 List.mem_cons_self, hpairwise⟩,
          List.forall_mem_cons.mpr ⟨fun k hk hsame => ?_, fun c hc k hk => ?_⟩⟩
        · exact hkept (any_sameKey_iff.mpr ⟨k, hk, hsame⟩)
        · exact hnone c hc k (List.mem_cons_of_mem _ hk)

/-- No condition is named twice for one outcome. -/
theorem pairwise_conditionsOf (cs : List Char) :
    (conditionsOf cs).Pairwise fun c d => ¬ SameKey c d :=
  (pairwise_firstOfEach [] _).1

theorem ne_empty_of_recognised {cs : List Char} {f : Found} (h : Recognised cs f) :
    f.2.condition ≠ "" := by
  rcases h with h | h | h
  · obtain ⟨_, name, _, _, _, _, hname, rfl⟩ := inBrackets_iff.mp h
    dsimp only
    rwa [ne_eq, conditionId_eq_empty_iff]
  · obtain ⟨_, _, _, _, _, _, _, hcondition, -⟩ := h
    exact ne_empty_of_namesCondition hcondition
  · obtain ⟨_, _, _, _, _, hcondition, -⟩ := h
    exact ne_empty_of_namesCondition hcondition

theorem outcome_eq_outcomeAfter {cs : List Char} {f : Found}
    (h : InBrackets cs f ∨ BehindTarget cs f) : f.2.outcome = outcomeAfter (cs.take f.1) := by
  rcases h with h | h
  · obtain ⟨before, name, after, rfl, -, -, -, hstart, -, htold⟩ := h
    rw [(toldBy_iff.mp htold).1, hstart, List.take_left]
  · obtain ⟨m, name, -, -, hstart, -, htold⟩ := h
    rw [(toldBy_iff.mp htold).1, hstart]

/-- The outcome of a bracket or of "target is" is told by the clause that leads up to it: in any
text, what stands behind the same clause has the same outcome. -/
theorem exists_clause_of_recognised {cs : List Char} {f : Found}
    (h : InBrackets cs f ∨ BehindTarget cs f) :
    ∃ clause, IsLastClause (cs.take f.1) clause ∧ Suggests clause f.2.outcome ∧
      ∀ cs' g, InBrackets cs' g ∨ BehindTarget cs' g → IsLastClause (cs'.take g.1) clause →
        g.2.outcome = f.2.outcome := by
  obtain ⟨clause, hclause⟩ := exists_isLastClause (cs.take f.1)
  have hsuggests := (outcomeAfter_eq_iff hclause).mp (outcome_eq_outcomeAfter h).symm
  refine ⟨clause, hclause, hsuggests, fun cs' g hg hclause' => ?_⟩
  rw [outcome_eq_outcomeAfter hg]
  exact (outcomeAfter_eq_iff hclause').mpr hsuggests

/-- Among the finds for one condition and outcome there is a first one. -/
theorem exists_first {cs : List Char} {f : Found} (hf : Recognised cs f) :
    ∃ g, Recognised cs g ∧ SameKey g.2 f.2 ∧
      ∀ h, Recognised cs h → SameKey h.2 g.2 → g.1 ≤ h.1 := by
  induction hn : f.1 using Nat.strongRecOn generalizing f with
  | ind n ih =>
      by_cases hearlier : ∃ g, Recognised cs g ∧ SameKey g.2 f.2 ∧ g.1 < f.1
      · obtain ⟨g, hg, hsame, hlt⟩ := hearlier
        obtain ⟨first, hfirst, hsame', hleast⟩ := ih g.1 (hn ▸ hlt) hg rfl
        exact ⟨first, hfirst, ⟨hsame'.1.trans hsame.1, hsame'.2.trans hsame.2⟩, hleast⟩
      · refine ⟨f, hf, ⟨rfl, rfl⟩, fun g hg hsame => ?_⟩
        exact Nat.not_lt.mp fun hlt => hearlier ⟨g, hg, hsame, hlt⟩

/-- The conditions of a text are the first finds for each condition and outcome, in the order of the
text. Every condition and outcome that is recognised is there once, none has an empty name, no match
is lost for want of a name, and the outcome of a bracket or of "target is" depends on the last
clause before it alone. -/
theorem conditionsOf_recognised (cs : List Char) :
    (∃ firsts : List Found, firsts.map Prod.snd = conditionsOf cs ∧
      firsts.Pairwise (fun f g => f.1 < g.1) ∧
      ∀ f, f ∈ firsts ↔
        Recognised cs f ∧ ∀ g, Recognised cs g → SameKey g.2 f.2 → f.1 ≤ g.1) ∧
    (conditionsOf cs).Pairwise (fun c d => ¬ SameKey c d) ∧
    (∀ f, Recognised cs f → ∃ c ∈ conditionsOf cs, SameKey c f.2) ∧
    (∀ c ∈ conditionsOf cs, c.condition ≠ "") ∧
    (∀ m, onPattern.Scanned cs m →
      (m.group? nameGroup).isSome = true ∧ (m.group? whenGroup).isSome = true) ∧
    (∀ m, targetPattern.Scanned cs m → (m.group? nameGroup).isSome = true) ∧
    ∀ f, InBrackets cs f ∨ BehindTarget cs f →
      ∃ clause, IsLastClause (cs.take f.1) clause ∧ Suggests clause f.2.outcome ∧
        ∀ cs' g, InBrackets cs' g ∨ BehindTarget cs' g → IsLastClause (cs'.take g.1) clause →
          g.2.outcome = f.2.outcome := by
  have hmem : ∀ f, f ∈ leaders [] (inOrder cs) ↔
      Recognised cs f ∧ ∀ g, Recognised cs g → SameKey g.2 f.2 → f.1 ≤ g.1 := by
    intro f
    have hrecognised : ∀ g, g ∈ inOrder cs ↔ Recognised cs g := fun g =>
      (inOrder_perm cs).mem_iff.trans mem_allFound_iff
    rw [mem_leaders_iff (pairwise_inOrder cs)]
    simp only [hrecognised, List.not_mem_nil, false_implies, implies_true, true_and]
  have hmap : (leaders [] (inOrder cs)).map Prod.snd = conditionsOf cs := map_leaders [] _
  refine ⟨⟨leaders [] (inOrder cs), hmap,
    (pairwise_inOrder cs).sublist (leaders_sublist [] _), hmem⟩, pairwise_conditionsOf cs,
    fun f hf => ?_, fun c hc => ?_, fun m hm => ?_, fun m hm => ?_,
    fun f => exists_clause_of_recognised⟩
  · obtain ⟨g, hg, hsame, hleast⟩ := exists_first hf
    refine ⟨g.2, ?_, hsame⟩
    rw [← hmap]
    exact List.mem_map_of_mem ((hmem g).mpr ⟨hg, hleast⟩)
  · rw [← hmap] at hc
    obtain ⟨f, hf, rfl⟩ := List.mem_map.mp hc
    exact ne_empty_of_recognised ((hmem f).mp hf).1
  · exact ⟨hm.isSome_group? (by decide), hm.isSome_group? (by decide)⟩
  · exact hm.isSome_group? (by decide)

/-- Of a condition that is named twice for one outcome the first find stays, with its way out. -/
theorem conditionsOf_recognised_grappled :
    ∃ firsts : List Found,
      firsts.map Prod.snd =
        [⟨"grappled", .hit, some ⟨12, some .strength⟩⟩, ⟨"prone", .failedSave, none⟩,
          ⟨"stunned", .failedSave, none⟩] ∧
      firsts.Pairwise (fun f g => f.1 < g.1) ∧
      ∀ f, f ∈ firsts ↔
        Recognised ("[[Grappled]] (escape DC 12 STR). On a failed save: prone. " ++
            "If it fails, the target is stunned. [[Grabbed]] (escape DC 9)").toList f ∧
          ∀ g, Recognised ("[[Grappled]] (escape DC 12 STR). On a failed save: prone. " ++
              "If it fails, the target is stunned. [[Grabbed]] (escape DC 9)").toList g →
            SameKey g.2 f.2 → f.1 ≤ g.1 := by
  obtain ⟨⟨firsts, hmap, hrest⟩, -⟩ := conditionsOf_recognised
    ("[[Grappled]] (escape DC 12 STR). On a failed save: prone. " ++
      "If it fails, the target is stunned. [[Grabbed]] (escape DC 9)").toList
  refine ⟨firsts, ?_, hrest⟩
  rw [hmap]
  decide +kernel

end Spellwork.Prose
