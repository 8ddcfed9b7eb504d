import Spellwork.Proofs.SaveOrders
import Spellwork.Prose.Condition

/-!
# Outcomes in prose

What the prose around a condition says about its outcome, told without the readers. The clause that
leads up to a condition is what stands behind the last mark (`IsLastClause`), and its words suggest
an outcome (`Suggests`, `outcomeAfter_eq_iff`). Behind "on" the outcome is named by the words
themselves, and by words of one outcome only (`NamesOutcome.unique`, `outcomeOfWords_eq_iff`).
-/

namespace Spellwork

open Text Pattern

namespace Text

/-- The search for a text finds it wherever it stands. -/
theorem contains_iff_isInfix {needle cs : List Char} :
    contains needle cs = true ↔ needle <:+: cs := by
  induction cs with
  | nil => rw [contains, List.isEmpty_iff, List.infix_nil]
  | cons c cs ih =>
      rw [contains, Bool.or_eq_true_iff, List.isPrefixOf_iff_prefix, ih, List.infix_cons_iff]

/-- A letter that neither the long s nor the kelvin sign stands for. -/
theorem foldLetter_eq_iff {x c : Char} (hc : 'a' ≤ c ∧ c ≤ 'z') (hs : c ≠ 's') (hk : c ≠ 'k') :
    foldLetter x = c ↔ x.toLower = c := by
  unfold foldLetter
  split
  · rename_i h
    subst h
    refine iff_of_false (fun h => hs h.symm) fun h => ?_
    subst h
    exact absurd hc.2 (by decide)
  · split
    · rename_i h
      subst h
      refine iff_of_false (fun h => hk h.symm) fun h => ?_
      subst h
      exact absurd hc.2 (by decide)
    · exact Iff.rfl

theorem map_toLower_eq_iff {cs letters : List Char}
    (h : ∀ c ∈ letters, ('a' ≤ c ∧ c ≤ 'z') ∧ c ≠ 's' ∧ c ≠ 'k') :
    cs.map Char.toLower = letters ↔ cs.map foldLetter = letters := by
  induction letters generalizing cs with
  | nil => simp
  | cons c letters ih =>
      obtain ⟨⟨hc, hs, hk⟩, hletters⟩ := List.forall_mem_cons.mp h
      cases cs with
      | nil => simp
      | cons x cs =>
          rw [List.map_cons, List.map_cons, List.cons.injEq, List.cons.injEq,
            foldLetter_eq_iff hc hs hk, ih hletters]

end Text

namespace Prose

/-! ## Clauses -/

/-- The text behind the last full stop, semicolon or line feed. -/
def IsLastClause (cs clause : List Char) : Prop :=
  (∀ c ∈ clause, c ∉ ['.', ';', '\n']) ∧
    (cs = clause ∨ ∃ past, ∃ mark ∈ ['.', ';', '\n'], cs = past ++ mark :: clause)

theorem lastClause_of_isLastClause {cs clause : List Char} (h : IsLastClause cs clause) :
    lastClause cs = clause := by
  have hall : ∀ c ∈ clause.reverse, (c ≠ '.' && c ≠ ';' && c ≠ '\n') = true := by
    intro c hc
    have hnone := h.1 c (List.mem_reverse.mp hc)
    simp only [List.mem_cons, List.not_mem_nil, or_false, not_or] at hnone
    simp [hnone]
  unfold lastClause
  rcases h.2 with rfl | ⟨past, mark, hmark, rfl⟩
  · rw [List.takeWhile_eq_self_iff.mpr hall, List.reverse_reverse]
  · have hstop : (mark ≠ '.' && mark ≠ ';' && mark ≠ '\n') = false := by
      simp only [List.mem_cons, List.not_mem_nil, or_false] at hmark
      rcases hmark with rfl | rfl | rfl <;> rfl
    rw [List.reverse_append, List.reverse_cons, List.append_assoc,
      List.takeWhile_append_of_pos hall, List.singleton_append,
      List.takeWhile_cons_of_neg (by rw [hstop]; exact Bool.false_ne_true), List.append_nil,
      List.reverse_reverse]

theorem exists_isLastClause (cs : List Char) : ∃ clause, IsLastClause cs clause := by
  induction cs with
  | nil =>
      have hnone : ∀ c ∈ ([] : List Char), c ∉ ['.', ';', '\n'] := List.forall_mem_nil _
      exact ⟨[], hnone, Or.inl rfl⟩
  | cons c cs ih =>
      obtain ⟨clause, hnone, rfl | ⟨past, mark, hmark, rfl⟩⟩ := ih
      · by_cases hc : c ∈ ['.', ';', '\n']
        · exact ⟨cs, hnone, Or.inr ⟨[], c, hc, rfl⟩⟩
        · exact ⟨c :: cs, List.forall_mem_cons.mpr ⟨hc, hnone⟩, Or.inl rfl⟩
      · exact ⟨clause, hnone, Or.inr ⟨c :: past, mark, hmark, rfl⟩⟩

/-! ## Outcomes -/

/-- A word stands somewhere in a clause, whatever its case. -/
def Mentions (clause : List Char) (words : String) : Prop :=
  words.toList <:+: lowercase clause

/-- The words of a failed saving throw. -/
def failureWords : List String :=
  ["failed save", "fails", "save or"]

/-- The outcome that a clause suggests: a critical hit before a failed save, and a hit if it
mentions neither. -/
def Suggests (clause : List Char) : Outcome → Prop
  | .criticalHit => Mentions clause "crit"
  | .failedSave => ¬ Mentions clause "crit" ∧ ∃ words ∈ failureWords, Mentions clause words
  | .hit => ¬ Mentions clause "crit" ∧ ¬ ∃ words ∈ failureWords, Mentions clause words
  | _ => False

theorem outcomeAfter_eq_iff {cs clause : List Char} (h : IsLastClause cs clause) {o : Outcome} :
    outcomeAfter cs = o ↔ Suggests clause o := by
  have hmentions {words : String} :
      contains words.toList (lowercase (lastClause cs)) = true ↔ Mentions clause words := by
    rw [contains_iff_isInfix, lastClause_of_isLastClause h, Mentions]
  have hfailure : (contains "failed save".toList (lowercase (lastClause cs)) ||
      contains "fails".toList (lowercase (lastClause cs)) ||
      contains "save or".toList (lowercase (lastClause cs))) = true ↔
        ∃ words ∈ failureWords, Mentions clause words := by
    simp only [Bool.or_eq_true, hmentions, or_assoc]
    simp [failureWords]
  unfold outcomeAfter
  dsimp only
  split
  · rename_i hcrit
    cases o <;> simp [Suggests, hmentions.mp hcrit]
  · rename_i hcrit
    split
    · rename_i hfailed
      cases o <;> simp [Suggests, mt hmentions.mpr hcrit, hfailure.mp hfailed]
    · rename_i hfailed
      cases o <;> simp [Suggests, mt hmentions.mpr hcrit, mt hfailure.mpr hfailed]

/-- The outcome that the words behind "on" name: the hit, a word that begins with "crit", or words
that end in "save". -/
def NamesOutcome (words : List Char) : Outcome → Prop
  | .hit => Spells "hit" words
  | .criticalHit => ∃ crit rest, words = crit ++ rest ∧ Spells "crit" crit
  | .failedSave => ∃ before save, words = before ++ save ∧ Spells "save" save
  | _ => False

theorem exists_namesOutcome {words : List Char} (h : words ∈ whenWords.language) :
    NamesOutcome words .hit ∨ NamesOutcome words .criticalHit ∨ NamesOutcome words .failedSave := by
  simp only [whenWords, any, mem_language_alt, mem_language_seq, mem_language_all_cons] at h
  rcases h with hhit | ⟨crit, hcrit, rest, -, rfl⟩ | ⟨article, -, _, ⟨failed, -, _, ⟨blank, -, _,
    ⟨save, hsave, _, rfl, rfl⟩, rfl⟩, rfl⟩, rfl⟩ | hsave
  · exact Or.inl (mem_language_text.mp hhit)
  · exact Or.inr (Or.inl ⟨crit, rest, rfl, mem_language_text.mp hcrit⟩)
  · exact Or.inr (Or.inr ⟨article ++ (failed ++ blank), save, by simp, mem_language_text.mp hsave⟩)
  · exact Or.inr (Or.inr ⟨[], words, rfl, mem_language_text.mp hsave⟩)

/-- No words for an outcome are written with both a c and an e. -/
theorem not_both_of_whenWords {words : List Char} (h : words ∈ whenWords.language) :
    'c' ∉ words.map foldLetter ∨ 'e' ∉ words.map foldLetter := by
  have habsent {p : Pattern} (hp : words ∈ p.language) {c : Char}
      (hnone : ∀ x, foldLetter x = c → p.takes x = false) : c ∉ words.map foldLetter := by
    intro hc
    obtain ⟨x, hx, hfold⟩ := List.mem_map.mp hc
    exact Bool.false_ne_true ((hnone x hfold).symm.trans (takes_of_mem_language hp x hx))
  have hblank {x c : Char} (hc : 'a' ≤ c ∧ c ≤ 'z') (hx : foldLetter x = c) : isBlank x = false :=
    isBlank_of_isLetter (isLetter_of_foldLetter hx hc)
  obtain ⟨p, hp, hwords⟩ := mem_language_any.mp h
  simp only [List.mem_cons, List.not_mem_nil, or_false] at hp
  rcases hp with rfl | rfl | rfl | rfl
  · refine Or.inl (habsent hwords fun x hx => ?_)
    simp [text, all, takes, hx]
  · refine Or.inr (habsent hwords fun x hx => ?_)
    simp [text, all, opt, gap, many1, takes, hx, hblank (by decide) hx]
  · refine Or.inl (habsent hwords fun x hx => ?_)
    simp [text, all, opt, gap, many1, takes, hx, hblank (by decide) hx]
  · refine Or.inl (habsent hwords fun x hx => ?_)
    simp [text, all, takes, hx]

theorem NamesOutcome.letters {words : List Char} {o : Outcome} (h : NamesOutcome words o)
    (hwords : words ∈ whenWords.language) :
    ('c' ∈ words.map foldLetter ↔ o = .criticalHit) ∧
      ('e' ∈ words.map foldLetter ↔ o = .failedSave) := by
  have hone := not_both_of_whenWords hwords
  cases o with
  | hit =>
      rw [show words.map foldLetter = "hit".toList from h]
      simp
  | criticalHit =>
      obtain ⟨crit, rest, rfl, hcrit⟩ := h
      have hc : 'c' ∈ (crit ++ rest).map foldLetter := by
        rw [List.map_append, hcrit]
        simp
      exact ⟨iff_of_true hc rfl, iff_of_false (hone.resolve_left (not_not.mpr hc)) (by decide)⟩
  | failedSave =>
      obtain ⟨before, save, rfl, hsave⟩ := h
      have he : 'e' ∈ (before ++ save).map foldLetter := by
        rw [List.map_append, hsave]
        simp
      exact ⟨iff_of_false (hone.resolve_right (not_not.mpr he)) (by decide), iff_of_true he rfl⟩
  | _ => exact h.elim

/-- The words for one outcome are not those for another. -/
theorem NamesOutcome.unique {words : List Char} {o o' : Outcome}
    (hwords : words ∈ whenWords.language) (h : NamesOutcome words o) (h' : NamesOutcome words o') :
    o = o' := by
  have hletters := h.letters hwords
  have hletters' := h'.letters hwords
  cases o <;> cases o' <;> simp_all [NamesOutcome]

theorem namesOutcome_outcomeOfWords {words : List Char} (h : words ∈ whenWords.language) :
    NamesOutcome words (outcomeOfWords words) := by
  unfold outcomeOfWords
  dsimp only
  split
  · rename_i hhit
    exact (map_toLower_eq_iff (by simp)).mp hhit
  · rename_i hhit
    split
    · rename_i hcrit
      obtain ⟨rest, hcrit⟩ := List.isPrefixOf_iff_prefix.mp hcrit
      obtain ⟨crit, rest, rfl, hcrit, -⟩ := List.map_eq_append_iff.mp hcrit.symm
      exact ⟨crit, rest, rfl, (map_toLower_eq_iff (by simp)).mp hcrit⟩
    · rename_i hcrit
      rcases exists_namesOutcome h with hnamed | ⟨crit, rest, rfl, hnamed⟩ | hnamed
      · exact absurd ((map_toLower_eq_iff (by simp)).mpr hnamed) hhit
      · refine absurd (List.isPrefixOf_iff_prefix.mpr ?_) hcrit
        rw [List.map_append, (map_toLower_eq_iff (by simp)).mpr hnamed]
        exact List.prefix_append _ _
      · exact hnamed

theorem outcomeOfWords_eq_iff {words : List Char} (h : words ∈ whenWords.language) {o : Outcome} :
    outcomeOfWords words = o ↔ NamesOutcome words o :=
  ⟨fun heq => heq ▸ namesOutcome_outcomeOfWords h, (namesOutcome_outcomeOfWords h).unique h⟩

end Prose

end Spellwork
