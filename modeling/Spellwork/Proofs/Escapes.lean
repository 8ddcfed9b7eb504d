import Spellwork.Proofs.SaveClauses
import Spellwork.Prose.Condition

/-!
# Ways out in prose

A way out of a condition stands right behind its name: in parentheses the word "escape", the letters
DC, a number and perhaps an ability (`OpensEscape`). A text is taken apart so in one way at most
(`OpensEscape.unique`), and the way out that is read is the one that it begins with
(`escape?_eq_some_iff`). There is none if its number is too large or not written in the digits 0 to
9, while an ability that is written with a long s is passed over.
-/

namespace Spellwork.Prose

open Text Pattern

/-! ## Abilities -/

/-- The names that an ability goes by. -/
def abilityNames : Ability → List String
  | .will => [Ability.will.name, "wisdom"]
  | a => [a.name]

/-- How an ability is written: by one of its names or the first three letters of it. -/
def IsWritten (a : Ability) (word : List Char) : Prop :=
  ∃ name ∈ abilityNames a, word = name.toList ∨ word = name.toList.take 3

instance (a : Ability) (word : List Char) : Decidable (IsWritten a word) :=
  inferInstanceAs (Decidable (∃ name ∈ abilityNames a, _))

theorem mem_statWord_iff {stat : List Char} :
    stat ∈ statWord.language ↔ ∃ a, IsWritten a (stat.map foldLetter) := by
  have hwritten : ∀ w ∈ abilityWords, ∃ a ∈ Ability.all, IsWritten a w.toList := by
    decide
  have hwords : ∀ a ∈ Ability.all, ∀ name ∈ abilityNames a, name ∈ abilityWords ∧
      String.ofList (name.toList.take 3) ∈ abilityWords := by
    decide
  have hall : ∀ a : Ability, a ∈ Ability.all := by
    intro a
    cases a <;> decide
  constructor
  · intro h
    obtain ⟨w, hw, hstat⟩ := exists_word_of_statWord h
    obtain ⟨a, -, ha⟩ := hwritten w hw
    exact ⟨a, hstat ▸ ha⟩
  · rintro ⟨a, name, hname, hstat⟩
    obtain ⟨hwhole, hshort⟩ := hwords a (hall a) name hname
    have hspelt : ∃ w ∈ abilityWords, stat.map foldLetter = w.toList := by
      rcases hstat with hstat | hstat
      · exact ⟨name, hwhole, hstat⟩
      · exact ⟨_, hshort, by rw [hstat, String.toList_ofList]⟩
    obtain ⟨w, hw, hstat⟩ := hspelt
    exact mem_language_any.mpr ⟨text w, List.mem_map_of_mem hw, mem_language_text.mpr hstat⟩

/-- An ability is known by its word in small letters. The long s is one already, so that a word with
it says nothing. -/
theorem ability?_eq_some_iff {stat : List Char} (h : stat ∈ statWord.language) {a : Ability} :
    ability? stat = some a ↔ IsWritten a (stat.map Char.toLower) := by
  have hnamed : ∀ entry ∈ abilityAliases, IsWritten entry.2 entry.1.toList := by decide
  have hknown : ∀ a ∈ Ability.all, ∀ name ∈ abilityNames a,
      abilityAliases.lookup name = some a ∧
        abilityAliases.lookup (String.ofList (name.toList.take 3)) = some a := by
    decide
  have hall : a ∈ Ability.all := by cases a <;> decide
  rw [ability?_of_statWord h]
  constructor
  · intro hlookup
    obtain ⟨before, after, hsplit, -⟩ := List.lookup_eq_some_iff.mp hlookup
    have hentry := hnamed (String.ofList (stat.map Char.toLower), a)
      (hsplit ▸ List.mem_append_right before List.mem_cons_self)
    rwa [String.toList_ofList] at hentry
  · rintro ⟨name, hname, hstat⟩
    obtain ⟨hwhole, hshort⟩ := hknown a hall name hname
    rcases hstat with hstat | hstat
    · rw [hstat, String.ofList_toList, hwhole]
    · rw [hstat, hshort]

/-! ## Ways out -/

/-- A text of blanks. -/
def AllBlank (cs : List Char) : Prop :=
  ∀ c ∈ cs, isBlank c = true

/-- What stands between the number of a way out and the closing parenthesis: blanks, or the word for
an ability between blanks. -/
def EndsEscape (ending : List Char) : Option (List Char) → Prop
  | none => AllBlank ending
  | some stat => ∃ wide trail a, ending = wide ++ (stat ++ trail) ∧ wide ≠ [] ∧ AllBlank wide ∧
      IsWritten a (stat.map foldLetter) ∧ AllBlank trail

/-- The parts of a way out that a text begins with: in parentheses the word "escape", the letters
DC, a number and perhaps an ability. -/
structure EscapeParts (cs lead inner word wide dc digits ending after : List Char)
    (stat : Option (List Char)) : Prop where
  split : cs = lead ++ '(' ::
    (inner ++ (word ++ (wide ++ (dc ++ (digits ++ (ending ++ ')' :: after))))))
  lead : AllBlank lead
  inner : AllBlank inner
  word : Spells "escape" word
  wide_ne_nil : wide ≠ []
  wide : AllBlank wide
  dc : IsDC dc
  number : IsNumber digits
  ending : EndsEscape ending stat

/-- A text begins with a way out of this number and ability. -/
def OpensEscape (cs digits : List Char) (stat : Option (List Char)) : Prop :=
  ∃ lead inner word wide dc ending after,
    EscapeParts cs lead inner word wide dc digits ending after stat

/-- The way out that a text begins with: its number is written in the digits 0 to 9, and the ability
is the one whose name it gives. -/
def Offers (cs : List Char) (e : Escape) : Prop :=
  ∃ digits stat, OpensEscape cs digits stat ∧ (∀ c ∈ digits, c.isDigit = true) ∧
    Nat.ofDigitChars 10 digits 0 = e.dc.toNat ∧
    ∀ a, e.ability = some a ↔ ∃ word ∈ stat, IsWritten a (word.map Char.toLower)

/-! ## Ways out are taken apart in one way -/

theorem isLetter_of_isWritten {a : Ability} {stat : List Char}
    (h : IsWritten a (stat.map foldLetter)) : stat ≠ [] ∧ ∀ x ∈ stat, isLetter x = true :=
  have hstat := mem_statWord_iff.mpr ⟨a, h⟩
  ⟨ne_nil_of_statWord hstat, isLetter_of_statWord hstat⟩

/-- There is no parenthesis in front of the closing one. -/
theorem EndsEscape.ne_paren {ending : List Char} {stat : Option (List Char)}
    (h : EndsEscape ending stat) : ∀ x ∈ ending, decide (x ≠ ')') = true := by
  have hblank {cs : List Char} (hcs : AllBlank cs) : ∀ x ∈ cs, x ≠ ')' := by
    rintro x hx rfl
    exact absurd (hcs _ hx) (by decide)
  simp only [decide_eq_true_eq]
  cases stat with
  | none => exact hblank h
  | some stat =>
      obtain ⟨wide, trail, a, rfl, -, hwide, hstat, htrail⟩ := h
      refine List.forall_mem_append.mpr ⟨hblank hwide, List.forall_mem_append.mpr
        ⟨?_, hblank htrail⟩⟩
      rintro x hx rfl
      exact absurd ((isLetter_of_isWritten hstat).2 _ hx) (by decide)

/-- What follows the number is no digit. -/
theorem EndsEscape.head {ending : List Char} {stat : Option (List Char)}
    (h : EndsEscape ending stat) (after : List Char) :
    ∀ x ∈ (ending ++ ')' :: after).head?, isDecimalDigit x = false := by
  by_cases hne : ending = []
  · subst hne
    intro x hx
    cases hx
    decide
  · have hblank : ∀ x ∈ (ending ++ ')' :: after).head?, isBlank x = true := by
      cases stat with
      | none => exact forall_head?_append hne h _
      | some stat =>
          obtain ⟨wide, trail, a, rfl, hwide_ne_nil, hwide, -⟩ := h
          rw [List.append_assoc]
          exact forall_head?_append hwide_ne_nil hwide _
    exact fun x hx => isDecimalDigit_of_isBlank (hblank x hx)

theorem EndsEscape.unique {ending : List Char} {stat stat' : Option (List Char)}
    (h : EndsEscape ending stat) (h' : EndsEscape ending stat') : stat = stat' := by
  have hletter {a : Ability} {word : List Char} (hword : IsWritten a (word.map foldLetter))
      (tail : List Char) : ∀ x ∈ (word ++ tail).head?, isBlank x = false := by
    obtain ⟨hne, hletters⟩ := isLetter_of_isWritten hword
    exact forall_head?_append hne (fun x hx => isBlank_of_isLetter (hletters x hx)) tail
  -- where all is blank there is no word
  have hnone {ending word : List Char} (hblank : EndsEscape ending none) :
      ¬ EndsEscape ending (some word) := by
    rintro ⟨wide, trail, a, rfl, -, -, hword, -⟩
    obtain ⟨hne, hletters⟩ := isLetter_of_isWritten hword
    obtain ⟨y, word, rfl⟩ := List.exists_cons_of_ne_nil hne
    have hy : isBlank y = true := hblank y (by simp)
    rw [isBlank_of_isLetter (hletters y List.mem_cons_self)] at hy
    cases hy
  cases stat with
  | none =>
      cases stat' with
      | none => rfl
      | some word => exact absurd h' (hnone h)
  | some word =>
      cases stat' with
      | none => exact absurd h (hnone h')
      | some word' =>
          obtain ⟨wide, trail, a, rfl, -, hwide, hword, htrail⟩ := h
          obtain ⟨wide', trail', a', hsplit, -, hwide', hword', htrail'⟩ := h'
          obtain ⟨-, hrest⟩ := append_inj_of_all hsplit hwide hwide' (hletter hword trail)
            (hletter hword' trail')
          have hbehind {trail : List Char} (htrail : AllBlank trail) :
              ∀ x ∈ trail.head?, isLetter x = false := fun x hx =>
            Bool.eq_false_iff.mpr fun hx' => Bool.false_ne_true
              ((isBlank_of_isLetter hx').symm.trans (htrail x (List.mem_of_head? hx)))
          obtain ⟨rfl, -⟩ := append_inj_of_all hrest (isLetter_of_isWritten hword).2
            (isLetter_of_isWritten hword').2 (hbehind htrail) (hbehind htrail')
          rfl

theorem OpensEscape.unique {cs digits digits' : List Char} {stat stat' : Option (List Char)}
    (h : OpensEscape cs digits stat) (h' : OpensEscape cs digits' stat') :
    digits = digits' ∧ stat = stat' := by
  obtain ⟨lead, inner, word, wide, dc, ending, after, h⟩ := h
  obtain ⟨lead', inner', word', wide', dc', ending', after', h'⟩ := h'
  have hletter {x c : Char} (hc : 'a' ≤ c ∧ c ≤ 'z') (hx : foldLetter x = c) : isBlank x = false :=
    isBlank_of_isLetter (isLetter_of_foldLetter hx hc)
  have hparen {tail : List Char} : ∀ x ∈ ('(' :: tail).head?, isBlank x = false := by
    simp [show isBlank '(' = false from rfl]
  have hword {word : List Char} (tail : List Char) (hword : Spells "escape" word) :
      word.length = 6 ∧ ∀ x ∈ (word ++ tail).head?, isBlank x = false := by
    obtain ⟨y, word, rfl, hy, hrest⟩ := List.map_eq_cons_iff.mp hword
    have hblank := hletter (by decide) hy
    exact ⟨by simpa using congrArg List.length hrest, by simp [hblank]⟩
  have hdc {dc : List Char} (tail : List Char) (hdc : IsDC dc) :
      ∀ x ∈ (dc ++ tail).head?, isBlank x = false := by
    obtain ⟨d, c, blank, rfl, hd, -, -⟩ := hdc
    have hblank := hletter (by decide) hd
    simp [hblank]
  obtain ⟨-, hrest⟩ :=
    append_inj_of_all (h.split.symm.trans h'.split) h.lead h'.lead hparen hparen
  obtain ⟨-, hrest⟩ := append_inj_of_all (List.cons.inj hrest).2 h.inner h'.inner
    (hword _ h.word).2 (hword _ h'.word).2
  obtain ⟨-, hrest⟩ := List.append_inj hrest
    ((hword [] h.word).1.trans (hword [] h'.word).1.symm)
  obtain ⟨-, hrest⟩ := append_inj_of_all hrest h.wide h'.wide (hdc _ h.dc) (hdc _ h'.dc)
  obtain ⟨-, hrest⟩ := h.dc.unique h'.dc h.number h'.number hrest
  obtain ⟨hdigits, hrest⟩ := append_inj_of_all hrest h.number.2 h'.number.2 (h.ending.head after)
    (h'.ending.head after')
  have hclose {tail : List Char} : ∀ x ∈ (')' :: tail).head?, decide (x ≠ ')') = false := by
    simp
  obtain ⟨rfl, -⟩ := append_inj_of_all (p := fun x => decide (x ≠ ')')) hrest h.ending.ne_paren
    h'.ending.ne_paren hclose hclose
  exact ⟨hdigits, h.ending.unique h'.ending⟩

/-! ## Ways out are found -/

theorem mem_language_all_append {ps qs : List Pattern} {cs : List Char} :
    cs ∈ (all (ps ++ qs)).language ↔
      ∃ before ∈ (all ps).language, ∃ after ∈ (all qs).language, before ++ after = cs := by
  have hmul : (all (ps ++ qs)).language = (all ps).language * (all qs).language := by
    induction ps with
    | nil => exact (one_mul _).symm
    | cons p ps ih => exact (congrArg (p.language * ·) ih).trans (mul_assoc ..).symm
  rw [hmul, Language.mem_mul]

theorem mem_language_blanks {cs : List Char} : cs ∈ blanks.language ↔ AllBlank cs :=
  mem_language_many_one

theorem mem_language_gap {cs : List Char} : cs ∈ gap.language ↔ cs ≠ [] ∧ AllBlank cs :=
  mem_language_many1_one

theorem mem_language_char {c : Char} {cs : List Char} : cs ∈ (char c).language ↔ cs = [c] := by
  simp [char, mem_language_one]

/-- What stands in front of the letters DC. -/
def escapeLead : List Pattern :=
  [blanks, char '(', blanks, text "escape", gap]

/-- What stands between the number and the closing parenthesis. -/
def escapeEnding : List Pattern :=
  [opt (seq gap (group statGroup statWord)), blanks]

theorem escapePattern_eq : escapePattern =
    all (textStart :: (escapeLead ++ [text "dc", blanks] ++
      ([group dcGroup digits] ++ (escapeEnding ++ [char ')'])))) :=
  rfl

theorem mem_language_escapeLead {cs : List Char} :
    cs ∈ (all escapeLead).language ↔
      ∃ lead inner word wide, cs = lead ++ '(' :: (inner ++ (word ++ wide)) ∧ AllBlank lead ∧
        AllBlank inner ∧ Spells "escape" word ∧ wide ≠ [] ∧ AllBlank wide := by
  simp only [escapeLead, mem_language_all_cons, mem_language_blanks, mem_language_gap,
    mem_language_char, mem_language_text]
  constructor
  · rintro ⟨lead, hlead, _, ⟨_, rfl, _, ⟨inner, hinner, _, ⟨word, hword, _, ⟨wide, hwide, _, rfl,
      rfl⟩, rfl⟩, rfl⟩, rfl⟩, rfl⟩
    exact ⟨lead, inner, word, wide, by simp, hlead, hinner, hword, hwide.1, hwide.2⟩
  · rintro ⟨lead, inner, word, wide, rfl, hlead, hinner, hword, hne, hwide⟩
    exact ⟨lead, hlead, _, ⟨_, rfl, _, ⟨inner, hinner, _, ⟨word, hword, _, ⟨wide, ⟨hne, hwide⟩, _,
      rfl, rfl⟩, rfl⟩, rfl⟩, rfl⟩, by simp⟩

theorem mem_language_escapeEnding {cs : List Char} :
    cs ∈ (all escapeEnding).language ↔ ∃ stat, EndsEscape cs stat := by
  simp only [escapeEnding, mem_language_all_cons, mem_language_opt, mem_language_seq,
    mem_language_blanks, mem_language_gap]
  constructor
  · rintro ⟨_, ⟨wide, ⟨hne, hwide⟩, stat, hstat, rfl⟩ | rfl, _, ⟨trail, htrail, _, rfl, rfl⟩, rfl⟩
    · obtain ⟨a, ha⟩ := mem_statWord_iff.mp hstat
      exact ⟨some stat, wide, trail, a, by simp, hne, hwide, ha, htrail⟩
    · exact ⟨none, by simpa [EndsEscape] using htrail⟩
  · rintro ⟨stat, h⟩
    cases stat with
    | none => exact ⟨[], Or.inr rfl, cs, ⟨cs, h, [], rfl, List.append_nil cs⟩, rfl⟩
    | some stat =>
        obtain ⟨wide, trail, a, rfl, hne, hwide, ha, htrail⟩ := h
        exact ⟨wide ++ stat, Or.inl ⟨wide, ⟨hne, hwide⟩, stat, mem_statWord_iff.mpr ⟨a, ha⟩, rfl⟩,
          trail, ⟨trail, htrail, [], rfl, List.append_nil trail⟩, List.append_assoc ..⟩

/-- Where a text begins with a way out, the pattern matches. -/
theorem OpensEscape.occursAt {cs digits : List Char} {stat : Option (List Char)}
    (h : OpensEscape cs digits stat) : escapePattern.OccursAt [] cs := by
  obtain ⟨lead, inner, word, wide, dc, ending, after, h⟩ := h
  have hlead := mem_language_escapeLead.mpr
    ⟨lead, inner, word, wide, rfl, h.lead, h.inner, h.word, h.wide_ne_nil, h.wide⟩
  have hdigits : digits ∈ (all [group dcGroup Prose.digits]).language :=
    mem_language_all_cons.mpr ⟨digits, mem_language_many1_one.mpr h.number, [], rfl,
      List.append_nil digits⟩
  have hclose : [')'] ∈ (all [char ')']).language :=
    mem_language_all_cons.mpr ⟨[')'], mem_language_char.mpr rfl, [], rfl, rfl⟩
  have htext := mem_language_all_append.mpr ⟨_, mem_language_all_append.mpr
      ⟨_, hlead, dc, mem_language_dc.mpr h.dc, rfl⟩,
    _, mem_language_all_append.mpr ⟨digits, hdigits, _, mem_language_all_append.mpr
      ⟨ending, mem_language_escapeEnding.mpr ⟨stat, h.ending⟩, _, hclose, rfl⟩, rfl⟩, rfl⟩
  obtain ⟨d, hd, -⟩ := @exists_matches_of_mem_language _ rfl _ after htext (.between [] cs)
    (by simp [Cursor.between, h.split])
  refine ⟨d, ?_⟩
  rw [escapePattern_eq, matches_all_cons_iff]
  exact ⟨_, .textStart rfl, hd⟩

/-- The text that a cursor has captured in a group. -/
def captured? (c : Cursor) (label : Nat) (cs : List Char) : Option (List Char) :=
  (c.groups.lookup label).map fun s => slice s.start s.stop cs

/-- What a match of the ending captures. -/
theorem endsEscape_of_matches {c d : Cursor} {cs : List Char}
    (h : Matches (all escapeEnding) c d) (hin : Within c cs)
    (hnone : c.groups.lookup statGroup = none) :
    ∃ ending stat, Covers ending c d ∧ EndsEscape ending stat ∧ captured? d statGroup cs = stat ∧
      captured? d dcGroup cs = captured? c dcGroup cs := by
  simp only [escapeEnding, matches_all_cons_iff, matches_all_nil_iff] at h
  obtain ⟨e, hstat, _, htrail, rfl⟩ := h
  obtain ⟨trail, htrailing, hcovers⟩ := htrail.covers
  have hgroups := htrail.groups_eq rfl
  cases hstat with
  | altFirst h =>
      obtain ⟨b, hgap, hgroup⟩ := matches_seq_iff.mp h
      obtain ⟨e, hword, rfl⟩ := matches_group_iff.mp hgroup
      obtain ⟨wide, hwide, hcovers_wide⟩ := hgap.covers
      obtain ⟨stat, hlanguage, hcovers_stat⟩ := hword.covers
      obtain ⟨a, ha⟩ := mem_statWord_iff.mp hlanguage
      obtain ⟨hne, hwide⟩ := mem_language_gap.mp hwide
      refine ⟨wide ++ (stat ++ trail), some stat, ?_, ⟨wide, trail, a, rfl, hne, hwide, ha,
        mem_language_blanks.mp htrailing⟩, ?_, ?_⟩
      · exact hcovers_wide.trans (hcovers_stat.trans hcovers)
      · rw [captured?, hgroups]
        exact congrArg some ((hgap.within hin).covered hcovers_stat).2
      · have hsame := (hword.groups_eq rfl).trans (hgap.groups_eq rfl)
        rw [captured?, captured?, hgroups, ← hsame]
        rfl
  | altSecond h =>
      cases h
      refine ⟨trail, none, hcovers, mem_language_blanks.mp htrailing, ?_, ?_⟩
      · rw [captured?, hgroups, hnone]
        rfl
      · rw [captured?, captured?, hgroups]

/-- A match of the pattern for ways out begins with one, and captures its number and ability. -/
theorem opensEscape_of_matches {past rest : List Char} {d : Cursor}
    (h : Matches escapePattern (.between past rest) d) :
    past = [] ∧ ∃ digits stat, OpensEscape rest digits stat ∧
      captured? d dcGroup rest = some digits ∧ captured? d statGroup rest = stat := by
  rw [escapePattern_eq, matches_all_cons_iff] at h
  obtain ⟨_, hstart, h⟩ := h
  cases hstart with
  | textStart hstart =>
      obtain rfl : past = [] := List.length_eq_zero_iff.mp hstart
      obtain ⟨a, hlead, h⟩ := matches_all_append_iff.mp h
      obtain ⟨b, hnumber, h⟩ := matches_all_append_iff.mp h
      obtain ⟨e, hending, hclose⟩ := matches_all_append_iff.mp h
      simp only [matches_all_cons_iff, matches_all_nil_iff, matches_group_iff] at hnumber
      obtain ⟨_, ⟨f, hdigits, rfl⟩, rfl⟩ := hnumber
      obtain ⟨_, htaken, hcovers⟩ := hlead.covers
      obtain ⟨_, hlanguage, dc, hdc, rfl⟩ := mem_language_all_append.mp htaken
      obtain ⟨lead, inner, word, wide, rfl, hlead', hinner, hword, hne, hwide⟩ :=
        mem_language_escapeLead.mp hlanguage
      obtain ⟨digits, hnumber, hcovers_digits⟩ := hdigits.covers
      have hin : Within a rest := hlead.within rfl
      have hnone : a.groups = [] := hlead.groups_eq rfl
      have hgroups : f.groups = [] := (hdigits.groups_eq rfl).trans hnone
      obtain ⟨ending, stat, hcovers_ending, hends, hstat, hsame⟩ :=
        endsEscape_of_matches hending (hin.covered hcovers_digits).1 (by simp [hgroups]; decide)
      obtain ⟨_, hlast, hcovers_close⟩ := hclose.covers
      obtain ⟨paren, hparen, _, rfl, rfl⟩ := mem_language_all_cons.mp hlast
      obtain rfl := mem_language_char.mp hparen
      have hdone (label : Nat) : captured? d label rest = captured? e label rest := by
        rw [captured?, captured?, hclose.groups_eq rfl]
      refine ⟨rfl, digits, stat, ⟨lead, inner, word, wide, dc, ending, d.rest, ?_, hlead', hinner,
        hword, hne, hwide, mem_language_dc.mp hdc, mem_language_many1_one.mp hnumber, hends⟩,
        ?_, (hdone statGroup).trans hstat⟩
      · have hsplit := hcovers.1
        rw [hcovers_digits.1, hcovers_ending.1, hcovers_close.1] at hsplit
        simpa [Cursor.between] using hsplit
      · rw [hdone, hsame]
        exact congrArg some (hin.covered hcovers_digits).2

theorem find_escapePattern_eq_some {cs : List Char} {m : Match}
    (h : escapePattern.find cs = some m) :
    ∃ digits stat, OpensEscape cs digits stat ∧ m.text? dcGroup cs = some digits ∧
      m.text? statGroup cs = stat := by
  obtain ⟨past, rest, rfl, hmatch, -⟩ := exists_place_of_find h
  obtain ⟨d, hd, hgroups⟩ := exists_of_matchAt hmatch
  obtain ⟨rfl, digits, stat, hopens, hdigits, hstat⟩ := opensEscape_of_matches hd
  refine ⟨digits, stat, hopens, ?_, ?_⟩
  · rw [Match.text?, Match.group?, hgroups]
    exact hdigits
  · rw [Match.text?, Match.group?, hgroups]
    exact hstat

theorem OpensEscape.find {cs digits : List Char} {stat : Option (List Char)}
    (h : OpensEscape cs digits stat) :
    ∃ m, escapePattern.find cs = some m ∧ m.text? dcGroup cs = some digits ∧
      m.text? statGroup cs = stat := by
  have hsome : escapePattern.occursIn cs = true := (occursIn_iff rfl).mpr ⟨[], cs, rfl, h.occursAt⟩
  obtain ⟨m, hm⟩ := Option.isSome_iff_exists.mp hsome
  obtain ⟨digits', stat', hopens, hdigits, hstat⟩ := find_escapePattern_eq_some hm
  obtain ⟨rfl, rfl⟩ := h.unique hopens
  exact ⟨m, hm, hdigits, hstat⟩

/-- Digits of other scripts than ASCII say no number. -/
theorem OpensEscape.uint32?_eq_some_iff {cs digits : List Char} {stat : Option (List Char)}
    (h : OpensEscape cs digits stat) {n : UInt32} :
    uint32? digits = some n ↔
      (∀ c ∈ digits, c.isDigit = true) ∧ Nat.ofDigitChars 10 digits 0 = n.toNat := by
  obtain ⟨_, _, _, _, _, _, _, h⟩ := h
  rw [Text.uint32?_eq_some_iff, unsigned?_eq_some_iff]
  simp only [nat?_eq_some_iff]
  constructor
  · rintro ⟨ds, rfl | rfl, -, hdigits, hvalue⟩
    · exact ⟨hdigits, hvalue⟩
    · exact absurd (h.number.2 '+' List.mem_cons_self) (by decide)
  · rintro ⟨hdigits, hvalue⟩
    exact ⟨digits, Or.inl rfl, h.number.1, hdigits, hvalue⟩

theorem OpensEscape.bind_ability?_eq_some_iff {cs digits : List Char} {stat : Option (List Char)}
    (h : OpensEscape cs digits stat) {a : Ability} :
    stat.bind ability? = some a ↔ ∃ word ∈ stat, IsWritten a (word.map Char.toLower) := by
  obtain ⟨_, _, _, _, _, ending, _, h⟩ := h
  cases hstat : stat with
  | none => simp
  | some word =>
      obtain ⟨_, _, a', -, -, -, hword, -⟩ : EndsEscape ending (some word) := hstat ▸ h.ending
      simp [ability?_eq_some_iff (mem_statWord_iff.mpr ⟨a', hword⟩)]

/-- The way out that is read is the one that the text begins with. -/
theorem escape?_eq_some_iff {cs : List Char} {e : Escape} : escape? cs = some e ↔ Offers cs e := by
  unfold escape?
  simp only [Option.bind_eq_bind, Option.bind_eq_some_iff, Option.pure_def, Option.some.injEq]
  constructor
  · rintro ⟨m, hfind, dc, ⟨digits, hdigits, hdc⟩, rfl⟩
    obtain ⟨digits', stat, hopens, hdigits', hstat⟩ := find_escapePattern_eq_some hfind
    obtain rfl := Option.some.inj (hdigits.symm.trans hdigits')
    obtain ⟨hascii, hvalue⟩ := hopens.uint32?_eq_some_iff.mp hdc
    refine ⟨digits, stat, hopens, hascii, hvalue, fun a => ?_⟩
    rw [hstat]
    exact hopens.bind_ability?_eq_some_iff
  · rintro ⟨digits, stat, hopens, hascii, hvalue, hability⟩
    obtain ⟨m, hm, hdigits, hstat⟩ := hopens.find
    have hdc := hopens.uint32?_eq_some_iff.mpr ⟨hascii, hvalue⟩
    have hsame : stat.bind ability? = e.ability :=
      Option.ext fun a => hopens.bind_ability?_eq_some_iff.trans (hability a).symm
    exact ⟨m, hm, e.dc, ⟨digits, hdigits, hdc⟩, by rw [hstat, hsame]⟩

end Spellwork.Prose
