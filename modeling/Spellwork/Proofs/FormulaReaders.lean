import Spellwork.Proofs.CutFormulas
import Spellwork.Proofs.Preferences

/-!
# The two readers of formulas

A formula at the beginning of a text is read by `leadingFormula?`, which goes on through all its
terms, and by `embeddedFormula?`, which stops behind the first constant and before a second pair of
dice. Both begin with the same dice (`exists_stops_of_dice`); what they make of the terms behind is
told from the first of these (`exists_stops`). So the second reader finds the dice with a constant
right behind them and nothing of what follows (`embeddedFormula?_eq_short`).
-/

namespace Spellwork

open Text Pattern

/-! ## Characters of words -/

namespace Text

theorem isWordChar_of_isDecimalDigit {c : Char} (h : isDecimalDigit c = true) :
    isWordChar c = true := by
  unfold isDecimalDigit at h
  unfold isWordChar
  split at h
  · rename_i hc
    rw [if_pos hc, Char.isAlphanum, h, Bool.or_true, Bool.true_or]
  · rename_i hc
    obtain ⟨hlatest, hdigit⟩ := Bool.and_eq_true_iff.mp h
    rw [if_neg hc, hlatest, hdigit, Bool.or_true, Bool.true_or, Bool.true_and]

theorem isDecimalDigit_of_isWordChar {c : Char} (h : isWordChar c = false) :
    isDecimalDigit c = false :=
  Bool.eq_false_iff.mpr fun hdigit =>
    Bool.false_ne_true (h.symm.trans (isWordChar_of_isDecimalDigit hdigit))

/-- The code points of the blanks. -/
def blankPoints : List Nat :=
  [0x9, 0xa, 0xb, 0xc, 0xd, 0x20, 0x85, 0xa0, 0x1680, 0x2000, 0x2001, 0x2002, 0x2003, 0x2004,
    0x2005, 0x2006, 0x2007, 0x2008, 0x2009, 0x200a, 0x2028, 0x2029, 0x202f, 0x205f, 0x3000]

theorem mem_blankPoints {c : Char} (h : isBlank c = true) : c.toNat ∈ blankPoints := by
  have hspace : c = ' ' ↔ c.toNat = 0x20 := Char.toNat_inj.symm
  simp only [isBlank, hspace, Bool.or_eq_true, Bool.and_eq_true, decide_eq_true_eq] at h
  simp only [blankPoints, List.mem_cons, List.not_mem_nil, or_false]
  omega

theorem isWordChar_of_isBlank {c : Char} (h : isBlank c = true) : isWordChar c = false := by
  have hall : blankPoints.all (fun n => !isWordChar (Char.ofNat n)) = true := by decide +kernel
  have hc := List.all_eq_true.mp hall _ (mem_blankPoints h)
  rwa [Char.ofNat_toNat, Bool.not_eq_true'] at hc

end Text

namespace Text.Pattern

/-! ## Ends of words -/

variable {α : Type u}

theorem atWordEdge_between (past : List Char) (a : Char) (rest : List Char) :
    (Cursor.between (past ++ [a]) rest).atWordEdge =
      (isWordChar a != rest.head?.any isWordChar) := by
  rw [between_snoc]
  rfl

/-- The last character is one of a word. -/
def EndsInWord (past : List Char) : Prop :=
  ∃ before a, past = before ++ [a] ∧ isWordChar a = true

/-- Nothing is found in the middle of a word. -/
def EndsWords (next : Cursor → Option α) : Prop :=
  ∀ past x rest, EndsInWord past → isWordChar x = true → next (.between past (x :: rest)) = none

/-- Nothing is found before a blank. -/
def SkipsBlanks (next : Cursor → Option α) : Prop :=
  ∀ past x rest, isBlank x = true → next (.between past (x :: rest)) = none

/-- Where a word ends, as far as the offset goes. -/
def wordStop (c : Cursor) : Option Nat :=
  if c.atWordEdge then some c.offset else none

theorem endsInWord_digits (past : List Char) {taken : List Char} (hne : taken ≠ [])
    (htaken : ∀ x ∈ taken, isDecimalDigit x = true) : EndsInWord (past ++ taken) := by
  refine ⟨past ++ taken.dropLast, taken.getLast hne, ?_, ?_⟩
  · rw [List.append_assoc, List.dropLast_concat_getLast]
  · exact isWordChar_of_isDecimalDigit (htaken _ (List.getLast_mem hne))

theorem EndsWords.not_wordChar {next : Cursor → Option α} (hnext : EndsWords next)
    {past rest : List Char} (hpast : EndsInWord past) (h : next (.between past rest) ≠ none) :
    ∀ x ∈ rest.head?, isWordChar x = false := by
  intro x hx
  obtain ⟨after, rfl⟩ := List.head?_eq_some_iff.mp hx
  exact Bool.eq_false_iff.mpr fun hword => h (hnext past x after hpast hword)

theorem endsWords_wordStop : EndsWords wordStop := by
  rintro past x rest ⟨before, a, rfl, ha⟩ hx
  unfold wordStop
  rw [atWordEdge_between, ha, List.head?_cons, Option.any_some, hx]
  rfl

theorem wordStop_of_endsInWord {past rest : List Char} (hpast : EndsInWord past)
    (hrest : ∀ x ∈ rest.head?, isWordChar x = false) :
    wordStop (.between past rest) = some past.length := by
  obtain ⟨before, a, rfl, ha⟩ := hpast
  have hany : rest.head?.any isWordChar = false := by
    cases rest with
    | nil => rfl
    | cons x rest => exact hrest x rfl
  unfold wordStop
  rw [atWordEdge_between, ha, hany]
  rfl

theorem skipsBlanks_seek {p : Pattern} (hp : p.takesSome = true)
    (hbegins : ∀ x, p.begins x = true → isBlank x = false) (next : Cursor → Option α) :
    SkipsBlanks (p.seek next) := fun past x rest hx =>
  seek_eq_none_of_begins hp fun y hy => Bool.eq_false_iff.mpr fun hy' => by
    cases hy
    exact Bool.false_ne_true ((hbegins x hy').symm.trans hx)

end Text.Pattern

namespace Formula

/-- The first of the terms, if it is a constant. -/
def loneConstant : List (Bool × Operand) → List (Bool × Operand)
  | (negative, .numeral digits) :: _ => [(negative, .numeral digits)]
  | _ => []

/-- The sum up to a constant right behind the first operand. -/
def Sum.short (s : Sum) : Sum :=
  ⟨s.first, loneConstant s.more⟩

end Formula

namespace Prose

open Formula

variable {α : Type u}

/-! ## Digits -/

theorem begins_digits (x : Char) : digits.begins x = isDecimalDigit x := by
  simp [digits, digit, many1, begins, takesSome]

theorem seek_digits {next : Cursor → Option α} (hnext : EndsWords next)
    {past taken rest : List Char} (hne : taken ≠ []) (htaken : ∀ x ∈ taken, isDecimalDigit x = true)
    (hstop : ∀ x ∈ rest.head?, isDecimalDigit x = false) :
    digits.seek next (.between past (taken ++ rest)) = next (.between (past ++ taken) rest) := by
  refine seek_many1_one hne htaken hstop fun before a x after hsplit => ?_
  obtain ⟨hleft, hright⟩ := List.forall_mem_append.mp (hsplit ▸ htaken :
    ∀ y ∈ before ++ a :: x :: after, isDecimalDigit y = true)
  have ha : isDecimalDigit a = true := hright a (by simp)
  have hx : isDecimalDigit x = true := hright x (by simp)
  exact hnext _ x _ (endsInWord_digits _ (List.cons_ne_nil a []) (by simpa using ha))
    (isWordChar_of_isDecimalDigit hx)

theorem exists_digits_of_seek {next : Cursor → Option α} (hnext : EndsWords next)
    {past rest : List Char} {a : α} (h : digits.seek next (.between past rest) = some a) :
    ∃ taken behind, rest = taken ++ behind ∧ taken ≠ [] ∧
      (∀ x ∈ taken, isDecimalDigit x = true) ∧ (∀ x ∈ behind.head?, isDecimalDigit x = false) ∧
      next (.between (past ++ taken) behind) = some a := by
  obtain ⟨d, hmatches, hfound⟩ := exists_of_seek h
  obtain ⟨taken, htaken, behind, rfl, rfl⟩ := hmatches.between rfl
  obtain ⟨hne, hall⟩ := mem_language_many1_one.mp htaken
  have hbehind := hnext.not_wordChar (endsInWord_digits past hne hall)
    (by rw [hfound]; exact Option.some_ne_none a)
  exact ⟨taken, behind, rfl, hne, hall, fun x hx => isDecimalDigit_of_isWordChar (hbehind x hx),
    hfound⟩

/-! ## Dice -/

/-- Dice as written, up to a character that is no digit. -/
structure DiceWord (count : List Char) (letter : Char) (faces behind : List Char) : Prop where
  count : ∀ x ∈ count, isDecimalDigit x = true
  letter : letter ∈ ['d', 'D']
  ne_nil : faces ≠ []
  faces : ∀ x ∈ faces, isDecimalDigit x = true
  behind : ∀ x ∈ behind.head?, isDecimalDigit x = false

theorem isDecimalDigit_of_letter {x : Char} (h : x ∈ ['d', 'D']) : isDecimalDigit x = false := by
  simp only [List.mem_cons, List.not_mem_nil, or_false] at h
  rcases h with rfl | rfl <;> decide

theorem isWordChar_of_letter {x : Char} (h : x ∈ ['d', 'D']) : isWordChar x = true := by
  simp only [List.mem_cons, List.not_mem_nil, or_false] at h
  rcases h with rfl | rfl <;> decide

theorem DiceWord.compacts {count : List Char} {letter : Char} {faces behind : List Char}
    (h : DiceWord count letter faces behind) :
    Compacts (count ++ letter :: faces) (Operand.dice count faces).text :=
  compacts_dice h.count h.letter h.faces

theorem DiceWord.decimal {count : List Char} {letter : Char} {faces behind : List Char}
    (h : DiceWord count letter faces behind) : (Operand.dice count faces).Decimal :=
  ⟨h.count, h.ne_nil, h.faces⟩

theorem DiceWord.seek {next : Cursor → Option α} (hnext : EndsWords next) {past : List Char}
    {count : List Char} {letter : Char} {faces behind : List Char}
    (h : DiceWord count letter faces behind) :
    diceToken.seek next (.between past (count ++ letter :: faces ++ behind)) =
      next (.between (past ++ (count ++ letter :: faces)) behind) := by
  have hletter : (['d', 'D'].contains letter) = true := List.contains_iff_mem.mpr h.letter
  have hshort : ∀ before x after, count = before ++ x :: after →
      (seq (oneOf ['d', 'D']) (seq digits empty)).seek next
        (.between (past ++ before) (x :: after ++ (letter :: (faces ++ behind)))) = none := by
    intro before x after hsplit
    have hx : isDecimalDigit x = true := h.count x (by simp [hsplit])
    refine seek_eq_none_of_begins rfl fun y hy => ?_
    cases hy
    have hne : x ∉ ['d', 'D'] := fun hmem => by
      rw [isDecimalDigit_of_letter hmem] at hx
      cases hx
    simpa [oneOf, begins, takesSome] using hne
  rw [diceToken, all, List.foldr_cons, List.foldr_cons, List.foldr_cons, List.foldr_nil, seek_seq,
    List.append_assoc, List.cons_append, digit,
    seek_many_one h.count (by simpa using isDecimalDigit_of_letter h.letter) hshort, seek_seq,
    oneOf, seek_one, if_pos hletter, seek_seq, seek_digits ?_ h.ne_nil h.faces h.behind, seek_empty]
  · simp only [List.append_assoc, List.singleton_append]
  · intro past x rest hpast hx
    rw [seek_empty]
    exact hnext past x rest hpast hx

theorem exists_dice_of_seek {next : Cursor → Option α} (hnext : EndsWords next)
    {past rest : List Char} {a : α} (h : diceToken.seek next (.between past rest) = some a) :
    ∃ count letter faces behind, DiceWord count letter faces behind ∧
      rest = count ++ letter :: faces ++ behind ∧
      next (.between (past ++ (count ++ letter :: faces)) behind) = some a := by
  obtain ⟨d, hmatches, hfound⟩ := exists_of_seek h
  obtain ⟨taken, htaken, behind, rfl, rfl⟩ := hmatches.between rfl
  obtain ⟨count, hcount, lettered, hlettered, rfl⟩ := mem_language_all_cons.mp htaken
  obtain ⟨_, ⟨letter, hletter, rfl⟩, last, hlast, rfl⟩ := mem_language_all_cons.mp hlettered
  obtain ⟨faces, hfaces, _, rfl, rfl⟩ := mem_language_all_cons.mp hlast
  obtain ⟨hne, hfaces⟩ := mem_language_many1_one.mp hfaces
  rw [List.append_nil, List.singleton_append] at hfound ⊢
  have hplace : past ++ (count ++ letter :: faces) = past ++ count ++ [letter] ++ faces := by simp
  have hbehind := hnext.not_wordChar (hplace ▸ endsInWord_digits _ hne hfaces)
    (by rw [hfound]; exact Option.some_ne_none a)
  exact ⟨count, letter, faces, behind, ⟨mem_language_many_one.mp hcount,
    List.contains_iff_mem.mp hletter, hne, hfaces,
    fun x hx => isDecimalDigit_of_isWordChar (hbehind x hx)⟩, rfl, hfound⟩

/-! ## Signs -/

theorem begins_signToken {x : Char} (h : signToken.begins x = true) : isWordChar x = false := by
  have hcases : isBlank x = true ∨ x = '+' ∨ x = '-' := by
    simpa [signToken, all, blanks, oneOf, begins, takesSome] using h
  rcases hcases with hx | rfl | rfl
  · exact isWordChar_of_isBlank hx
  · decide
  · decide

theorem seek_signToken {next : Cursor → Option α} (hnext : SkipsBlanks next)
    {past sign behind : List Char} (hsign : sign ∈ signToken.language)
    (hbehind : ∀ x ∈ behind.head?, isBlank x = false) :
    signToken.seek next (.between past (sign ++ behind)) =
      next (.between (past ++ sign) behind) := by
  obtain ⟨before, hbefore, marked, hmarked, rfl⟩ := mem_language_all_cons.mp hsign
  obtain ⟨_, ⟨mark, hmark, rfl⟩, last, hlast, rfl⟩ := mem_language_all_cons.mp hmarked
  obtain ⟨after, hafter, _, rfl, rfl⟩ := mem_language_all_cons.mp hlast
  have hbefore := mem_language_many_one.mp hbefore
  have hafter := mem_language_many_one.mp hafter
  have hblank : ∀ x, isBlank x = true → (['+', '-'].contains x) = false := by
    intro x hx
    refine Bool.eq_false_iff.mpr fun hmem => ?_
    have hcase : x = '+' ∨ x = '-' := by simpa using hmem
    rcases hcase with rfl | rfl <;> exact absurd hx (by decide)
  have hnot : isBlank mark = false :=
    Bool.eq_false_iff.mpr fun hx => Bool.false_ne_true ((hblank mark hx).symm.trans hmark)
  rw [List.append_nil, signToken, all, List.foldr_cons, List.foldr_cons, List.foldr_cons,
    List.foldr_nil, seek_seq, List.append_assoc, List.append_assoc, List.singleton_append, blanks,
    seek_many_one hbefore (by simpa using hnot) ?_, seek_seq, oneOf, seek_one, if_pos hmark,
    seek_seq, seek_many_one hafter hbehind ?_, seek_empty]
  · simp only [List.append_assoc, List.singleton_append]
  · intro ahead x rest hsplit
    rw [seek_empty]
    exact hnext _ x _ (hafter x (by simp [hsplit]))
  · intro ahead x rest hsplit
    refine seek_eq_none_of_begins rfl fun y hy => ?_
    cases hy
    have hx := hblank x (hbefore x (by simp [hsplit]))
    simpa [oneOf, begins, takesSome] using hx

theorem exists_sign_of_seek {next : Cursor → Option α} (hnext : SkipsBlanks next)
    {past rest : List Char} {a : α} (h : signToken.seek next (.between past rest) = some a) :
    ∃ sign ∈ signToken.language, ∃ behind, rest = sign ++ behind ∧
      (∀ x ∈ behind.head?, isBlank x = false) ∧
      next (.between (past ++ sign) behind) = some a := by
  obtain ⟨d, hmatches, hfound⟩ := exists_of_seek h
  obtain ⟨sign, hsign, behind, rfl, rfl⟩ := hmatches.between rfl
  refine ⟨sign, hsign, behind, rfl, fun x hx => ?_, hfound⟩
  obtain ⟨after, rfl⟩ := List.head?_eq_some_iff.mp hx
  refine Bool.eq_false_iff.mpr fun hblank => ?_
  rw [hnext _ x after hblank] at hfound
  cases hfound

theorem isBlank_of_begins_diceToken {x : Char} (h : diceToken.begins x = true) :
    isBlank x = false := by
  have hcases : isDecimalDigit x = true ∨ x = 'd' ∨ x = 'D' := by
    simpa [diceToken, digit, all, oneOf, begins, takesSome] using h
  rcases hcases with hdigit | rfl | rfl
  · exact isBlank_of_isDecimalDigit hdigit
  · decide
  · decide

theorem isBlank_of_begins_digits {x : Char} (h : digits.begins x = true) : isBlank x = false :=
  isBlank_of_isDecimalDigit (by rwa [begins_digits] at h)

/-! ## Terms -/

/-- A numeral or dice. -/
def operand : Pattern :=
  alt diceToken digits

/-- Any number of terms. -/
def terms : Pattern :=
  many true (seq signToken operand)

/-- At most one constant. -/
def constant : Pattern :=
  opt (seq signToken digits)

theorem begins_operand (x : Char) (h : operand.begins x = true) : isBlank x = false :=
  (Bool.or_eq_true_iff.mp h).elim isBlank_of_begins_diceToken isBlank_of_begins_digits

theorem seek_terms (next : Cursor → Option α) (c : Cursor) :
    terms.seek next c = ((seq signToken operand).seek (terms.seek next) c).or (next c) :=
  seek_many rfl next c

theorem seek_constant (next : Cursor → Option α) (c : Cursor) :
    constant.seek next c = ((seq signToken digits).seek next c).or (next c) :=
  seek_opt _ next c

/-- No term begins in the middle of a word. -/
theorem seek_signed_of_wordChar {p : Pattern} {next : Cursor → Option α} {past : List Char}
    {x : Char} {rest : List Char} (hx : isWordChar x = true) :
    (seq signToken p).seek next (.between past (x :: rest)) = none := by
  rw [seek_seq]
  refine seek_eq_none_of_begins rfl fun y hy => Bool.eq_false_iff.mpr fun hbegins => ?_
  cases hy
  exact Bool.false_ne_true ((begins_signToken hbegins).symm.trans hx)

theorem endsWords_terms : EndsWords (terms.seek wordStop) := by
  intro past x rest hpast hx
  rw [seek_terms, seek_signed_of_wordChar hx, endsWords_wordStop past x rest hpast hx]
  rfl

theorem endsWords_constant : EndsWords (constant.seek wordStop) := by
  intro past x rest hpast hx
  rw [seek_constant, seek_signed_of_wordChar hx, endsWords_wordStop past x rest hpast hx]
  rfl

/-! ## Where the readers stop -/

/-- The pattern is read up to the end of a word, and what it covers is this text in compact form. -/
def Stops (p : Pattern) (past rest ds : List Char) : Prop :=
  ∃ taken behind, rest = taken ++ behind ∧ Compacts taken ds ∧
    p.seek wordStop (.between past rest) = some (past ++ taken).length

theorem compacts_nil : Compacts [] [] :=
  compacts_blanks (List.forall_mem_nil _)

theorem Stops.here {p : Pattern} {past rest : List Char}
    (h : p.seek wordStop (.between past rest) = some past.length) : Stops p past rest [] :=
  ⟨[], rest, rfl, compacts_nil, by rwa [List.append_nil]⟩

theorem Stops.append {p q : Pattern} {past word tail ds ds' : List Char}
    (h : Stops q (past ++ word) tail ds') (hword : Compacts word ds)
    (hseek : p.seek wordStop (.between past (word ++ tail)) =
      q.seek wordStop (.between (past ++ word) tail)) :
    Stops p past (word ++ tail) (ds ++ ds') := by
  obtain ⟨taken, behind, rfl, htaken, hstop⟩ := h
  refine ⟨word ++ taken, behind, (List.append_assoc ..).symm, hword.append htaken, ?_⟩
  rw [hseek, hstop, List.append_assoc]

theorem exists_compacts_terms {parts : List (List Char)}
    (h : ∀ part ∈ parts, part ∈ (seq signToken operand).language) :
    ∃ os : List (Bool × Operand), (∀ o ∈ os, o.2.Decimal) ∧
      Compacts parts.flatten (sumText os) := by
  induction parts with
  | nil => exact ⟨[], List.forall_mem_nil _, compacts_nil⟩
  | cons part parts ih =>
      obtain ⟨hpart, hparts⟩ := List.forall_mem_cons.mp h
      obtain ⟨o, ho, hsigned⟩ := cutsSigned_seq (fun _ => cutsOperand_either) hpart
      obtain ⟨os, hos, hcompacts⟩ := ih hparts
      refine ⟨o :: os, List.forall_mem_cons.mpr ⟨ho, hos⟩, ?_⟩
      rw [List.flatten_cons, sumText, List.flatMap_cons]
      exact hsigned.append hcompacts

theorem offset_of_wordStop {c : Cursor} {stop : Nat} (h : wordStop c = some stop) :
    stop = c.offset := by
  unfold wordStop at h
  split at h
  · exact (Option.some.inj h).symm
  · cases h

theorem exists_stops_of_terms {past tail : List Char} {stop : Nat}
    (h : terms.seek wordStop (.between past tail) = some stop) :
    ∃ os : List (Bool × Operand), (∀ o ∈ os, o.2.Decimal) ∧ Stops terms past tail (sumText os) := by
  obtain ⟨d, hmatches, hstop⟩ := exists_of_seek h
  obtain ⟨taken, htaken, behind, rfl, rfl⟩ := hmatches.between rfl
  obtain ⟨parts, rfl, hparts⟩ := mem_language_many.mp htaken
  obtain ⟨os, hos, hcompacts⟩ := exists_compacts_terms hparts
  refine ⟨os, hos, parts.flatten, behind, rfl, hcompacts, ?_⟩
  rw [h, offset_of_wordStop hstop]
  rfl

/-- No term that can be read stands here, so both patterns for what is behind the dice stop. -/
theorem stops_of_no_term {past tail : List Char}
    (hhere : wordStop (.between past tail) = some past.length)
    (hterm : (seq signToken operand).seek (terms.seek wordStop) (.between past tail) = none) :
    Stops terms past tail [] ∧ Stops constant past tail [] := by
  have hconstant : (seq signToken digits).seek wordStop (.between past tail) = none := by
    refine Option.eq_none_iff_forall_ne_some.mpr fun stop hstop => ?_
    obtain ⟨e, hmatches, hedge⟩ := exists_of_seek hstop
    obtain ⟨d, hsign, hdigits⟩ := matches_seq_iff.mp hmatches
    -- a constant is a term, and the terms can stop where it does
    refine seek_ne_none (p := seq signToken operand) rfl (.seq hsign (.altSecond hdigits)) ?_ hterm
    rw [seek_terms, hedge]
    cases (seq signToken operand).seek (terms.seek wordStop) e <;> exact Option.some_ne_none _
  constructor
  · exact .here (by rw [seek_terms, hterm, Option.none_or, hhere])
  · exact .here (by rw [seek_constant, hconstant, Option.none_or, hhere])

/-- Behind a sign and an operand the terms go on. -/
theorem exists_stops_of_operand {past sign word tail : List Char} {negative : Bool} {o : Operand}
    {stop : Nat} (hsign : Compacts sign [signOf negative]) (hword : Compacts word o.text)
    (hseek : terms.seek wordStop (.between past (sign ++ (word ++ tail))) = some stop)
    (hrest : terms.seek wordStop (.between (past ++ sign ++ word) tail) = some stop) :
    ∃ os : List (Bool × Operand), (∀ o ∈ os, o.2.Decimal) ∧
      Stops terms past (sign ++ (word ++ tail)) (sumText ((negative, o) :: os)) := by
  obtain ⟨os, hos, hstops⟩ := exists_stops_of_terms hrest
  rw [← List.append_assoc] at hseek ⊢
  rw [List.append_assoc past] at hrest hstops
  refine ⟨os, hos, ?_⟩
  rw [sumText_cons, ← List.cons_append]
  exact hstops.append (hsign.append hword) (hseek.trans hrest.symm)

theorem seek_constant_of_sign {past sign behind : List Char} (hsign : sign ∈ signToken.language)
    (hbehind : ∀ x ∈ behind.head?, isBlank x = false) :
    constant.seek wordStop (.between past (sign ++ behind)) =
      (digits.seek wordStop (.between (past ++ sign) behind)).or
        (wordStop (.between past (sign ++ behind))) := by
  have hskips := skipsBlanks_seek rfl (fun _ => isBlank_of_begins_digits) wordStop
  rw [seek_constant, seek_seq, seek_signToken hskips hsign hbehind]

/-- Dice are no constant, not even up to their letter. -/
theorem DiceWord.seek_digits {past count : List Char} {letter : Char} {faces behind : List Char}
    (h : DiceWord count letter faces behind) :
    digits.seek wordStop (.between past (count ++ letter :: faces ++ behind)) = none := by
  have hstop : ∀ x ∈ (letter :: (faces ++ behind)).head?, isDecimalDigit x = false := by
    simpa using isDecimalDigit_of_letter h.letter
  rw [List.append_assoc, List.cons_append]
  by_cases hne : count = []
  · subst hne
    exact seek_eq_none_of_begins rfl fun x hx => by rw [begins_digits, hstop x hx]
  · rw [Prose.seek_digits endsWords_wordStop hne h.count hstop]
    exact endsWords_wordStop _ _ _ (endsInWord_digits past hne h.count)
      (isWordChar_of_letter h.letter)

/-- What the two patterns for the terms behind dice make of the same text. -/
theorem exists_stops {past tail : List Char} (hpast : EndsInWord past)
    (h : terms.seek wordStop (.between past tail) ≠ none) :
    ∃ os : List (Bool × Operand), (∀ o ∈ os, o.2.Decimal) ∧ Stops terms past tail (sumText os) ∧
      Stops constant past tail (sumText (loneConstant os)) := by
  have hhere : wordStop (.between past tail) = some past.length :=
    wordStop_of_endsInWord hpast (endsWords_terms.not_wordChar hpast h)
  cases hterm : (seq signToken operand).seek (terms.seek wordStop) (.between past tail) with
  | none =>
      obtain ⟨hterms, hconstant⟩ := stops_of_no_term hhere hterm
      exact ⟨[], List.forall_mem_nil _, hterms, hconstant⟩
  | some stop =>
      have hseek : terms.seek wordStop (.between past tail) = some stop := by
        rw [seek_terms, hterm]
        rfl
      rw [seek_seq] at hterm
      obtain ⟨sign, hsign, behind, rfl, hbehind, hoperand⟩ :=
        exists_sign_of_seek (skipsBlanks_seek rfl begins_operand _) hterm
      obtain ⟨negative, hcompacts⟩ := exists_compacts_signToken hsign
      have hconstant := @seek_constant_of_sign past sign behind hsign hbehind
      rw [operand, seek_alt] at hoperand
      cases hdice : diceToken.seek (terms.seek wordStop) (.between (past ++ sign) behind) with
      | some stop' =>
          obtain rfl : stop' = stop := by simpa [hdice] using hoperand
          obtain ⟨count, letter, faces, tail, hword, rfl, hrest⟩ :=
            exists_dice_of_seek endsWords_terms hdice
          obtain ⟨os, hos, hstops⟩ :=
            exists_stops_of_operand hcompacts hword.compacts hseek hrest
          refine ⟨(negative, .dice count faces) :: os,
            List.forall_mem_cons.mpr ⟨hword.decimal, hos⟩, hstops, .here ?_⟩
          rw [hconstant, hword.seek_digits, Option.none_or, hhere]
      | none =>
          rw [hdice, Option.none_or] at hoperand
          obtain ⟨ds, tail, rfl, hne, hds, hstop, hrest⟩ :=
            exists_digits_of_seek endsWords_terms hoperand
          obtain ⟨os, hos, hstops⟩ := exists_stops_of_operand (o := .numeral ds) hcompacts
            (compacts_digits hds) hseek hrest
          have hend := endsInWord_digits (past ++ sign) hne hds
          have hedge : wordStop (.between (past ++ sign ++ ds) tail) =
              some (past ++ sign ++ ds).length :=
            wordStop_of_endsInWord hend (endsWords_terms.not_wordChar hend
              (by rw [hrest]; exact Option.some_ne_none stop))
          refine ⟨(negative, .numeral ds) :: os, List.forall_mem_cons.mpr ⟨⟨hne, hds⟩, hos⟩, hstops,
            sign ++ ds, tail, (List.append_assoc ..).symm, ?_, ?_⟩
          · rw [loneConstant, sumText_cons, sumText, List.flatMap_nil, List.append_nil]
            exact hcompacts.append (compacts_digits hds)
          · rw [hconstant, Prose.seek_digits endsWords_wordStop hne hds hstop, hedge,
              List.append_assoc]
            rfl

/-! ## What is cut out -/

/-- What a group that ends with a word captures. -/
theorem seek_captured (body : Pattern) (past rest cs : List Char) :
    (all [group captured body, wordEdge]).seek
        (fun d => some ((d.groups.lookup captured).map fun s => slice s.start s.stop cs))
        (.between past rest) =
      (body.seek wordStop (.between past rest)).map fun stop =>
        some (slice past.length stop cs) := by
  rw [all, List.foldr_cons, List.foldr_cons, List.foldr_nil, seek_seq, seek_group, ← seek_map]
  refine seek_congr fun d _ => ?_
  rw [seek_seq, seek_wordEdge, seek_empty, wordStop]
  show (if d.atWordEdge = true then _ else none) = _
  split <;> rfl

theorem text?_matchAt (p : Pattern) (c : Cursor) (cs : List Char) :
    (p.matchAt c).map (fun m => m.text? captured cs) =
      p.seek
        (fun d => some ((d.groups.lookup captured).map fun s => slice s.start s.stop cs)) c := by
  rw [matchAt_eq_seek, ← seek_map]
  rfl

theorem find_of_textStart (p : Pattern) (cs : List Char) :
    (seq textStart p).find cs = (seq textStart p).matchAt (.between [] cs) := by
  cases hmatch : (seq textStart p).matchAt (.between [] cs) with
  | some m =>
      exact @find_append_eq_some _ [] cs m hmatch fun _ _ _ hlt => absurd hlt (Nat.not_lt_zero _)
  | none =>
      refine find_eq_none_iff.mpr fun past rest hsplit => ?_
      cases past with
      | nil =>
          rw [hsplit] at hmatch
          exact hmatch
      | cons x past => rfl

/-- The body of the pattern for a formula at the beginning of a text. -/
def leadingBody : Pattern :=
  alt (all [diceToken, terms]) digits

/-- The body of the pattern for a formula anywhere in a text. -/
def embeddedBody : Pattern :=
  seq diceToken constant

theorem begins_leading (x : Char)
    (h : (all [group captured leadingBody, wordEdge]).begins x = true) : isBlank x = false := by
  have hcases : diceToken.begins x = true ∨ digits.begins x = true := by
    simpa [leadingBody, diceToken, digits, many1, digit, all, oneOf, begins, takesSome] using h
  exact hcases.elim isBlank_of_begins_diceToken isBlank_of_begins_digits

theorem begins_embeddedFormula (x : Char) (h : embeddedFormula.begins x = true) :
    isBlank x = false := by
  refine isBlank_of_begins_diceToken ?_
  simpa [embeddedFormula, diceToken, digits, many1, digit, all, oneOf, begins, takesSome] using h

theorem bind_eq_map {β γ δ : Type} {m : Option β} {x : Option γ} {f : β → Option δ} {g : γ → δ}
    (h : m.map f = x.map fun s => some (g s)) : m.bind f = x.map g := by
  cases m <;> cases x <;> simp_all

theorem leadingFormula?_eq {past rest : List Char} (hpast : ∀ x ∈ past, isBlank x = true)
    (hrest : ∀ x ∈ rest.head?, isBlank x = false) :
    leadingFormula? (past ++ rest) =
      (leadingBody.seek wordStop (.between past rest)).map fun stop =>
        compactFormula (slice past.length stop (past ++ rest)) := by
  have hfind : (leadingFormula.find (past ++ rest)).map (fun m => m.text? captured (past ++ rest)) =
      (leadingBody.seek wordStop (.between past rest)).map fun stop =>
        some (slice past.length stop (past ++ rest)) := by
    have hstart := find_of_textStart (all [blanks, group captured leadingBody, wordEdge])
      (past ++ rest)
    rw [show leadingFormula = seq textStart (all [blanks, group captured leadingBody, wordEdge])
      from rfl, hstart, text?_matchAt, seek_seq, seek_textStart,
      if_pos (show (Cursor.between [] (past ++ rest)).offset = 0 from rfl), all, List.foldr_cons,
      seek_seq, blanks, seek_many_one hpast hrest, List.nil_append]
    · exact seek_captured leadingBody past rest _
    · intro before x after hsplit
      exact skipsBlanks_seek rfl begins_leading _ _ x _ (hpast x (by simp [hsplit]))
  rw [leadingFormula?, bind_eq_map hfind, Option.map_map]
  rfl

theorem Stops.cut {p : Pattern} {past rest ds : List Char} (h : Stops p past rest ds) :
    ((p.seek wordStop (.between past rest)).map fun stop =>
      compactFormula (slice past.length stop (past ++ rest))) = some (String.ofList ds) := by
  obtain ⟨taken, behind, rfl, hcompacts, hseek⟩ := h
  rw [hseek, Option.map_some, slice_append, hcompacts.compactFormula]

theorem matchAt_embeddedFormula {past rest : List Char} (hpast : ∀ x ∈ past, isBlank x = true)
    (hrest : ∃ x ∈ rest.head?, isWordChar x = true) (cs : List Char) :
    (embeddedFormula.matchAt (.between past rest)).map (fun m => m.text? captured cs) =
      (embeddedBody.seek wordStop (.between past rest)).map fun stop =>
        some (slice past.length stop cs) := by
  obtain ⟨x, hx, hword⟩ := hrest
  have hbefore : past.getLast?.any isWordChar = false := by
    cases hlast : past.getLast? with
    | none => rfl
    | some y => exact isWordChar_of_isBlank (hpast y (List.mem_of_getLast? hlast))
  have hedge : (Cursor.between past rest).atWordEdge = true := by
    show (past.getLast?.any isWordChar != rest.head?.any isWordChar) = true
    rw [hbefore, Option.mem_def.mp hx, Option.any_some, hword]
    rfl
  rw [show embeddedFormula = seq wordEdge (all [group captured embeddedBody, wordEdge]) from rfl,
    text?_matchAt, seek_seq, seek_wordEdge, if_pos hedge, seek_captured]

theorem embeddedFormula?_of_stops {past rest ds : List Char} (hpast : ∀ x ∈ past, isBlank x = true)
    (hrest : ∃ x ∈ rest.head?, isWordChar x = true) (h : Stops embeddedBody past rest ds) :
    embeddedFormula? (past ++ rest) = some (String.ofList ds) := by
  obtain ⟨taken, behind, rfl, hcompacts, hseek⟩ := h
  have hmatch := matchAt_embeddedFormula hpast hrest (past ++ (taken ++ behind))
  rw [hseek, Option.map_some, slice_append] at hmatch
  obtain ⟨m, hm, htext⟩ := Option.map_eq_some_iff.mp hmatch
  have hfind : embeddedFormula.find (past ++ (taken ++ behind)) = some m := by
    refine find_append_eq_some hm fun past' rest' hsplit hlt => ?_
    -- every place before is one before a blank
    rcases List.append_eq_append_iff.mp hsplit with ⟨ahead, rfl, -⟩ | ⟨ahead, rfl, rfl⟩
    · rw [List.length_append] at hlt
      omega
    · obtain ⟨y, ahead, rfl⟩ := List.exists_cons_of_ne_nil (l := ahead) (by rintro rfl; simp at hlt)
      rw [matchAt_eq_seek]
      exact skipsBlanks_seek rfl begins_embeddedFormula _ _ y _ (hpast y (by simp))
  rw [embeddedFormula?, hfind, Option.bind_some, htext, Option.map_some, hcompacts.compactFormula]

end Prose

namespace Formula.Sum

theorem exists_text_eq (s : Sum) : ∃ os, s.text = s.short.text ++ sumText os ∧
    (os = [] ↔ s.more = [] ∨ ∃ negative digits, s.more = [(negative, .numeral digits)]) := by
  obtain ⟨first, more⟩ := s
  rcases more with _ | ⟨⟨negative, _ | _⟩, more⟩
  · exact ⟨[], by simp [text, short, loneConstant, sumText], by simp⟩
  · exact ⟨more, by simp [text, short, loneConstant, sumText], by simp⟩
  · rename_i count faces
    exact ⟨(negative, .dice count faces) :: more, by simp [text, short, loneConstant, sumText],
      by simp⟩

end Formula.Sum

namespace Prose

open Formula

theorem exists_append_blanks (cs : List Char) : ∃ past rest, cs = past ++ rest ∧
    (∀ x ∈ past, isBlank x = true) ∧ ∀ x ∈ rest.head?, isBlank x = false := by
  refine ⟨cs.takeWhile isBlank, cs.dropWhile isBlank, List.takeWhile_append_dropWhile.symm,
    fun x hx => List.mem_takeWhile_imp hx, fun x hx => ?_⟩
  have hnot := List.head?_dropWhile_not isBlank cs
  rw [Option.mem_def.mp hx] at hnot
  exact hnot

theorem seek_dice_terms (past rest : List Char) :
    (all [diceToken, terms]).seek wordStop (.between past rest) =
      diceToken.seek (terms.seek wordStop) (.between past rest) := by
  rw [all, List.foldr_cons, List.foldr_cons, List.foldr_nil, seek_seq]
  refine seek_congr fun d _ => ?_
  rw [seek_seq]
  exact seek_congr fun e _ => seek_empty _ e

/-- What the second branch of the pattern cuts out is a number. -/
theorem exists_number_of_seek {past rest : List Char} {stop : Nat}
    (h : digits.seek wordStop (.between past rest) = some stop) :
    ∃ ds, (∀ x ∈ ds, isDecimalDigit x = true) ∧
      compactFormula (slice past.length stop (past ++ rest)) = String.ofList ds := by
  obtain ⟨ds, behind, rfl, -, hds, -, hstop⟩ := exists_digits_of_seek endsWords_wordStop h
  obtain rfl : stop = (past ++ ds).length := offset_of_wordStop hstop
  exact ⟨ds, hds, by rw [slice_append, (compacts_digits hds).compactFormula]⟩

/-- Where the terms are read behind dice, both readers stop. -/
theorem exists_stops_of_dice {past rest : List Char} {stop : Nat}
    (h : diceToken.seek (terms.seek wordStop) (.between past rest) = some stop) :
    ∃ s : Formula.Sum, (∀ o ∈ s.operands, o.Decimal) ∧
      (∃ count faces, s.first = .dice count faces) ∧
      (∃ x ∈ rest.head?, isWordChar x = true) ∧ Stops leadingBody past rest s.text ∧
      Stops embeddedBody past rest s.short.text := by
  have hfirst := h
  rw [← seek_dice_terms] at hfirst
  obtain ⟨count, letter, faces, tail, hword, rfl, hrest⟩ := exists_dice_of_seek endsWords_terms h
  have hend : EndsInWord (past ++ (count ++ letter :: faces)) := by
    have hfaces := endsInWord_digits (past ++ (count ++ [letter])) hword.ne_nil hword.faces
    simpa using hfaces
  obtain ⟨os, hos, hterms, hconstant⟩ :=
    exists_stops hend (by rw [hrest]; exact Option.some_ne_none stop)
  have hleading : leadingBody.seek wordStop (.between past (count ++ letter :: faces ++ tail)) =
      terms.seek wordStop (.between (past ++ (count ++ letter :: faces)) tail) := by
    rw [leadingBody, seek_alt, hfirst, hrest]
    rfl
  have hembedded : embeddedBody.seek wordStop (.between past (count ++ letter :: faces ++ tail)) =
      constant.seek wordStop (.between (past ++ (count ++ letter :: faces)) tail) := by
    rw [embeddedBody, seek_seq, hword.seek endsWords_constant]
  have hhead : ∃ x ∈ (count ++ letter :: faces ++ tail).head?, isWordChar x = true := by
    cases count with
    | nil => exact ⟨letter, rfl, isWordChar_of_letter hword.letter⟩
    | cons x count =>
        exact ⟨x, rfl, isWordChar_of_isDecimalDigit (hword.count x List.mem_cons_self)⟩
  refine ⟨⟨.dice count faces, os⟩, ?_, ⟨count, faces, rfl⟩, hhead,
    hterms.append hword.compacts hleading, hconstant.append hword.compacts hembedded⟩
  exact List.forall_mem_cons.mpr ⟨hword.decimal, List.forall_mem_map.mpr hos⟩

/-- The search for a formula finds the one that the text begins with, up to a constant right behind
its dice. So it is the whole formula if and only if there is no other term. -/
theorem embeddedFormula?_eq_short {cs : List Char} {f : String} (h : leadingFormula? cs = some f)
    (hdice : 'd' ∈ f.toList) :
    ∃ s : Formula.Sum, (∀ o ∈ s.operands, o.Decimal) ∧
      (∃ count faces, s.first = .dice count faces) ∧ f = String.ofList s.text ∧
      embeddedFormula? cs = some (String.ofList s.short.text) ∧
      (embeddedFormula? cs = some f ↔
        s.more = [] ∨ ∃ negative digits, s.more = [(negative, .numeral digits)]) := by
  obtain ⟨past, rest, rfl, hpast, hrest⟩ := exists_append_blanks cs
  have hread := h
  rw [leadingFormula?_eq hpast hrest, Option.map_eq_some_iff] at hread
  obtain ⟨stop, hstop, hf⟩ := hread
  rw [leadingBody, seek_alt, seek_dice_terms] at hstop
  cases hterms : diceToken.seek (terms.seek wordStop) (.between past rest) with
  | none =>
      rw [hterms, Option.none_or] at hstop
      obtain ⟨ds, hds, hnumber⟩ := exists_number_of_seek hstop
      rw [← hf, hnumber, String.toList_ofList] at hdice
      exact absurd (hds 'd' hdice) (by decide)
  | some stop =>
      obtain ⟨s, hs, hfirst, hhead, hleading, hembedded⟩ := exists_stops_of_dice hterms
      have hfound := embeddedFormula?_of_stops hpast hhead hembedded
      have htext : f = String.ofList s.text := by
        rw [leadingFormula?_eq hpast hrest, hleading.cut] at h
        exact (Option.some.inj h).symm
      obtain ⟨os, hos, hshort⟩ := s.exists_text_eq
      refine ⟨s, hs, hfirst, htext, hfound, ?_⟩
      rw [hfound, htext, ← hshort, Option.some.injEq, String.ofList_inj, hos,
        List.self_eq_append_right, sumText]
      cases os <;> simp

theorem embeddedFormula?_eq_short_slashing :
    leadingFormula? "2d6 + 4 slashing".toList = some "2d6+4" ∧
      ∃ s : Formula.Sum, (∀ o ∈ s.operands, o.Decimal) ∧
        (∃ count faces, s.first = .dice count faces) ∧ "2d6+4" = String.ofList s.text ∧
        embeddedFormula? "2d6 + 4 slashing".toList = some (String.ofList s.short.text) ∧
        (embeddedFormula? "2d6 + 4 slashing".toList = some "2d6+4" ↔
          s.more = [] ∨ ∃ negative digits, s.more = [(negative, .numeral digits)]) := by
  have hleading : leadingFormula? "2d6 + 4 slashing".toList = some "2d6+4" := by decide
  exact ⟨hleading, embeddedFormula?_eq_short hleading (by decide)⟩

/-- Of a sum of two dice only the first pair is found. -/
theorem not_forall_embeddedFormula?_eq :
    ¬ ∀ cs f, leadingFormula? cs = some f → 'd' ∈ f.toList → embeddedFormula? cs = some f := by
  intro hall
  have hleading : leadingFormula? "1d6+1d4".toList = some "1d6+1d4" := by decide
  have hembedded : embeddedFormula? "1d6+1d4".toList = some "1d6" := by decide
  have hfound := hall _ _ hleading (by decide)
  rw [hembedded] at hfound
  exact absurd hfound (by decide)

end Prose

end Spellwork
