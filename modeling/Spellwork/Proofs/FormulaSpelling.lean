import Spellwork.Proofs.FormulaText

/-!
# How formulas are spelled

A formula is spelled as terms with signs in front of them, and blanks around the signs and at both
ends (`Spelling`). Every term but the first needs a sign. Nothing else is a formula: a text is read
exactly if it has a spelling, and it has at most one (`read_spelling`).

What stands behind a term is a sign, a blank or nothing (`Breaks`). None of these can belong to a
term, so a name or a numeral is always as long as it can be. That is what makes a reader that never
looks back find every term where it ends, and what makes spellings unique.
-/

namespace Spellwork

namespace Formula

/-! ## Spellings -/

def Blank (cs : List Char) : Prop :=
  ∀ c ∈ cs, Text.isBlank c = true

instance (cs : List Char) : Decidable (Blank cs) :=
  List.decidableBAll _ cs

/-- The text of a term: a name behind an at sign, dice with the letter between their numerals, of
which the first may be left out, or a numeral. -/
inductive Lexeme where
  | reference (key : List Char)
  | dice (count : List Char) (letter : Char) (faces : List Char)
  | numeral (digits : List Char)
deriving DecidableEq, Repr

namespace Lexeme

def text : Lexeme → List Char
  | reference key => '@' :: key
  | dice count letter faces => count ++ letter :: faces
  | numeral digits => digits

/-- Names have a character at least, numerals are in ASCII digits, and the numbers fit. -/
def Lawful : Lexeme → Prop
  | reference key => key ≠ [] ∧ ∀ c ∈ key, isKeyChar c = true
  | dice count letter faces =>
    (letter = 'd' ∨ letter = 'D') ∧ faces ≠ [] ∧ (Operand.dice count faces).Sound
  | numeral digits => digits ≠ [] ∧ (Operand.numeral digits).Sound

def term : Lexeme → Term
  | reference key => .reference (String.ofList key)
  | dice count _ faces => (Operand.dice count faces).term
  | numeral digits => (Operand.numeral digits).term

instance : (x : Lexeme) → Decidable x.Lawful
  | reference key => @instDecidableAnd _ _ inferInstance (List.decidableBAll _ key)
  | dice count letter faces =>
    inferInstanceAs (Decidable
      ((letter = 'd' ∨ letter = 'D') ∧ faces ≠ [] ∧ (Operand.dice count faces).Sound))
  | numeral digits => inferInstanceAs (Decidable (digits ≠ [] ∧ (Operand.numeral digits).Sound))

end Lexeme

/-- A sign and the blanks behind it. -/
structure Sign where
  minus : Bool
  blanks : List Char
deriving DecidableEq, Repr

def Sign.text (s : Sign) : List Char :=
  signOf s.minus :: s.blanks

/-- Signs make a term negative if an odd number of them are minus signs. -/
def negates (signs : List Sign) : Bool :=
  (signs.countP fun s => s.minus) % 2 = 1

/-- A term with its signs, and the blanks in front of them. -/
structure Summand where
  gap : List Char
  signs : List Sign
  lexeme : Lexeme
deriving DecidableEq, Repr

namespace Summand

def text (p : Summand) : List Char :=
  p.gap ++ (p.signs.flatMap Sign.text ++ p.lexeme.text)

structure Lawful (p : Summand) : Prop where
  gap : Blank p.gap
  signs : ∀ s ∈ p.signs, Blank s.blanks
  lexeme : p.lexeme.Lawful

instance (p : Summand) : Decidable p.Lawful :=
  decidable_of_iff (Blank p.gap ∧ (∀ s ∈ p.signs, Blank s.blanks) ∧ p.lexeme.Lawful)
    ⟨fun h => ⟨h.1, h.2.1, h.2.2⟩, fun h => ⟨h.gap, h.signs, h.lexeme⟩⟩

def term (p : Summand) : SignedTerm :=
  ⟨negates p.signs, p.lexeme.term⟩

end Summand

/-- Terms one after the other, and the blanks behind them. -/
structure Spelling where
  first : Summand
  later : List Summand
  trail : List Char
deriving DecidableEq, Repr

namespace Spelling

def text (l : Spelling) : List Char :=
  l.first.text ++ (l.later.flatMap Summand.text ++ l.trail)

/-- Every term but the first has a sign. -/
structure Lawful (l : Spelling) : Prop where
  first : l.first.Lawful
  later : ∀ p ∈ l.later, p.Lawful ∧ p.signs ≠ []
  trail : Blank l.trail

instance (l : Spelling) : Decidable l.Lawful :=
  decidable_of_iff (l.first.Lawful ∧ (∀ p ∈ l.later, p.Lawful ∧ p.signs ≠ []) ∧ Blank l.trail)
    ⟨fun h => ⟨h.1, h.2.1, h.2.2⟩, fun h => ⟨h.first, h.later, h.trail⟩⟩

def terms (l : Spelling) : List SignedTerm :=
  l.first.term :: l.later.map Summand.term

/-- The spelling is one of the text. -/
def Spells (l : Spelling) (source : String) : Prop :=
  l.Lawful ∧ l.text = source.toList

instance (l : Spelling) (source : String) : Decidable (l.Spells source) :=
  inferInstanceAs (Decidable (_ ∧ _))

end Spelling

/-! ## Where a term ends -/

theorem not_isBlank_of_isKeyChar {c : Char} (h : isKeyChar c = true) :
    Text.isBlank c = false := by
  have hrange : 65 ≤ c.toNat ∧ c.toNat ≤ 90 ∨ 97 ≤ c.toNat ∧ c.toNat ≤ 122 ∨
      48 ≤ c.toNat ∧ c.toNat ≤ 57 ∨ c.toNat = 95 ∨ c.toNat = 46 := by
    change (((decide (65 ≤ c.val ∧ c.val ≤ 90) || (decide (97 ≤ c.val) && decide (c.val ≤ 122))) ||
      (decide (48 ≤ c.val) && decide (c.val ≤ 57))) || decide (c = '_') || decide (c = '.')) =
        true at h
    simp only [Bool.or_eq_true, Bool.and_eq_true, decide_eq_true_eq, UInt32.le_iff_toNat_le] at h
    change ((((65 ≤ c.toNat ∧ c.toNat ≤ 90) ∨ (97 ≤ c.toNat ∧ c.toNat ≤ 122)) ∨
      (48 ≤ c.toNat ∧ c.toNat ≤ 57)) ∨ c = '_') ∨ c = '.' at h
    rcases h with (h | rfl) | rfl
    · omega
    · decide
    · decide
  have hspace : c ≠ ' ' := by
    rintro rfl
    exact absurd h (by decide)
  simp only [Text.isBlank, hspace, decide_false, Bool.false_or, Bool.or_eq_false_iff,
    Bool.and_eq_false_iff, decide_eq_false_iff_not]
  omega

/-- Nothing, a sign or a blank: what may stand behind a term. -/
def Breaks (cs : List Char) : Prop :=
  ∀ c ∈ cs.head?, IsSign c ∨ Text.isBlank c = true

theorem Breaks.parted {cs : List Char} (h : Breaks cs) : Parted cs := by
  intro c hc
  rcases h c hc with hsign | hblank
  · exact hsign.not_isKeyChar
  · cases hkey : isKeyChar c with
    | false => rfl
    | true =>
        rw [not_isBlank_of_isKeyChar hkey] at hblank
        cases hblank

theorem Blank.breaks {cs : List Char} (h : Blank cs) : Breaks cs := by
  intro c hc
  exact .inr (h c (List.mem_of_mem_head? hc))

theorem Breaks.blank_append {blanks cs : List Char} (hblanks : Blank blanks) (h : Breaks cs) :
    Breaks (blanks ++ cs) := by
  intro c hc
  cases blanks with
  | nil => exact h c hc
  | cons d blanks =>
      cases hc
      exact .inr (hblanks c List.mem_cons_self)

theorem breaks_sign (minus : Bool) (cs : List Char) : Breaks (signOf minus :: cs) := by
  intro c hc
  cases hc
  exact .inl (isSign_signOf minus)

theorem breaks_later {later : List Summand} (h : ∀ p ∈ later, p.Lawful ∧ p.signs ≠ [])
    {trail : List Char} (htrail : Blank trail) :
    Breaks (later.flatMap Summand.text ++ trail) := by
  cases later with
  | nil => exact htrail.breaks
  | cons p later =>
      obtain ⟨hp, hne⟩ := h p List.mem_cons_self
      obtain ⟨s, signs, hsigns⟩ := List.exists_cons_of_ne_nil hne
      rw [List.flatMap_cons, List.append_assoc, Summand.text, hsigns, List.append_assoc]
      exact .blank_append hp.gap (breaks_sign s.minus _)

/-! ## Where a term begins -/

/-- Neither a sign nor a blank, so the beginning of a term or of nothing. -/
def Begins (cs : List Char) : Prop :=
  ∀ c ∈ cs.head?, ¬ IsSign c ∧ Text.isBlank c = false

theorem Lexeme.Lawful.exists_head {x : Lexeme} (h : x.Lawful) :
    ∃ c cs, x.text = c :: cs ∧ ¬ IsSign c ∧ Text.isBlank c = false := by
  have hdigit : ∀ {c : Char}, c.isDigit = true → ¬ IsSign c ∧ Text.isBlank c = false :=
    fun hc => ⟨(inert_of_isDigit hc).1, (inert_of_isDigit hc).2.1⟩
  cases x with
  | reference key => exact ⟨'@', key, rfl, by decide, by decide⟩
  | dice count letter faces =>
      obtain ⟨hletter, -, hsound⟩ := h
      cases count with
      | nil =>
          refine ⟨letter, faces, rfl, ?_⟩
          rcases hletter with rfl | rfl <;> decide
      | cons d count =>
          exact ⟨d, count ++ letter :: faces, rfl, hdigit (hsound.1.1 d List.mem_cons_self)⟩
  | numeral digits =>
      obtain ⟨hne, hsound⟩ := h
      obtain ⟨d, digits, rfl⟩ := List.exists_cons_of_ne_nil hne
      exact ⟨d, digits, rfl, hdigit (hsound.1 d List.mem_cons_self)⟩

theorem Lexeme.Lawful.begins {x : Lexeme} (h : x.Lawful) (tail : List Char) :
    Begins (x.text ++ tail) := by
  obtain ⟨c, cs, htext, hc⟩ := h.exists_head
  rw [htext]
  intro d hd
  cases hd
  exact hc

/-- Behind the blanks of a sign stands the next sign, or the term. -/
theorem not_isBlank_signs {cs : List Char} (h : Begins cs) (signs : List Sign) :
    ∀ c ∈ (signs.flatMap Sign.text ++ cs).head?, Text.isBlank c = false := by
  intro c hc
  cases signs with
  | nil => exact (h c hc).2
  | cons s signs =>
      cases hc
      exact (isSign_signOf s.minus).not_isBlank

theorem skipBlanks_blank {blanks cs : List Char} (h : Blank blanks)
    (hcs : ∀ c ∈ cs.head?, Text.isBlank c = false) : skipBlanks (blanks ++ cs) = cs := by
  rw [skipBlanks, Text.dropWhile_append_of_all h, Text.dropWhile_eq_self hcs]

theorem Blank.skipBlanks_eq {cs : List Char} (h : Blank cs) : skipBlanks cs = [] :=
  List.dropWhile_eq_nil_iff.mpr h

/-- The blanks in front, which are dropped, and what is left. -/
theorem exists_blank (cs : List Char) : ∃ blanks, Blank blanks ∧ cs = blanks ++ skipBlanks cs :=
  ⟨cs.takeWhile Text.isBlank, fun _ hc => List.mem_takeWhile_imp hc,
    List.takeWhile_append_dropWhile.symm⟩

/-! ## Spellings are read -/

theorem readTerm_reference {key : List Char} (hne : key ≠ [])
    (hkey : ∀ c ∈ key, isKeyChar c = true) {tail : List Char} (h : Parted tail) (total : Nat) :
    readTerm total ('@' :: (key ++ tail)) = .ok (.reference (String.ofList key), tail) := by
  have htake : (key ++ tail).takeWhile isKeyChar = key := by
    rw [List.takeWhile_append_of_pos hkey, takeWhile_eq_nil h, List.append_nil]
  have hdrop : (key ++ tail).dropWhile isKeyChar = tail := by
    rw [Text.dropWhile_append_of_all hkey, Text.dropWhile_eq_self h]
  obtain ⟨c, cs, heq⟩ := List.exists_cons_of_ne_nil hne
  rw [readTerm, htake, hdrop, heq]

theorem Lexeme.Lawful.readTerm_text {x : Lexeme} (hx : x.Lawful) {tail : List Char}
    (h : Parted tail) (total : Nat) : readTerm total (x.text ++ tail) = .ok (x.term, tail) := by
  cases x with
  | reference key => exact readTerm_reference hx.1 hx.2 h total
  | numeral digits =>
      obtain ⟨hne, hdigits, hrange⟩ := hx
      rw [text, readTerm_numeral hne hdigits h, if_pos hrange]
      rfl
  | dice count letter faces =>
      obtain ⟨hletter, hne, ⟨hcount, hfaces⟩, hrange⟩ := hx
      refine eq_ok_of_toOption ?_
      rw [text, List.append_assoc, List.cons_append,
        toOption_readTerm_dice hletter hcount hne hfaces h, if_pos hrange]
      rfl

theorem negates_cons (s : Sign) (signs : List Sign) :
    negates (s :: signs) = (s.minus != negates signs) := by
  unfold negates
  rw [List.countP_cons]
  cases s.minus with
  | false => simp
  | true =>
      simp only [if_true, Bool.true_bne]
      by_cases hodd : (signs.countP fun s => s.minus) % 2 = 1
      · rw [decide_eq_true hodd, decide_eq_false (by omega)]
        rfl
      · rw [decide_eq_false hodd, decide_eq_true (by omega)]
        rfl

/-- Each sign is read, and the blanks behind it are dropped. -/
theorem readTerms_signs {x : Lexeme} (hx : x.Lawful) {tail : List Char} (h : Parted tail)
    {signs : List Sign} (hsigns : ∀ s ∈ signs, Blank s.blanks) (total : Nat) (negative : Bool) :
    readTerms total negative (signs.flatMap Sign.text ++ (x.text ++ tail)) =
      (readOn total tail).map (⟨negative != negates signs, x.term⟩ :: ·) := by
  -- the reader keeps whether the term is negative as far as it has read
  induction signs generalizing negative with
  | nil =>
      obtain ⟨c, cs, htext, hc, -⟩ := hx.exists_head
      have hread := hx.readTerm_text h total
      rw [htext, List.cons_append] at hread
      rw [List.flatMap_nil, List.nil_append, htext, List.cons_append,
        readTerms_of_ok hc hread negative]
      cases negative <;> rfl
  | cons s signs ih =>
      obtain ⟨hblanks, hrest⟩ := List.forall_mem_cons.mp hsigns
      have hminus : decide (signOf s.minus = '-') = s.minus := by
        cases s.minus <;> rfl
      rw [List.flatMap_cons, Sign.text, List.cons_append, List.cons_append, List.append_assoc,
        readTerms_sign (isSign_signOf s.minus), hminus,
        skipBlanks_blank hblanks (not_isBlank_signs (hx.begins tail) signs), ih hrest,
        negates_cons]
      cases negative <;> cases s.minus <;> cases negates signs <;> rfl

/-- The terms behind the first are read one after the other. -/
theorem readOn_later {later : List Summand} (h : ∀ p ∈ later, p.Lawful ∧ p.signs ≠ [])
    {trail : List Char} (htrail : Blank trail) (total : Nat) :
    readOn total (later.flatMap Summand.text ++ trail) = .ok (later.map Summand.term) := by
  induction later with
  | nil =>
      rw [List.flatMap_nil, List.nil_append, readOn, htrail.skipBlanks_eq]
      rfl
  | cons p later ih =>
      obtain ⟨⟨hp, hne⟩, hlater⟩ := List.forall_mem_cons.mp h
      obtain ⟨⟨minus, blanks⟩, signs, hsigns⟩ := List.exists_cons_of_ne_nil hne
      have hparted := (breaks_later hlater htrail).parted
      obtain ⟨hblanks, hrest⟩ := List.forall_mem_cons.mp (hsigns ▸ hp.signs)
      have hminus : decide (signOf minus = '-') = minus := by
        cases minus <;> rfl
      have hskip : skipBlanks ((p :: later).flatMap Summand.text ++ trail) =
          signOf minus :: (blanks ++ (signs.flatMap Sign.text ++
            (p.lexeme.text ++ (later.flatMap Summand.text ++ trail)))) := by
        rw [List.flatMap_cons, Summand.text, hsigns, List.flatMap_cons]
        simp only [List.append_assoc, Sign.text, List.cons_append]
        refine skipBlanks_blank hp.gap ?_
        intro c hc
        cases hc
        exact (isSign_signOf minus).not_isBlank
      rw [readOn_of_sign (isSign_signOf minus) hskip, hminus,
        skipBlanks_blank hblanks (not_isBlank_signs (hp.lexeme.begins _) signs),
        readTerms_signs hp.lexeme hparted hrest, ih hlater, List.map_cons, Summand.term, hsigns,
        negates_cons]
      rfl

theorem Spelling.Spells.read_eq {l : Spelling} {source : String} (h : l.Spells source) :
    read source = .ok ⟨source, l.terms⟩ := by
  obtain ⟨⟨hfirst, hlater, htrail⟩, htext⟩ := h
  have hskip : skipBlanks source.toList = l.first.signs.flatMap Sign.text ++
      (l.first.lexeme.text ++ (l.later.flatMap Summand.text ++ l.trail)) := by
    rw [← htext, text, Summand.text]
    simp only [List.append_assoc]
    exact skipBlanks_blank hfirst.gap (not_isBlank_signs (hfirst.lexeme.begins _) _)
  have hne : skipBlanks source.toList ≠ [] := by
    obtain ⟨c, cs, hcons, -⟩ := hfirst.lexeme.exists_head
    rw [hskip, hcons]
    exact List.append_ne_nil_of_right_ne_nil _ (List.cons_ne_nil _ _)
  rw [read_of_ne_nil hne, hskip,
    readTerms_signs hfirst.lexeme (breaks_later hlater htrail).parted hfirst.signs,
    readOn_later hlater htrail, Bool.false_bne]
  rfl

/-! ## What is read has a spelling -/

theorem exists_lexeme_of_constantTerm {digits rest left : List Char} {total : Nat} {t : Term}
    (hdigits : ∀ c ∈ digits, c.isDigit = true)
    (h : readTerm.constantTerm total
      (if digits = [] then none else some (Nat.ofDigitChars 10 digits 0)) rest = .ok (t, left)) :
    ∃ x : Lexeme, x.Lawful ∧ digits ++ rest = x.text ++ left ∧ t = x.term := by
  by_cases hnil : digits = []
  · rw [if_pos hnil] at h
    cases h
  · rw [if_neg hnil, readTerm.constantTerm] at h
    split at h
    · rename_i hrange
      cases h
      exact ⟨.numeral digits, ⟨hnil, hdigits, hrange⟩, rfl, rfl⟩
    · cases h

theorem exists_lexeme_of_diceTerm {count faces left : List Char} {letter : Char} {t : Term}
    (hletter : letter = 'd' ∨ letter = 'D') (hcount : ∀ c ∈ count, c.isDigit = true)
    (hne : faces ≠ []) (hfaces : ∀ c ∈ faces, c.isDigit = true)
    (h : diceTerm (if count = [] then none else some (Nat.ofDigitChars 10 count 0))
      (Nat.ofDigitChars 10 faces 0) = .ok t) :
    ∃ x : Lexeme, x.Lawful ∧ count ++ letter :: (faces ++ left) = x.text ++ left ∧ t = x.term := by
  have hoption := toOption_diceTerm count faces
  rw [h] at hoption
  by_cases hrange : (Operand.dice count faces).InRange
  · rw [if_pos hrange] at hoption
    refine ⟨.dice count letter faces, ⟨hletter, hne, ⟨hcount, hfaces⟩, hrange⟩, ?_,
      Option.some.inj hoption⟩
    rw [Lexeme.text, List.append_assoc, List.cons_append]
  · rw [if_neg hrange] at hoption
    cases hoption

theorem exists_lexeme_of_readTerm {total : Nat} {cs rest : List Char} {t : Term}
    (h : readTerm total cs = .ok (t, rest)) :
    ∃ x : Lexeme, x.Lawful ∧ cs = x.text ++ rest ∧ t = x.term := by
  by_cases hat : ∃ key, cs = '@' :: key
  · obtain ⟨key, rfl⟩ := hat
    rw [readTerm] at h
    split at h
    · cases h
    · rename_i hkey
      cases h
      refine ⟨.reference (key.takeWhile isKeyChar), ⟨hkey, fun c hc => List.mem_takeWhile_imp hc⟩,
        ?_, rfl⟩
      rw [Lexeme.text, List.cons_append, List.takeWhile_append_dropWhile]
  · have hne : ∀ c ∈ cs.head?, c ≠ '@' := by
      intro c hc heq
      obtain ⟨key, hkey⟩ := List.head?_eq_some_iff.mp hc
      exact hat ⟨key, heq ▸ hkey⟩
    rw [readTerm_of_head?_ne hne] at h
    cases hnumber : readNumber cs with
    | error e =>
        rw [hnumber] at h
        cases h
    | ok read =>
        obtain ⟨leading, mid⟩ := read
        rw [hnumber] at h
        obtain ⟨digits, hdigits, rfl, rfl⟩ := exists_digits_of_readNumber hnumber
        cases mid with
        | nil => exact exists_lexeme_of_constantTerm hdigits h
        | cons letter behind =>
            dsimp only at h
            by_cases hletter : letter = 'd' ∨ letter = 'D'
            · rw [if_pos hletter] at h
              cases hbehind : readNumber behind with
              | error e =>
                  rw [hbehind] at h
                  cases h
              | ok read =>
                  obtain ⟨faces?, left⟩ := read
                  rw [hbehind] at h
                  obtain ⟨faces, hfaces, rfl, rfl⟩ := exists_digits_of_readNumber hbehind
                  by_cases hnil : faces = []
                  · rw [if_pos hnil] at h
                    cases h
                  · rw [if_neg hnil] at h
                    obtain ⟨u, hdice, heq⟩ := eq_ok_of_map_eq_ok h
                    cases heq
                    exact exists_lexeme_of_diceTerm hletter hdigits hnil hfaces hdice
            · rw [if_neg hletter] at h
              exact exists_lexeme_of_constantTerm hdigits h

namespace Spelling

/-- The terms when there are further signs in front, which make a term negative or not. -/
def termsAfter (negative : Bool) (l : Spelling) : List SignedTerm :=
  ⟨negative != negates l.first.signs, l.first.lexeme.term⟩ :: l.later.map Summand.term

/-- A spelling of what is left of a text behind signs and blanks that have been read. -/
structure Rest (negative : Bool) (cs : List Char) (ts : List SignedTerm) (l : Spelling) : Prop where
  lawful : l.Lawful
  gap_eq : l.first.gap = []
  text_eq : l.text = cs
  terms_eq : l.termsAfter negative = ts

theorem Rest.last {x : Lexeme} (hx : x.Lawful) {trail : List Char} (htrail : Blank trail)
    (negative : Bool) :
    Rest negative (x.text ++ trail) [⟨negative, x.term⟩] ⟨⟨[], [], x⟩, [], trail⟩ where
  lawful := ⟨⟨fun _ hc => absurd hc List.not_mem_nil, fun _ hs => absurd hs List.not_mem_nil, hx⟩,
    fun _ hp => absurd hp List.not_mem_nil, htrail⟩
  gap_eq := rfl
  text_eq := rfl
  terms_eq := by
    cases negative <;> rfl

/-- One more sign in front. -/
theorem Rest.sign (negative minus : Bool) {cs : List Char} {ts : List SignedTerm} {l : Spelling}
    (h : Rest (negative != minus) (skipBlanks cs) ts l) :
    ∃ l', Rest negative (signOf minus :: cs) ts l' ∧ l'.first.signs ≠ [] := by
  obtain ⟨⟨⟨gap, signs, x⟩, later, trail⟩, hlawful, hgap, htext, hterms⟩ := l, h
  obtain ⟨blanks, hblanks, hcs⟩ := exists_blank cs
  cases hgap
  refine ⟨⟨⟨[], ⟨minus, blanks⟩ :: signs, x⟩, later, trail⟩, ⟨⟨⟨hlawful.first.gap, ?_,
    hlawful.first.lexeme⟩, hlawful.later, hlawful.trail⟩, rfl, ?_, ?_⟩, List.cons_ne_nil _ _⟩
  · exact List.forall_mem_cons.mpr ⟨hblanks, hlawful.first.signs⟩
  · rw [hcs, ← htext]
    simp only [text, Summand.text, Sign.text, List.flatMap_cons, List.nil_append, List.cons_append,
      List.append_assoc]
  · rw [← hterms]
    simp only [termsAfter, negates_cons]
    cases negative <;> cases minus <;> cases negates signs <;> rfl

/-- One more term in front, and blanks behind it. -/
theorem Rest.cons {x : Lexeme} (hx : x.Lawful) {cs : List Char} {ts : List SignedTerm}
    {l : Spelling} (h : Rest false (skipBlanks cs) ts l) (hsigns : l.first.signs ≠ [])
    (negative : Bool) :
    ∃ l', Rest negative (x.text ++ cs) (⟨negative, x.term⟩ :: ts) l' := by
  obtain ⟨⟨⟨gap, signs, y⟩, later, trail⟩, hlawful, hgap, htext, hterms⟩ := l, h
  obtain ⟨blanks, hblanks, hcs⟩ := exists_blank cs
  cases hgap
  have hsecond : Summand.Lawful ⟨blanks, signs, y⟩ :=
    ⟨hblanks, hlawful.first.signs, hlawful.first.lexeme⟩
  refine ⟨⟨⟨[], [], x⟩, ⟨blanks, signs, y⟩ :: later, trail⟩, ⟨⟨hlawful.first.gap,
    fun _ hs => absurd hs List.not_mem_nil, hx⟩, ?_, hlawful.trail⟩, rfl, ?_, ?_⟩
  · exact List.forall_mem_cons.mpr ⟨⟨hsecond, hsigns⟩, hlawful.later⟩
  · rw [hcs, ← htext]
    simp only [text, Summand.text, List.flatMap_cons, List.flatMap_nil, List.nil_append,
      List.append_assoc]
  · rw [← hterms]
    simp only [termsAfter, List.map_cons, Summand.term, Bool.false_bne]
    cases negative <;> rfl

theorem exists_rest_of_readTerms {total : Nat} {negative : Bool} {cs : List Char}
    {ts : List SignedTerm} (h : readTerms total negative cs = .ok ts) :
    ∃ l, Rest negative cs ts l := by
  -- a sign is put in front of what is read behind it, and a term in front of the sign behind it
  fun_induction readTerms total negative cs generalizing ts with
  | case1 => cases h
  | case2 negative rest ih =>
      obtain ⟨l, hl⟩ := ih h
      obtain ⟨l', hl', -⟩ := Rest.sign negative false (by rwa [Bool.bne_false])
      exact ⟨l', hl'⟩
  | case3 negative rest ih =>
      obtain ⟨l, hl⟩ := ih h
      obtain ⟨l', hl', -⟩ := Rest.sign negative true (by rwa [Bool.bne_true])
      exact ⟨l', hl'⟩
  | case4 => cases h
  | case5 negative c tail _ _ term rest hterm hblanks =>
      cases h
      obtain ⟨x, hx, htext, rfl⟩ := exists_lexeme_of_readTerm hterm
      rw [htext]
      exact ⟨_, .last hx (List.dropWhile_eq_nil_iff.mp hblanks) negative⟩
  | case6 negative c tail _ _ term rest hterm more hblanks ih =>
      obtain ⟨us, hus, rfl⟩ := eq_ok_of_map_eq_ok h
      obtain ⟨x, hx, htext, rfl⟩ := exists_lexeme_of_readTerm hterm
      obtain ⟨l, hl⟩ := ih hus
      obtain ⟨l', hl', hsigns⟩ := hl.sign false false
      rw [htext]
      exact Rest.cons hx (hblanks ▸ hl') hsigns negative
  | case7 negative c tail _ _ term rest hterm more hblanks ih =>
      obtain ⟨us, hus, rfl⟩ := eq_ok_of_map_eq_ok h
      obtain ⟨x, hx, htext, rfl⟩ := exists_lexeme_of_readTerm hterm
      obtain ⟨l, hl⟩ := ih hus
      obtain ⟨l', hl', hsigns⟩ := hl.sign false true
      rw [htext]
      exact Rest.cons hx (hblanks ▸ hl') hsigns negative
  | case8 => cases h

theorem exists_spells_of_read {source : String} {f : Formula} (h : read source = .ok f) :
    ∃ l : Spelling, l.Spells source := by
  obtain ⟨⟨⟨gap, signs, x⟩, later, trail⟩, hlawful, hgap, htext, -⟩ :=
    exists_rest_of_readTerms (readTerms_of_read h).2
  obtain ⟨blanks, hblanks, hsource⟩ := exists_blank source.toList
  cases hgap
  refine ⟨⟨⟨blanks, signs, x⟩, later, trail⟩, ⟨⟨hblanks, hlawful.first.signs,
    hlawful.first.lexeme⟩, hlawful.later, hlawful.trail⟩, ?_⟩
  rw [hsource, ← htext]
  simp only [text, Summand.text, List.nil_append, List.append_assoc]

end Spelling

/-! ## There is one spelling -/

/-- A run of a class in front of what does not belong to the class is found again. -/
theorem eq_of_append_eq {p : Char → Bool} {xs ys as bs : List Char} (hx : ∀ c ∈ xs, p c = true)
    (hy : ∀ c ∈ ys, p c = true) (ha : ∀ c ∈ as.head?, p c = false)
    (hb : ∀ c ∈ bs.head?, p c = false) (h : xs ++ as = ys ++ bs) : xs = ys ∧ as = bs := by
  have htake := congrArg (List.takeWhile p) h
  rw [List.takeWhile_append_of_pos hx, List.takeWhile_append_of_pos hy, takeWhile_eq_nil ha,
    takeWhile_eq_nil hb, List.append_nil, List.append_nil] at htake
  subst htake
  exact ⟨rfl, List.append_cancel_left h⟩

namespace Lexeme

/-- A character of a term. -/
def isChar (c : Char) : Bool :=
  isKeyChar c || c = '@'

theorem isChar_of_isDigit {c : Char} (h : c.isDigit = true) : isChar c = true := by
  simp [isChar, isKeyChar, Char.isAlphanum, h]

theorem Lawful.isChar_of_mem {x : Lexeme} (h : x.Lawful) : ∀ c ∈ x.text, isChar c = true := by
  intro c hc
  cases x with
  | reference key =>
      rcases List.mem_cons.mp hc with rfl | hc
      · rfl
      · simp [isChar, h.2 c hc]
  | dice count letter faces =>
      obtain ⟨hletter, -, hsound⟩ := h
      rcases List.mem_append.mp hc with hc | hc
      · exact isChar_of_isDigit (hsound.1.1 c hc)
      · rcases List.mem_cons.mp hc with rfl | hc
        · rcases hletter with rfl | rfl <;> rfl
        · exact isChar_of_isDigit (hsound.1.2 c hc)
  | numeral digits => exact isChar_of_isDigit (h.2.1 c hc)

theorem isChar_of_breaks {cs : List Char} (h : Breaks cs) : ∀ c ∈ cs.head?, isChar c = false := by
  intro c hc
  have hkey := h.parted c hc
  have hat : c ≠ '@' := by
    rintro rfl
    exact absurd (h '@' hc) (by decide)
  simp [isChar, hkey, hat]

/-- A name stands behind an at sign, and nothing else does. -/
theorem Lawful.at_not_mem {x : Lexeme} (h : x.Lawful) (hx : ∀ key, x ≠ .reference key) :
    '@' ∉ x.text := by
  have hdigit : ¬ '@'.isDigit = true := by decide
  intro hat
  cases x with
  | reference key => exact hx key rfl
  | dice count letter faces =>
      obtain ⟨hletter, -, hsound⟩ := h
      rcases List.mem_append.mp hat with hat | hat
      · exact hdigit (hsound.1.1 _ hat)
      · rcases List.mem_cons.mp hat with rfl | hat
        · rcases hletter with heq | heq <;> exact absurd heq (by decide)
        · exact hdigit (hsound.1.2 _ hat)
  | numeral digits => exact hdigit (h.2.1 _ hat)

theorem not_isDigit_of_letter {letter : Char} (h : letter = 'd' ∨ letter = 'D') (cs : List Char) :
    ∀ c ∈ (letter :: cs).head?, c.isDigit = false := by
  intro c hc
  cases hc
  rcases h with rfl | rfl <;> rfl

theorem dice_text_ne_numeral_text {count faces digits : List Char} {letter : Char}
    (h : (dice count letter faces).Lawful) (hdigits : (numeral digits).Lawful) :
    (dice count letter faces).text ≠ (numeral digits).text := by
  intro heq
  have hmem : letter ∈ digits := by
    rw [show digits = count ++ letter :: faces from heq.symm]
    exact List.mem_append_right _ List.mem_cons_self
  have hletter := not_isDigit_of_letter h.1 [] letter rfl
  rw [hdigits.2.1 letter hmem] at hletter
  cases hletter

theorem Lawful.eq_of_text {x y : Lexeme} (hx : x.Lawful) (hy : y.Lawful) (h : x.text = y.text) :
    x = y := by
  have hat : ∀ {key : List Char} {z : Lexeme}, z.Lawful → (reference key).text = z.text →
      ∃ key, z = .reference key := by
    intro key z hz heq
    by_contra hne
    refine hz.at_not_mem (fun key hkey => hne ⟨key, hkey⟩) ?_
    rw [← heq]
    exact List.mem_cons_self
  cases x with
  | reference key =>
      obtain ⟨key', rfl⟩ := hat hy h
      exact congrArg reference (List.cons.inj h).2
  | dice count letter faces =>
      cases y with
      | reference key =>
          obtain ⟨key', hkey⟩ := hat hx h.symm
          cases hkey
      | dice count' letter' faces' =>
          obtain ⟨rfl, hrest⟩ := eq_of_append_eq hx.2.2.1.1 hy.2.2.1.1
            (not_isDigit_of_letter hx.1 faces) (not_isDigit_of_letter hy.1 faces') h
          obtain ⟨rfl, rfl⟩ := List.cons.inj hrest
          rfl
      | numeral digits => exact absurd h (dice_text_ne_numeral_text hx hy)
  | numeral digits =>
      cases y with
      | reference key =>
          obtain ⟨key', hkey⟩ := hat hx h.symm
          cases hkey
      | dice count letter faces => exact absurd h.symm (dice_text_ne_numeral_text hy hx)
      | numeral digits' => exact congrArg numeral h

theorem Lawful.eq_of_append {x y : Lexeme} (hx : x.Lawful) (hy : y.Lawful)
    {tail tail' : List Char} (htail : Breaks tail) (htail' : Breaks tail')
    (h : x.text ++ tail = y.text ++ tail') : x = y ∧ tail = tail' := by
  obtain ⟨htext, hrest⟩ := eq_of_append_eq hx.isChar_of_mem hy.isChar_of_mem
    (isChar_of_breaks htail) (isChar_of_breaks htail') h
  exact ⟨hx.eq_of_text hy htext, hrest⟩

end Lexeme

theorem signOf_inj {a b : Bool} (h : signOf a = signOf b) : a = b := by
  cases a <;> cases b <;> first | rfl | exact absurd h (by decide)

theorem Begins.ne_sign {cs : List Char} (h : Begins cs) (minus : Bool) (more : List Char) :
    cs ≠ signOf minus :: more := by
  rintro rfl
  exact (h (signOf minus) rfl).1 (isSign_signOf minus)

theorem signs_eq_of_append {signs signs' : List Sign} (hsigns : ∀ s ∈ signs, Blank s.blanks)
    (hsigns' : ∀ s ∈ signs', Blank s.blanks) {cs cs' : List Char} (hcs : Begins cs)
    (hcs' : Begins cs')
    (h : signs.flatMap Sign.text ++ cs = signs'.flatMap Sign.text ++ cs') :
    signs = signs' ∧ cs = cs' := by
  induction signs generalizing signs' with
  | nil =>
      cases signs' with
      | nil => exact ⟨rfl, h⟩
      | cons s signs' => exact absurd h (hcs.ne_sign s.minus _)
  | cons s signs ih =>
      cases signs' with
      | nil => exact absurd h.symm (hcs'.ne_sign s.minus _)
      | cons s' signs' =>
          obtain ⟨hblanks, hrest⟩ := List.forall_mem_cons.mp hsigns
          obtain ⟨hblanks', hrest'⟩ := List.forall_mem_cons.mp hsigns'
          simp only [List.flatMap_cons, Sign.text, List.cons_append, List.append_assoc] at h
          obtain ⟨hsign, hbehind⟩ := List.cons.inj h
          obtain ⟨heq, hmore⟩ := eq_of_append_eq hblanks hblanks'
            (not_isBlank_signs hcs signs) (not_isBlank_signs hcs' signs') hbehind
          obtain ⟨rfl, rfl⟩ := ih hrest hrest' hmore
          obtain ⟨minus, blanks⟩ := s
          obtain ⟨minus', blanks'⟩ := s'
          cases signOf_inj hsign
          cases heq
          exact ⟨rfl, rfl⟩

theorem Summand.Lawful.eq_of_append {p q : Summand} (hp : p.Lawful) (hq : q.Lawful)
    {tail tail' : List Char} (htail : Breaks tail) (htail' : Breaks tail')
    (h : p.text ++ tail = q.text ++ tail') : p = q ∧ tail = tail' := by
  obtain ⟨gap, signs, x⟩ := p
  obtain ⟨gap', signs', y⟩ := q
  simp only [text, List.append_assoc] at h
  have hx := hp.lexeme.begins tail
  have hy := hq.lexeme.begins tail'
  obtain ⟨rfl, hbehind⟩ := eq_of_append_eq hp.gap hq.gap (not_isBlank_signs hx signs)
    (not_isBlank_signs hy signs') h
  obtain ⟨rfl, hterm⟩ := signs_eq_of_append hp.signs hq.signs hx hy hbehind
  obtain ⟨rfl, rfl⟩ := hp.lexeme.eq_of_append hq.lexeme htail htail' hterm
  exact ⟨rfl, rfl⟩

/-- Where only blanks are left, no term with a sign can follow. -/
theorem Blank.ne_later {trail : List Char} (h : Blank trail) {p : Summand} (hp : p.signs ≠ [])
    (later : List Summand) (more : List Char) :
    trail ≠ (p :: later).flatMap Summand.text ++ more := by
  rintro rfl
  obtain ⟨s, signs, hsigns⟩ := List.exists_cons_of_ne_nil hp
  have hmem : signOf s.minus ∈ (p :: later).flatMap Summand.text ++ more := by
    simp [Summand.text, hsigns, Sign.text]
  have hblank := h _ hmem
  rw [(isSign_signOf s.minus).not_isBlank] at hblank
  cases hblank

theorem later_eq_of_append {later later' : List Summand}
    (h : ∀ p ∈ later, p.Lawful ∧ p.signs ≠ []) (h' : ∀ p ∈ later', p.Lawful ∧ p.signs ≠ [])
    {trail trail' : List Char} (htrail : Blank trail) (htrail' : Blank trail')
    (heq : later.flatMap Summand.text ++ trail = later'.flatMap Summand.text ++ trail') :
    later = later' ∧ trail = trail' := by
  induction later generalizing later' with
  | nil =>
      cases later' with
      | nil => exact ⟨rfl, heq⟩
      | cons p later' =>
          exact absurd heq (htrail.ne_later (h' p List.mem_cons_self).2 later' trail')
  | cons p later ih =>
      cases later' with
      | nil => exact absurd heq.symm (htrail'.ne_later (h p List.mem_cons_self).2 later trail)
      | cons p' later' =>
          obtain ⟨hp, hlater⟩ := List.forall_mem_cons.mp h
          obtain ⟨hp', hlater'⟩ := List.forall_mem_cons.mp h'
          rw [List.flatMap_cons, List.flatMap_cons, List.append_assoc, List.append_assoc] at heq
          obtain ⟨rfl, hmore⟩ := hp.1.eq_of_append hp'.1 (breaks_later hlater htrail)
            (breaks_later hlater' htrail') heq
          obtain ⟨rfl, rfl⟩ := ih hlater hlater' hmore
          exact ⟨rfl, rfl⟩

theorem Spelling.Lawful.eq_of_text {l l' : Spelling} (h : l.Lawful) (h' : l'.Lawful)
    (heq : l.text = l'.text) : l = l' := by
  obtain ⟨first, later, trail⟩ := l
  obtain ⟨first', later', trail'⟩ := l'
  obtain ⟨rfl, hbehind⟩ := h.first.eq_of_append h'.first (breaks_later h.later h.trail)
    (breaks_later h'.later h'.trail) heq
  obtain ⟨rfl, rfl⟩ := later_eq_of_append h.later h'.later h.trail h'.trail hbehind
  rfl

/-- A text is a formula exactly if it has a spelling, the terms are those of the spelling, and there
is only one. -/
theorem read_spelling (source : String) :
    (∀ f, read source = .ok f ↔ ∃ l : Spelling, l.Spells source ∧ f = ⟨source, l.terms⟩) ∧
      ∀ l l' : Spelling, l.Spells source → l'.Spells source → l = l' := by
  refine ⟨fun f => ⟨fun h => ?_, ?_⟩, ?_⟩
  · obtain ⟨l, hl⟩ := Spelling.exists_spells_of_read h
    exact ⟨l, hl, Except.ok.inj (h.symm.trans hl.read_eq)⟩
  · rintro ⟨l, hl, rfl⟩
    exact hl.read_eq
  · intro l l' hl hl'
    exact hl.1.eq_of_text hl'.1 (hl.2.trans hl'.2.symm)

/-- Two minus signs add the dice, and a minus and a plus sign take the value away. -/
def signedSpelling : Spelling where
  first := ⟨[' '], [⟨true, []⟩, ⟨true, [' ']⟩], .dice ['2'] 'D' ['0', '6']⟩
  later := [⟨[' '], [⟨true, []⟩, ⟨false, [' ']⟩], .reference ['f', 'i', 'r', 'e', '.', 'x']⟩]
  trail := [' ']

theorem read_spelling_signed :
    signedSpelling.Spells " -- 2D06 -+ @fire.x " ∧
      read " -- 2D06 -+ @fire.x " = .ok ⟨" -- 2D06 -+ @fire.x ",
        [⟨false, .dice 2 6⟩, ⟨true, .reference "fire.x"⟩]⟩ ∧
      ∀ l : Spelling, l.Spells " -- 2D06 -+ @fire.x " → l = signedSpelling := by
  have hspells : signedSpelling.Spells " -- 2D06 -+ @fire.x " := by decide
  obtain ⟨hread, hunique⟩ := read_spelling " -- 2D06 -+ @fire.x "
  exact ⟨hspells, (hread _).mpr ⟨signedSpelling, hspells, by decide⟩,
    fun l hl => hunique l signedSpelling hl hspells⟩

end Formula

end Spellwork
