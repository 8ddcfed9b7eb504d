import Spellwork.Proofs.FormulaSpelling
import Spellwork.Proofs.RollSums

/-!
# Printed formulas

The text of a formula is read again term by term: between two terms stand a blank, the sign and a
blank, so every term ends where it was printed to end. A negative constant brings a sign of its own,
and is read without it as a term of the opposite sign (`SignedTerm.settled`), which counts the same
in every sum. The least integer has no positive counterpart: a formula that holds it is printed, but
not read (`readTerms_termsText`).

No term that was read brings a sign of its own. So a formula that was read is read from its printed
text with the terms that it has, and that text is a canonical one (`read_text_of_read`).

What a roll tells of its formula is that text, with constants in the place of references; so the
text is enough to roll again (`read_text_resolve`).
-/

namespace Spellwork

/-! ## Negation in 64 bits -/

theorem toInt_neg_of_ne_minValue {n : Int64} (h : n ≠ Int64.minValue) :
    (-n).toInt = -n.toInt := by
  have hne : n.toInt ≠ -2 ^ 63 := fun heq =>
    h (Int64.toInt_inj.mp (heq.trans Int64.toInt_minValue.symm))
  have low := n.le_toInt
  have high := n.toInt_lt
  rw [Int64.toInt_neg]
  exact Int.bmod_eq_of_le (by omega) (by omega)

theorem addClamped_neg {n : Int64} (h : n ≠ Int64.minValue) (total : Int64) :
    addClamped total (-n) = subClamped total n := by
  unfold addClamped subClamped
  rw [toInt_neg_of_ne_minValue h, Int.sub_eq_add_neg]

theorem subClamped_neg {n : Int64} (h : n ≠ Int64.minValue) (total : Int64) :
    subClamped total (-n) = addClamped total n := by
  unfold addClamped subClamped
  rw [toInt_neg_of_ne_minValue h, Int.sub_neg]

/-- A term as it is read from its own text. -/
def SignedTerm.settled (t : SignedTerm) : SignedTerm :=
  match t.term with
  | .constant n => if n.toInt < 0 then ⟨!t.negative, .constant (-n)⟩ else t
  | _ => t

theorem settled_cases (t : SignedTerm) :
    (∃ n, t.term = .constant n ∧ n.toInt < 0 ∧ t.settled = ⟨!t.negative, .constant (-n)⟩) ∨
      (∀ n, t.term = .constant n → 0 ≤ n.toInt) ∧ t.settled = t := by
  obtain ⟨negative, term⟩ := t
  cases term with
  | dice count faces => exact .inr ⟨fun _ hn => (nomatch hn), rfl⟩
  | reference key => exact .inr ⟨fun _ hn => (nomatch hn), rfl⟩
  | constant n =>
      by_cases hneg : n.toInt < 0
      · exact .inl ⟨n, rfl, hneg, if_pos hneg⟩
      · refine .inr ⟨?_, if_neg hneg⟩
        intro m hm
        cases hm
        exact Int.not_lt.mp hneg

namespace Formula

/-! ## Terms that are read -/

/-- A term that its text stands for: dice with faces, a constant without a sign, a reference with a
name. -/
def Legible : Term → Prop
  | .dice _ faces => faces ≠ 0
  | .constant n => 0 ≤ n.toInt
  | .reference key => key.toList ≠ [] ∧ ∀ c ∈ key.toList, isKeyChar c = true

theorem Lexeme.Lawful.legible {x : Lexeme} (h : x.Lawful) : Legible x.term := by
  cases x with
  | reference key =>
      show (String.ofList key).toList ≠ [] ∧ _
      rw [String.toList_ofList]
      exact h
  | dice count letter faces =>
      obtain ⟨-, hpos, hfaces⟩ := h.2.2.2
      intro hzero
      have hnat := UInt32.toNat_ofNat_of_lt' hfaces
      rw [hzero] at hnat
      exact Nat.ne_of_lt hpos hnat
  | numeral digits =>
      have hrange : Nat.ofDigitChars 10 digits 0 ≤ 0x7fffffffffffffff := h.2.2
      have hint := Int64.toInt_ofNat_of_lt (Nat.lt_succ_of_le hrange)
      show 0 ≤ (Int64.ofNat (Nat.ofDigitChars 10 digits 0)).toInt
      rw [hint]
      exact Int.natCast_nonneg _

theorem Spelling.Lawful.legible {l : Spelling} (h : l.Lawful) : ∀ t ∈ l.terms, Legible t.term := by
  intro t ht
  rcases List.mem_cons.mp ht with rfl | ht
  · exact h.first.lexeme.legible
  · obtain ⟨p, hp, rfl⟩ := List.mem_map.mp ht
    exact (h.later p hp).1.lexeme.legible

/-- What is read has terms, and each of them is legible. -/
theorem legible_of_read {source : String} {f : Formula} (h : read source = .ok f) :
    f.terms ≠ [] ∧ ∀ t ∈ f.terms, Legible t.term := by
  obtain ⟨l, hl⟩ := Spelling.exists_spells_of_read h
  obtain rfl := Except.ok.inj (h.symm.trans hl.read_eq)
  exact ⟨List.cons_ne_nil _ _, hl.1.legible⟩

/-- A term that can be printed so that it is read again, up to the sign of a constant and the least
integer. -/
def Printable (t : Term) : Prop :=
  Legible t ∨ ∃ n, t = .constant n

/-! ## The text of one term -/

theorem parted_laterTexts (ts : List SignedTerm) : Parted (ts.flatMap laterText) := by
  intro c hc
  cases ts with
  | nil => cases hc
  | cons t ts =>
      cases hc
      rfl

section Parted

variable {tail : List Char}

/-- A printed natural is read as a constant, if it is not too large for one. -/
theorem readTerm_natText (h : Parted tail) (total n : Nat) :
    readTerm total (Text.natText n ++ tail) =
      if n ≤ 0x7fffffffffffffff then .ok (.constant (Int64.ofNat n), tail)
      else .error .overflow := by
  have hdigits : ∀ c ∈ Text.natText n, c.isDigit = true := fun _ hc =>
    Text.isDigit_of_mem_natText hc
  have hterm : (Operand.numeral (Text.natText n)).term = .constant (Int64.ofNat n) :=
    Operand.term_ofNat n
  rw [readTerm_numeral (Text.natText_ne_nil n) hdigits h, hterm]
  simp only [Operand.InRange, Operand.ofDigitChars_natText]

theorem readTerm_diceText (h : Parted tail) (total : Nat) (count faces : UInt32)
    (hfaces : faces ≠ 0) :
    readTerm total (termText (.dice count faces) ++ tail) = .ok (.dice count faces, tail) := by
  have hpos : 0 < faces.toNat := Nat.pos_of_ne_zero fun hzero =>
    hfaces (UInt32.toNat_inj.mp hzero)
  have hsound : (Operand.ofDice count.toNat faces.toNat).Sound :=
    Operand.sound_ofDice.mpr ⟨count.toNat_lt, hpos, faces.toNat_lt⟩
  have hread := toOption_readTerm_operand (Operand.written_ofDice count.toNat faces.toNat)
    hsound.1 h total
  rw [if_pos hsound.2, Operand.term_ofDice] at hread
  exact eq_ok_of_toOption hread

theorem readTerm_termText {t : Term} (ht : Legible t) (h : Parted tail) (total : Nat) :
    readTerm total (termText t ++ tail) = .ok (t, tail) := by
  cases t with
  | dice count faces => exact readTerm_diceText h total count faces ht
  | reference key =>
      have hread := readTerm_reference ht.1 ht.2 h total
      rwa [String.ofList_toList] at hread
  | constant n =>
      have hlow : 0 ≤ n.toInt := ht
      have hhigh := n.toInt_lt
      have hval : Int64.ofNat n.toInt.toNat = n := by
        rw [← Int64.ofInt_eq_ofNat, Int.toNat_of_nonneg hlow, Int64.ofInt_toInt]
      rw [termText, Text.intText_of_nonneg hlow, readTerm_natText h, if_pos (by omega), hval]

/-- The text of a legible term begins with neither a sign nor a blank. -/
theorem head_termText {t : Term} (ht : Legible t) :
    ∃ c cs, termText t = c :: cs ∧ ¬ IsSign c ∧ Text.isBlank c = false := by
  have hnat : ∀ n rest, ∃ c cs, Text.natText n ++ rest = c :: cs ∧ ¬ IsSign c ∧
      Text.isBlank c = false := by
    intro n rest
    obtain ⟨c, cs, heq, hc⟩ := Text.natText_eq_cons n
    exact ⟨c, cs ++ rest, by rw [heq, List.cons_append], (inert_of_isDigit hc).1,
      (inert_of_isDigit hc).2.1⟩
  cases t with
  | dice count faces => exact hnat count.toNat ('d' :: Text.natText faces.toNat)
  | reference key => exact ⟨'@', key.toList, rfl, by decide, by decide⟩
  | constant n =>
      rw [termText, Text.intText_of_nonneg ht, ← List.append_nil (Text.natText _)]
      exact hnat n.toInt.toNat []

theorem readTerms_legible {t : Term} (ht : Legible t) (h : Parted tail) (total : Nat)
    (negative : Bool) :
    readTerms total negative (termText t ++ tail) =
      (readOn total tail).map (⟨negative, t⟩ :: ·) := by
  obtain ⟨c, cs, heq, hsign, -⟩ := head_termText ht
  have hread := readTerm_termText ht h total
  rw [heq] at hread ⊢
  exact readTerms_of_ok hsign hread negative

/-- A negative constant is read as a sign and the text of its counterpart. -/
theorem readTerms_negative {n : Int64} (hneg : n.toInt < 0) (h : Parted tail) (total : Nat)
    (negative : Bool) :
    readTerms total negative (termText (.constant n) ++ tail) =
      if n = Int64.minValue then .error .overflow
      else (readOn total tail).map (⟨!negative, .constant (-n)⟩ :: ·) := by
  have hminus : (negative != decide ('-' = '-')) = !negative := by
    cases negative <;> rfl
  obtain ⟨c, cs, heq, hc⟩ := Text.natText_eq_cons (-n.toInt).toNat
  have hplain := inert_of_isDigit hc
  have hblank : skipBlanks (Text.natText (-n.toInt).toNat ++ tail) =
      Text.natText (-n.toInt).toNat ++ tail := by
    refine Text.dropWhile_eq_self fun d hd => ?_
    rw [heq] at hd
    cases hd
    exact hplain.2.1
  have hread := readTerm_natText h total (-n.toInt).toNat
  rw [termText, Text.intText_of_neg hneg, List.cons_append, readTerms_sign (.inr rfl), hminus,
    hblank]
  by_cases hmin : n = Int64.minValue
  · rw [if_pos hmin]
    rw [if_neg (by rw [hmin]; decide), heq] at hread
    rw [heq]
    exact readTerms_of_error hplain.1 hread _
  · have hlow : (-n).toInt = -n.toInt := toInt_neg_of_ne_minValue hmin
    have hhigh := (-n).toInt_lt
    have hval : Int64.ofNat (-n.toInt).toNat = -n := by
      rw [← hlow, ← Int64.ofInt_eq_ofNat, Int.toNat_of_nonneg (by omega), Int64.ofInt_toInt]
    rw [if_neg hmin]
    rw [if_pos (by omega), hval, heq] at hread
    rw [heq]
    exact readTerms_of_ok hplain.1 hread _

/-- Every term but a constant with a sign of its own is read as it is. Of constants, only the least
integer cannot be read. -/
theorem readTerms_termText {t : SignedTerm} (ht : Printable t.term) (h : Parted tail)
    (total : Nat) :
    readTerms total t.negative (termText t.term ++ tail) =
      if t.term = .constant Int64.minValue then .error .overflow
      else (readOn total tail).map (t.settled :: ·) := by
  rcases settled_cases t with ⟨n, hterm, hneg, hsettled⟩ | ⟨hpos, hsettled⟩
  · rw [hterm, readTerms_negative hneg h, hsettled]
    by_cases hmin : n = Int64.minValue
    · rw [if_pos hmin, if_pos (congrArg Term.constant hmin)]
    · rw [if_neg hmin, if_neg fun heq => hmin (Term.constant.inj heq)]
  · have hlegible : Legible t.term := by
      rcases ht with ht | ⟨n, hn⟩
      · exact ht
      · rw [hn]
        exact hpos n hn
    have hmin : t.term ≠ .constant Int64.minValue := fun heq =>
      absurd (hpos _ heq) (by decide)
    rw [readTerms_legible hlegible h, hsettled, if_neg hmin]

theorem skipBlanks_termText {t : Term} (ht : Printable t) (tail : List Char) :
    skipBlanks (termText t ++ tail) = termText t ++ tail := by
  have hhead : ∃ c cs, termText t = c :: cs ∧ Text.isBlank c = false := by
    by_cases hlegible : Legible t
    · obtain ⟨c, cs, heq, -, hc⟩ := head_termText hlegible
      exact ⟨c, cs, heq, hc⟩
    · obtain ⟨n, rfl⟩ := ht.resolve_left hlegible
      exact ⟨'-', _, Text.intText_of_neg (Int.not_le.mp hlegible), rfl⟩
  obtain ⟨c, cs, heq, hc⟩ := hhead
  refine Text.dropWhile_eq_self fun d hd => ?_
  rw [heq] at hd
  cases hd
  exact hc

end Parted

/-! ## The text of a formula -/

/-- The terms read from a printed list of terms. -/
def reread (ts : List SignedTerm) : Except FormulaError (List SignedTerm) :=
  if ∃ t ∈ ts, t.term = .constant Int64.minValue then .error .overflow
  else .ok (ts.map SignedTerm.settled)

theorem reread_cons (t : SignedTerm) (ts : List SignedTerm) :
    reread (t :: ts) =
      if t.term = .constant Int64.minValue then .error .overflow
      else (reread ts).map (t.settled :: ·) := by
  have hcons : (∃ u ∈ t :: ts, u.term = .constant Int64.minValue) ↔
      t.term = .constant Int64.minValue ∨ ∃ u ∈ ts, u.term = .constant Int64.minValue := by
    simp only [List.mem_cons, exists_eq_or_imp]
  unfold reread
  by_cases hmin : t.term = .constant Int64.minValue
  · rw [if_pos hmin, if_pos (hcons.mpr (.inl hmin))]
  · rw [if_neg hmin]
    by_cases hlater : ∃ u ∈ ts, u.term = .constant Int64.minValue
    · rw [if_pos hlater, if_pos (hcons.mpr (.inr hlater))]
      rfl
    · rw [if_neg hlater, if_neg fun hany => (hcons.mp hany).elim hmin hlater]
      rfl

theorem readOn_laterTexts {ts : List SignedTerm} (h : ∀ t ∈ ts, Printable t.term) (total : Nat) :
    readOn total (ts.flatMap laterText) = reread ts := by
  induction ts with
  | nil => rfl
  | cons t ts ih =>
      obtain ⟨ht, hrest⟩ := List.forall_mem_cons.mp h
      have hsign : IsSign (if t.negative then '-' else '+') := isSign_signOf t.negative
      have hminus : decide ((if t.negative then '-' else '+') = '-') = t.negative := by
        cases t.negative <;> rfl
      have hblank : skipBlanks ((t :: ts).flatMap laterText) =
          (if t.negative then '-' else '+') :: ' ' :: (termText t.term ++ ts.flatMap laterText) :=
        skipBlanks_eq_self (.cons hsign _)
      have hmore : skipBlanks (' ' :: (termText t.term ++ ts.flatMap laterText)) =
          termText t.term ++ ts.flatMap laterText :=
        skipBlanks_termText ht _
      rw [readOn_of_sign hsign hblank, hminus, hmore,
        readTerms_termText ht (parted_laterTexts ts), ih hrest, reread_cons]

/-- The first term has its sign without a blank behind it, and none if it is added. -/
theorem readTerms_termsText {ts : List SignedTerm} (hne : ts ≠ [])
    (h : ∀ t ∈ ts, Printable t.term) (total : Nat) :
    readTerms total false (termsText ts) = reread ts := by
  obtain ⟨t, ts, rfl⟩ := List.exists_cons_of_ne_nil hne
  obtain ⟨ht, hrest⟩ := List.forall_mem_cons.mp h
  have hfirst : readTerms total false (termsText (t :: ts)) =
      readTerms total t.negative (termText t.term ++ ts.flatMap laterText) := by
    cases hneg : t.negative with
    | false => rw [termsText, hneg, List.append_assoc]; rfl
    | true =>
        rw [termsText, hneg, List.append_assoc, if_pos rfl, List.singleton_append,
          readTerms_sign (.inr rfl), skipBlanks_termText ht]
        rfl
  rw [hfirst, readTerms_termText ht (parted_laterTexts ts), readOn_laterTexts hrest, reread_cons]

theorem skipBlanks_termsText {ts : List SignedTerm} (h : ∀ t ∈ ts, Printable t.term) :
    skipBlanks (termsText ts) = termsText ts := by
  cases ts with
  | nil => rfl
  | cons t ts =>
      cases hneg : t.negative with
      | true => rw [termsText, hneg]; rfl
      | false =>
          rw [termsText, hneg, List.append_assoc]
          exact skipBlanks_termText (h t List.mem_cons_self) _

theorem read_text {f : Formula} (hne : f.terms ≠ []) (h : ∀ t ∈ f.terms, Printable t.term) :
    read f.text = (reread f.terms).map fun ts => ⟨f.text, ts⟩ := by
  have hlist : f.text.toList = termsText f.terms := String.toList_ofList
  have hread := readTerms_termsText hne h f.text.toList.length
  have hsome : skipBlanks f.text.toList ≠ [] := by
    rw [hlist, skipBlanks_termsText h]
    intro hnil
    rw [hnil, readTerms, reread] at hread
    split at hread <;> cases hread
  rw [read_of_ne_nil hsome, hlist, skipBlanks_termsText h, ← hread, hlist]

/-! ## The canonical text -/

/-- Terms that are legible have no sign of their own, so they are read as they are. -/
theorem reread_legible {ts : List SignedTerm} (h : ∀ t ∈ ts, Legible t.term) :
    reread ts = .ok ts := by
  have hpos : ∀ t ∈ ts, ∀ n, t.term = .constant n → 0 ≤ n.toInt := by
    intro t ht n hn
    have hlegible := h t ht
    rwa [hn] at hlegible
  have hmin : ¬ ∃ t ∈ ts, t.term = .constant Int64.minValue := by
    rintro ⟨t, ht, hterm⟩
    exact absurd (hpos t ht _ hterm) (by decide)
  have hsettled : ∀ t ∈ ts, t.settled = t := by
    intro t ht
    rcases settled_cases t with ⟨n, hterm, hneg, -⟩ | ⟨-, heq⟩
    · exact absurd (hpos t ht n hterm) (Int.not_le.mpr hneg)
    · exact heq
  rw [reread, if_neg hmin, List.map_congr_left hsettled, List.map_id']

theorem read_text_of_legible {f : Formula} (hne : f.terms ≠ [])
    (h : ∀ t ∈ f.terms, Legible t.term) : read f.text = .ok ⟨f.text, f.terms⟩ := by
  rw [read_text hne fun t ht => .inl (h t ht), reread_legible h]
  rfl

/-- A formula that is read can be printed and read again: the terms are the same, and so is their
text. Two formulas have one text exactly if they have the same terms. -/
theorem read_text_of_read {source : String} {f : Formula} (h : read source = .ok f) :
    (∃ g, read f.text = .ok g ∧ g.terms = f.terms ∧ g.text = f.text) ∧
      ∀ source' f', read source' = .ok f' → (f'.text = f.text ↔ f'.terms = f.terms) := by
  obtain ⟨hne, hlegible⟩ := legible_of_read h
  have hread := read_text_of_legible hne hlegible
  refine ⟨⟨⟨f.text, f.terms⟩, hread, rfl, rfl⟩, ?_⟩
  intro source' f' h'
  obtain ⟨hne', hlegible'⟩ := legible_of_read h'
  have hread' := read_text_of_legible hne' hlegible'
  constructor
  · intro htext
    rw [htext, hread] at hread'
    exact (congrArg terms (Except.ok.inj hread')).symm
  · intro hterms
    rw [text, text, hterms]

/-- Counts that are left out, capital letters, leading zeros and further signs are not kept. -/
theorem read_text_of_read_signed :
    ∃ f g, read " -+ D020 -- 07-@fire.x" = .ok f ∧ f.text = "-1d20 + 7 - @fire.x" ∧
      read "-1d20 + 7 - @fire.x" = .ok g ∧ g.terms = f.terms ∧ g.text = "-1d20 + 7 - @fire.x" := by
  have hread : read " -+ D020 -- 07-@fire.x" = .ok ⟨" -+ D020 -- 07-@fire.x",
      [⟨true, .dice 1 20⟩, ⟨false, .constant 7⟩, ⟨true, .reference "fire.x"⟩]⟩ := by
    decide +kernel
  have htext : text ⟨" -+ D020 -- 07-@fire.x",
      [⟨true, .dice 1 20⟩, ⟨false, .constant 7⟩, ⟨true, .reference "fire.x"⟩]⟩ =
        "-1d20 + 7 - @fire.x" := by
    decide
  obtain ⟨⟨g, hg, hterms, hagain⟩, -⟩ := read_text_of_read hread
  exact ⟨_, g, hread, htext, htext ▸ hg, hterms, htext ▸ hagain⟩

/-! ## The same roll -/

theorem isPrimary_settled (t : SignedTerm) : isPrimary t.settled = isPrimary t := by
  rcases settled_cases t with ⟨n, hterm, -, hsettled⟩ | ⟨-, hsettled⟩
  · rw [hsettled, isPrimary, isPrimary, hterm]
  · rw [hsettled]

end Formula

section Rolls

open Formula

variable {σ : Type u} [DiceSource σ]

/-- A settled term shows the same and changes the total in the same way. -/
theorem rollTerm_settled {t : SignedTerm} (h : t.term ≠ .constant Int64.minValue) (total : Int64)
    (s : σ) :
    (rollTerm t.settled.term s).1.2 = (rollTerm t.term s).1.2 ∧
      (rollTerm t.settled.term s).2 = (rollTerm t.term s).2 ∧
      t.settled.apply total (rollTerm t.settled.term s).1.1 =
        t.apply total (rollTerm t.term s).1.1 := by
  rcases settled_cases t with ⟨n, hterm, -, hsettled⟩ | ⟨-, hsettled⟩
  · have hmin : n ≠ Int64.minValue := fun heq => h (hterm.trans (congrArg Term.constant heq))
    rw [hsettled, hterm]
    refine ⟨rfl, rfl, ?_⟩
    show (if !t.negative then _ else _) = (if t.negative then _ else _)
    cases t.negative with
    | true => exact addClamped_neg hmin total
    | false => exact subClamped_neg hmin total
  · rw [hsettled]
    exact ⟨rfl, rfl, rfl⟩

theorem rollTerms_settled {ts : List SignedTerm}
    (h : ∀ t ∈ ts, t.term ≠ .constant Int64.minValue) (total : Int64) (s : σ) :
    rollTerms (ts.map SignedTerm.settled) total s = rollTerms ts total s := by
  induction ts generalizing total s with
  | nil => rfl
  | cons t ts ih =>
      obtain ⟨ht, hrest⟩ := List.forall_mem_cons.mp h
      obtain ⟨hshown, hstate, htotal⟩ := rollTerm_settled ht total s
      rw [List.map_cons, rollTerms_cons, rollTerms_cons, hshown, hstate, htotal, ih hrest]

theorem rollDamageTerms_settled (config : PrimaryConfig) {ts : List SignedTerm}
    (h : ∀ t ∈ ts, t.term ≠ .constant Int64.minValue) (total : Int64) (s : σ) :
    rollDamageTerms config (ts.map SignedTerm.settled) total s =
      rollDamageTerms config ts total s := by
  induction ts generalizing total s with
  | nil => rfl
  | cons t ts ih =>
      obtain ⟨ht, hrest⟩ := List.forall_mem_cons.mp h
      rw [List.map_cons]
      cases hprimary : isPrimary t with
      | true =>
          obtain ⟨negative, count, faces, rfl⟩ := eq_dice_of_isPrimary hprimary
          have hsettled : SignedTerm.settled ⟨negative, .dice count faces⟩ =
              ⟨negative, .dice count faces⟩ := rfl
          rw [hsettled, rollDamageTerms_primary hprimary, rollDamageTerms_primary hprimary]
          dsimp only
          rw [rollTerms_settled hrest]
      | false =>
          obtain ⟨hshown, hstate, htotal⟩ := rollTerm_settled ht total s
          rw [rollDamageTerms_plain hprimary,
            rollDamageTerms_plain ((isPrimary_settled t).trans hprimary)]
          dsimp only
          rw [hshown, hstate, htotal, ih hrest]

end Rolls

/-! ## What a roll records -/

/-- The same roll, told from a formula that may be written in another way. -/
def Roll.Agrees (a b : Roll) : Prop :=
  a.total = b.total ∧ a.faces = b.faces ∧ a.primary = b.primary ∧
    a.isCritical = b.isCritical ∧ a.isMiss = b.isMiss

namespace Formula

/-- Some reference stands for the least integer. -/
def NamesLeast (f : Formula) (data : RollData) : Prop :=
  ∃ t ∈ f.terms, ∃ key, t.term = .reference key ∧ data.lookup key = some Int64.minValue

theorem rollPlain_settled {f g : Formula} (h : ∀ t ∈ f.terms, t.term ≠ .constant Int64.minValue)
    (hterms : g.terms = f.terms.map SignedTerm.settled) {σ : Type u} [DiceSource σ] (s : σ) :
    (g.rollPlain s).1.Agrees (f.rollPlain s).1 ∧ (g.rollPlain s).2 = (f.rollPlain s).2 := by
  have hrolls := rollTerms_settled h 0 s
  rw [rollPlain, rollPlain, hterms, hrolls]
  exact ⟨⟨rfl, rfl, rfl, rfl, rfl⟩, rfl⟩

theorem rollDamage_settled {f g : Formula} (h : ∀ t ∈ f.terms, t.term ≠ .constant Int64.minValue)
    (hterms : g.terms = f.terms.map SignedTerm.settled) (config : PrimaryConfig) {σ : Type u}
    [DiceSource σ] (s : σ) :
    (g.rollDamage config s).1.Agrees (f.rollDamage config s).1 ∧
      (g.rollDamage config s).2 = (f.rollDamage config s).2 := by
  have hrolls := rollDamageTerms_settled config h 0 s
  rw [rollDamage, rollDamage, hterms, hrolls]
  exact ⟨⟨rfl, rfl, rfl, rfl, rfl⟩, rfl⟩

theorem settled_eq_dice_iff {t : SignedTerm} {negative : Bool} {count faces : UInt32} :
    t.settled = ⟨negative, .dice count faces⟩ ↔ t = ⟨negative, .dice count faces⟩ := by
  rcases settled_cases t with ⟨n, hterm, -, hsettled⟩ | ⟨-, hsettled⟩
  · rw [hsettled]
    constructor
    · intro h
      cases h
    · rintro rfl
      cases hterm
  · rw [hsettled]

theorem printable_resolveTerm {t : Term} (h : Legible t) (data : RollData) :
    Printable (resolveTerm data t) := by
  cases t with
  | dice count faces => exact .inl h
  | constant n => exact .inl h
  | reference key => exact .inr ⟨_, rfl⟩

theorem resolveTerm_eq_dice_iff {data : RollData} {t : Term} {count faces : UInt32} :
    resolveTerm data t = .dice count faces ↔ t = .dice count faces := by
  cases t with
  | dice => exact Iff.rfl
  | constant => exact Iff.rfl
  | reference => exact iff_of_false Term.noConfusion Term.noConfusion

theorem settled_resolve_eq_dice_iff {data : RollData} {t : SignedTerm} {negative : Bool}
    {count faces : UInt32} :
    SignedTerm.settled { t with term := resolveTerm data t.term } =
        ⟨negative, .dice count faces⟩ ↔ t = ⟨negative, .dice count faces⟩ := by
  obtain ⟨sign, term⟩ := t
  rw [settled_eq_dice_iff, SignedTerm.mk.injEq, SignedTerm.mk.injEq, resolveTerm_eq_dice_iff]

theorem resolveTerm_ne_reference {data : RollData} {t : Term} {key : String} :
    resolveTerm data t ≠ .reference key := by
  cases t <;> exact Term.noConfusion

theorem settled_ne_reference {t : SignedTerm} {key : String} (h : t.term ≠ .reference key) :
    t.settled.term ≠ .reference key := by
  rcases settled_cases t with ⟨n, -, -, hsettled⟩ | ⟨-, hsettled⟩
  · rw [hsettled]
    exact Term.noConfusion
  · rwa [hsettled]

/-- A legible term becomes the least integer only where it names it. -/
theorem resolveTerm_eq_minValue_iff {data : RollData} {t : Term} (h : Legible t) :
    resolveTerm data t = .constant Int64.minValue ↔
      ∃ key, t = .reference key ∧ data.lookup key = some Int64.minValue := by
  cases t with
  | dice => exact iff_of_false Term.noConfusion fun ⟨_, hkey, _⟩ => Term.noConfusion hkey
  | constant n =>
      refine iff_of_false (fun hmin => ?_) fun ⟨_, hkey, _⟩ => Term.noConfusion hkey
      cases hmin
      exact Int.not_le.mpr (by decide) h
  | reference key =>
      have hzero : (0 : Int64) ≠ Int64.minValue := by decide
      constructor
      · intro hmin
        refine ⟨key, rfl, ?_⟩
        cases hvalue : data.lookup key with
        | none =>
            rw [resolveTerm, hvalue] at hmin
            exact absurd (Term.constant.inj hmin) hzero
        | some n =>
            rw [resolveTerm, hvalue] at hmin
            exact congrArg some (Term.constant.inj hmin)
      · rintro ⟨_, heq, hvalue⟩
        cases heq
        rw [resolveTerm, hvalue]
        rfl

theorem resolve_hasLeast_iff {f : Formula} (h : ∀ t ∈ f.terms, Legible t.term) (data : RollData) :
    (∃ t ∈ (f.resolve data).terms, t.term = .constant Int64.minValue) ↔ f.NamesLeast data := by
  constructor
  · rintro ⟨t, ht, hmin⟩
    obtain ⟨u, hu, rfl⟩ := List.mem_map.mp ht
    exact ⟨u, hu, (resolveTerm_eq_minValue_iff (h u hu)).mp hmin⟩
  · rintro ⟨u, hu, hkey⟩
    exact ⟨_, List.mem_map_of_mem hu, (resolveTerm_eq_minValue_iff (h u hu)).mpr hkey⟩

/-- The text that a roll records of its formula is read as a formula with the same dice, unless a
reference stands for the least integer; and it rolls as the first one did, from every source. -/
theorem read_text_resolve {source : String} {f : Formula} (h : read source = .ok f)
    (data : RollData) :
    (f.NamesLeast data → read (f.resolve data).text = .error .overflow) ∧
      (¬ f.NamesLeast data → ∃ g, read (f.resolve data).text = .ok g ∧
        g.terms.length = f.terms.length ∧
        (∀ t ∈ g.terms, ∀ key, t.term ≠ .reference key) ∧
        (∀ (i : Nat) negative count faces,
          g.terms[i]? = some ⟨negative, .dice count faces⟩ ↔
            f.terms[i]? = some ⟨negative, .dice count faces⟩) ∧
        ∀ {σ : Type u} [DiceSource σ] (s : σ),
          ((g.rollPlain s).1.Agrees ((f.resolve data).rollPlain s).1 ∧
            (g.rollPlain s).2 = ((f.resolve data).rollPlain s).2) ∧
          ∀ config, (g.rollDamage config s).1.Agrees ((f.resolve data).rollDamage config s).1 ∧
            (g.rollDamage config s).2 = ((f.resolve data).rollDamage config s).2) := by
  obtain ⟨hne, hlegible⟩ := legible_of_read h
  have hprintable : ∀ t ∈ (f.resolve data).terms, Printable t.term := by
    intro t ht
    obtain ⟨u, hu, rfl⟩ := List.mem_map.mp ht
    exact printable_resolveTerm (hlegible u hu) data
  have hread := read_text (fun hnil => hne (List.map_eq_nil_iff.mp hnil)) hprintable
  have hleast := resolve_hasLeast_iff hlegible data
  constructor
  · intro hnames
    rw [hread, reread, if_pos (hleast.mpr hnames)]
    rfl
  · intro hnames
    have hfree : ∀ t ∈ (f.resolve data).terms, t.term ≠ .constant Int64.minValue :=
      fun t ht hmin => hnames (hleast.mp ⟨t, ht, hmin⟩)
    rw [reread, if_neg fun hany => hnames (hleast.mp hany)] at hread
    refine ⟨_, hread, by simp [resolve], ?_, ?_, ?_⟩
    · intro t ht key hkey
      obtain ⟨u, hu, rfl⟩ := List.mem_map.mp ht
      obtain ⟨v, -, rfl⟩ := List.mem_map.mp hu
      exact settled_ne_reference resolveTerm_ne_reference hkey
    · intro i negative count faces
      simp only [resolve, List.map_map, List.getElem?_map, Option.map_eq_some_iff,
        Function.comp_apply, settled_resolve_eq_dice_iff, exists_eq_right]
    · intro σ _ s
      exact ⟨rollPlain_settled hfree rfl s, fun config => rollDamage_settled hfree rfl config s⟩

/-- A sum that takes away a negative level is printed with two signs and read with none. -/
theorem read_text_resolve_negative :
    ∃ f g, read "2d6 - @level" = .ok f ∧
      (f.resolve [("level", -3)]).text = "2d6 - -3" ∧ read "2d6 - -3" = .ok g ∧
      g.terms.length = 2 ∧ (g.rollPlain (DiceScript.mk [4, 5] 2)).1.total = 12 := by
  have hread : read "2d6 - @level" =
      .ok ⟨"2d6 - @level", [⟨false, .dice 2 6⟩, ⟨true, .reference "level"⟩]⟩ := by
    decide +kernel
  have hnames : ¬ NamesLeast ⟨"2d6 - @level", [⟨false, .dice 2 6⟩, ⟨true, .reference "level"⟩]⟩
      [("level", -3)] := by
    rintro ⟨t, ht, key, hkey, hvalue⟩
    rcases List.mem_cons.mp ht with rfl | ht
    · cases hkey
    · obtain rfl := List.mem_singleton.mp ht
      cases hkey
      exact absurd hvalue (by decide)
  have htext : (resolve [("level", -3)] ⟨"2d6 - @level",
      [⟨false, .dice 2 6⟩, ⟨true, .reference "level"⟩]⟩).text = "2d6 - -3" := by
    decide
  obtain ⟨g, hg, hlength, -, -, hrolls⟩ :=
    (read_text_resolve hread [("level", -3)]).2 hnames
  have htotal := (hrolls (DiceScript.mk [4, 5] 2)).1.1.1
  exact ⟨_, g, hread, htext, htext ▸ hg, hlength, htotal.trans (by decide)⟩

end Formula

end Spellwork
