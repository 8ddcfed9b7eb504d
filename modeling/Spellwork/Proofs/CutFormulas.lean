import Spellwork.Prose.Damage
import Spellwork.Proofs.FormulaText
import Spellwork.Text.Pattern.Language

/-!
# Formulas cut out of prose

The pattern of a formula and the reader of formulas are two grammars. What a pattern cuts out is a
sum of numerals and dice once blanks are gone and letters are in lower case (`Prose.CutsSum`), and a
sum is read if and only if each of its operands is sound (`Formula.Sum.exists_read_iff`). The
pattern takes decimal digits of any script, any number of them, and dice without faces; the reader
does not.
-/

namespace Spellwork

open Text Pattern

/-! ## Decimal digits -/

namespace Text

/-- Two stretches of code points without a common one. -/
def apart (r s : Nat × Nat) : Bool :=
  r.2 < s.1 || s.2 < r.1

theorem exists_range_of_inRanges {n : Nat} {ranges : List (Nat × Nat)}
    (h : inRanges n ranges = true) : ∃ r ∈ ranges, r.1 ≤ n ∧ n ≤ r.2 := by
  induction ranges with
  | nil => cases h
  | cons r rest ih =>
      unfold inRanges at h
      split at h
      · cases h
      · rename_i hle
        rcases Bool.or_eq_true_iff.mp h with h | h
        · exact ⟨r, List.mem_cons_self, Nat.le_of_not_lt hle, of_decide_eq_true h⟩
        · obtain ⟨s, hs, hrange⟩ := ih h
          exact ⟨s, List.mem_cons_of_mem r hs, hrange⟩

/-- Beyond ASCII a decimal digit lies in a range of its own. -/
theorem not_mem_of_isDecimalDigit {c : Char} (h : isDecimalDigit c = true) (hc : ¬ c.toNat < 128)
    {s : Nat × Nat} (hs : Property.decimalDigit.all (apart s) = true) :
    ¬ (s.1 ≤ c.toNat ∧ c.toNat ≤ s.2) := by
  rw [isDecimalDigit, if_neg hc, Bool.and_eq_true] at h
  obtain ⟨r, hr, hrange⟩ := exists_range_of_inRanges h.2
  have hapart := List.all_eq_true.mp hs r hr
  simp only [apart, Bool.or_eq_true, decide_eq_true_eq] at hapart
  omega

theorem isDecimalDigit_ascii {c : Char} (h : isDecimalDigit c = true) (hc : c.toNat < 128) :
    c.isDigit = true := by
  rwa [isDecimalDigit, if_pos hc] at h

theorem ne_of_isDecimalDigit {c d : Char} (h : isDecimalDigit c = true) (hd : d.toNat < 128)
    (hnot : d.isDigit = false) : c ≠ d := by
  rintro rfl
  rw [isDecimalDigit_ascii h hd] at hnot
  cases hnot

theorem isBlank_of_isDecimalDigit {c : Char} (h : isDecimalDigit c = true) : isBlank c = false := by
  by_cases hc : c.toNat < 128
  · exact isBlank_of_isDigit (isDecimalDigit_ascii h hc)
  · -- the blanks beyond ASCII
    have hblanks : [(0x85, 0x85), (0xa0, 0xa0), (0x1680, 0x1680), (0x2000, 0x200a),
        (0x2028, 0x2029), (0x202f, 0x202f), (0x205f, 0x205f), (0x3000, 0x3000)].all
          (fun s => Property.decimalDigit.all (apart s)) = true := by decide
    have hnot := fun s hs => not_mem_of_isDecimalDigit h hc (List.all_eq_true.mp hblanks s hs)
    simp only [List.forall_mem_cons] at hnot
    have hspace : c ≠ ' ' := ne_of_isDecimalDigit h (by decide) (by decide)
    simp only [isBlank, hspace, decide_false, Bool.false_or, Bool.or_eq_false_iff,
      Bool.and_eq_false_iff, decide_eq_false_iff_not]
    omega

theorem toLower_of_isDigit {c : Char} (h : c.isDigit = true) : c.toLower = c := by
  have hrange : 48 ≤ c.toNat ∧ c.toNat ≤ 57 := by
    simpa [Char.isDigit, UInt32.le_iff_toNat_le] using h
  refine dif_neg fun hupper => ?_
  have hlow : 65 ≤ c.toNat := UInt32.le_iff_toNat_le.mp hupper.1
  omega

/-- Digits have no case. -/
theorem lowerChar_of_isDecimalDigit {c : Char} (h : isDecimalDigit c = true) :
    lowerChar c = [c] := by
  unfold lowerChar
  by_cases hc : c.toNat < 128
  · rw [if_pos hc, toLower_of_isDigit (isDecimalDigit_ascii h hc)]
  · have hdotted : Property.decimalDigit.all (apart (0x130, 0x130)) = true := by decide +kernel
    have hruns : Property.lowerRuns.all
        (fun run => Property.decimalDigit.all (apart (run.first, run.last))) = true := by
      decide +kernel
    have hne : c.toNat ≠ 0x130 := fun heq =>
      not_mem_of_isDecimalDigit h hc hdotted (by rw [heq]; decide)
    have hnone : (Property.lowerRuns.find? fun r =>
        r.first ≤ c.toNat && c.toNat ≤ r.last && (c.toNat - r.first) % r.step = 0) = none := by
      refine List.find?_eq_none.mpr fun run hrun hfound => ?_
      simp only [Bool.and_eq_true, decide_eq_true_eq] at hfound
      exact not_mem_of_isDecimalDigit h hc (List.all_eq_true.mp hruns run hrun) hfound.1
    rw [if_neg hc, if_neg hne, hnone]

/-! ## Lower case without sigmas -/

theorem lowerAfter_eq_flatMap {before cs : List Char} (h : ∀ c ∈ cs, c ≠ 'Σ') :
    lowerAfter before cs = cs.flatMap lowerChar := by
  induction cs generalizing before with
  | nil => rfl
  | cons c cs ih =>
      obtain ⟨hc, hcs⟩ := List.forall_mem_cons.mp h
      rw [lowerAfter, if_neg hc, ih hcs, List.flatMap_cons]

theorem lowercase_eq_map {cs : List Char} (h : ∀ c ∈ cs, lowerChar c = [c.toLower]) :
    lowercase cs = cs.map Char.toLower := by
  rw [lowercase, lowerAfter_eq_flatMap, List.map_eq_flatMap]
  · exact List.flatMap_congr h
  · rintro c hc rfl
    exact absurd (h _ hc) (by decide)

end Text

namespace Prose

/-! ## Compact text -/

/-- A text that lower-casing without its blanks turns into another, whatever stands around it. -/
def Compacts (cs ds : List Char) : Prop :=
  (∀ c ∈ cs, c ≠ 'Σ') ∧ (cs.filter fun c => !isBlank c).flatMap lowerChar = ds

theorem Compacts.append {cs ds cs' ds' : List Char} (h : Compacts cs ds) (h' : Compacts cs' ds') :
    Compacts (cs ++ cs') (ds ++ ds') :=
  ⟨List.forall_mem_append.mpr ⟨h.1, h'.1⟩, by
    rw [List.filter_append, List.flatMap_append, h.2, h'.2]⟩

theorem Compacts.compactFormula {cs ds : List Char} (h : Compacts cs ds) :
    compactFormula cs = String.ofList ds := by
  have hsigma : ∀ c ∈ cs.filter fun c => !isBlank c, c ≠ 'Σ' := fun c hc =>
    h.1 c (List.mem_filter.mp hc).1
  rw [Prose.compactFormula, lowercase, lowerAfter_eq_flatMap hsigma, h.2]

theorem compacts_blanks {cs : List Char} (h : ∀ c ∈ cs, isBlank c = true) : Compacts cs [] := by
  refine ⟨fun c hc heq => ?_, ?_⟩
  · have hblank := h c hc
    rw [heq] at hblank
    exact absurd hblank (by decide)
  · rw [List.filter_eq_nil_iff.mpr fun c hc => by simp [h c hc]]
    rfl

theorem compacts_digits {cs : List Char} (h : ∀ c ∈ cs, isDecimalDigit c = true) :
    Compacts cs cs := by
  refine ⟨fun c hc heq => ?_, ?_⟩
  · have hdigit := h c hc
    rw [heq] at hdigit
    exact absurd hdigit (by decide)
  · rw [List.filter_eq_self.mpr fun c hc => by simp [isBlank_of_isDecimalDigit (h c hc)]]
    induction cs with
    | nil => rfl
    | cons c cs ih =>
        obtain ⟨hc, hcs⟩ := List.forall_mem_cons.mp h
        rw [List.flatMap_cons, lowerChar_of_isDecimalDigit hc, ih hcs]
        rfl

theorem compacts_singleton {c d : Char} (hsigma : c ≠ 'Σ') (hblank : isBlank c = false)
    (hlower : lowerChar c = [d]) : Compacts [c] [d] := by
  refine ⟨List.forall_mem_singleton.mpr hsigma, ?_⟩
  rw [List.filter_cons_of_pos (by simp [hblank]), List.filter_nil, List.flatMap_singleton, hlower]

end Prose

namespace Formula

/-! ## Sums -/

theorem inert_of_isDecimalDigit {c : Char} (h : isDecimalDigit c = true) : Inert c := by
  have hne {d : Char} (hd : d.toNat < 128) (hnot : d.isDigit = false) : c ≠ d :=
    ne_of_isDecimalDigit h hd hnot
  refine ⟨?_, isBlank_of_isDecimalDigit h, hne (by decide) (by decide), hne (by decide) (by decide),
    hne (by decide) (by decide)⟩
  rintro (rfl | rfl)
  · exact hne (by decide) (by decide) rfl
  · exact hne (by decide) (by decide) rfl

/-- An operand whose numerals are in decimal digits of any script. -/
def Operand.Decimal : Operand → Prop
  | numeral digits => digits ≠ [] ∧ ∀ c ∈ digits, isDecimalDigit c = true
  | dice count faces =>
    (∀ c ∈ count, isDecimalDigit c = true) ∧ faces ≠ [] ∧ ∀ c ∈ faces, isDecimalDigit c = true

theorem Operand.Decimal.written {o : Operand} (h : o.Decimal) : o.Written := by
  cases o with
  | numeral digits => exact ⟨h.1, fun c hc => inert_of_isDecimalDigit (h.2 c hc)⟩
  | dice count faces =>
      exact ⟨fun c hc => inert_of_isDecimalDigit (h.1 c hc), h.2.1,
        fun c hc => inert_of_isDecimalDigit (h.2.2 c hc)⟩

/-- Operands that are added to a first one or taken away from it. -/
structure Sum where
  first : Operand
  more : List (Bool × Operand)

namespace Sum

def text (s : Sum) : List Char :=
  s.first.text ++ sumText s.more

def operands (s : Sum) : List Operand :=
  s.first :: s.more.map Prod.snd

theorem exists_read_iff {s : Sum} (h : ∀ o ∈ s.operands, o.Decimal) :
    (∃ f, read (String.ofList s.text) = .ok f) ↔ ∀ o ∈ s.operands, o.Sound := by
  obtain ⟨hfirst, hmore⟩ := List.forall_mem_cons.mp h
  rw [List.forall_mem_map] at hmore
  rw [operands, List.forall_mem_cons, List.forall_mem_map]
  exact exists_read_sum_iff hfirst.written fun o ho => (hmore o ho).written

end Sum

end Formula

namespace Prose

open Formula Formula.Sum

/-! ## Formulas in prose -/

/-- In compact form the text is a numeral or dice. -/
def CutsOperand (cs : List Char) : Prop :=
  ∃ o : Operand, o.Decimal ∧ Compacts cs o.text

/-- In compact form the text is a sign with a numeral or dice behind it. -/
def CutsSigned (cs : List Char) : Prop :=
  ∃ o : Bool × Operand, o.2.Decimal ∧ Compacts cs (signOf o.1 :: o.2.text)

/-- In compact form the text is a sum. -/
def CutsSum (cs : List Char) : Prop :=
  ∃ s : Sum, (∀ o ∈ s.operands, o.Decimal) ∧ Compacts cs s.text

theorem CutsOperand.cutsSum {cs : List Char} (h : CutsOperand cs) : CutsSum cs := by
  obtain ⟨o, ho, hcompacts⟩ := h
  refine ⟨⟨o, []⟩, fun p hp => ?_, ?_⟩
  · rw [List.mem_singleton.mp hp]
    exact ho
  · rw [Sum.text, sumText, List.flatMap_nil, List.append_nil]
    exact hcompacts

theorem CutsSum.append {cs ds : List Char} (h : CutsSum cs) (hds : CutsSigned ds) :
    CutsSum (cs ++ ds) := by
  obtain ⟨s, hs, hcompacts⟩ := h
  obtain ⟨o, ho, hsigned⟩ := hds
  have hoperands : operands ⟨s.first, s.more ++ [o]⟩ = s.operands ++ [o.2] := by simp [operands]
  have htext : Sum.text ⟨s.first, s.more ++ [o]⟩ = s.text ++ signOf o.1 :: o.2.text := by
    simp [Sum.text, sumText]
  refine ⟨⟨s.first, s.more ++ [o]⟩, ?_, ?_⟩
  · rw [hoperands]
    exact List.forall_mem_append.mpr ⟨hs, by simpa using ho⟩
  · rw [htext]
    exact hcompacts.append hsigned

theorem CutsSum.append_flatten {cs : List Char} (h : CutsSum cs) {parts : List (List Char)}
    (hparts : ∀ part ∈ parts, CutsSigned part) : CutsSum (cs ++ parts.flatten) := by
  induction parts generalizing cs with
  | nil => rwa [List.flatten_nil, List.append_nil]
  | cons part parts ih =>
      obtain ⟨hpart, hrest⟩ := List.forall_mem_cons.mp hparts
      rw [List.flatten_cons, ← List.append_assoc]
      exact ih (h.append hpart) hrest

/-! ### From the smaller patterns to the larger ones -/

theorem cutsOperand_digits {cs : List Char} (h : cs ∈ digits.language) : CutsOperand cs := by
  obtain ⟨hne, hall⟩ := mem_language_many1_one.mp h
  exact ⟨.numeral cs, ⟨hne, hall⟩, compacts_digits hall⟩

theorem compacts_dice {count faces : List Char} {letter : Char}
    (hcount : ∀ x ∈ count, isDecimalDigit x = true) (hletter : letter ∈ ['d', 'D'])
    (hfaces : ∀ x ∈ faces, isDecimalDigit x = true) :
    Compacts (count ++ letter :: faces) (Operand.dice count faces).text := by
  have hcompacts : Compacts [letter] ['d'] := by
    simp only [List.mem_cons, List.not_mem_nil, or_false] at hletter
    rcases hletter with rfl | rfl
    · exact compacts_singleton (by decide) rfl rfl
    · exact compacts_singleton (by decide) rfl rfl
  exact (compacts_digits hcount).append (hcompacts.append (compacts_digits hfaces))

theorem cutsOperand_diceToken {cs : List Char} (h : cs ∈ diceToken.language) :
    CutsOperand cs := by
  obtain ⟨count, hcount, behind, hbehind, rfl⟩ := mem_language_all_cons.mp h
  obtain ⟨_, ⟨letter, hletter, rfl⟩, last, hlast, rfl⟩ := mem_language_all_cons.mp hbehind
  obtain ⟨faces, hfaces, _, rfl, rfl⟩ := mem_language_all_cons.mp hlast
  have hcount := mem_language_many_one.mp hcount
  obtain ⟨hne, hfaces⟩ := mem_language_many1_one.mp hfaces
  refine ⟨.dice count faces, ⟨hcount, hne, hfaces⟩, ?_⟩
  rw [List.append_nil]
  exact compacts_dice hcount (List.contains_iff_mem.mp hletter) hfaces

theorem cutsOperand_either {cs : List Char} (h : cs ∈ (alt diceToken digits).language) :
    CutsOperand cs :=
  (mem_language_alt.mp h).elim cutsOperand_diceToken cutsOperand_digits

theorem exists_compacts_signToken {cs : List Char} (h : cs ∈ signToken.language) :
    ∃ negative, Compacts cs [signOf negative] := by
  obtain ⟨before, hbefore, behind, hbehind, rfl⟩ := mem_language_all_cons.mp h
  obtain ⟨_, ⟨sign, hsign, rfl⟩, last, hlast, rfl⟩ := mem_language_all_cons.mp hbehind
  obtain ⟨after, hafter, _, rfl, rfl⟩ := mem_language_all_cons.mp hlast
  have hbefore := compacts_blanks (mem_language_many_one.mp hbefore)
  have hafter := compacts_blanks (mem_language_many_one.mp hafter)
  have hsigned : ∃ negative, Compacts [sign] [signOf negative] := by
    have hcase : sign = '+' ∨ sign = '-' := by simpa using hsign
    rcases hcase with rfl | rfl
    · exact ⟨false, compacts_singleton (by decide) rfl rfl⟩
    · exact ⟨true, compacts_singleton (by decide) rfl rfl⟩
  obtain ⟨negative, hsigned⟩ := hsigned
  refine ⟨negative, ?_⟩
  rw [List.append_nil]
  exact hbefore.append (hsigned.append hafter)

theorem cutsSigned_seq {p : Pattern} (hp : ∀ cs ∈ p.language, CutsOperand cs) {cs : List Char}
    (h : cs ∈ (seq signToken p).language) : CutsSigned cs := by
  obtain ⟨before, hbefore, after, hafter, rfl⟩ := mem_language_seq.mp h
  obtain ⟨negative, hsign⟩ := exists_compacts_signToken hbefore
  obtain ⟨o, ho, hoperand⟩ := hp after hafter
  exact ⟨(negative, o), ho, hsign.append hoperand⟩

theorem cutsSum_leading {cs : List Char}
    (h : cs ∈ (alt (all [diceToken, many true (seq signToken (alt diceToken digits))])
      digits).language) : CutsSum cs := by
  rcases mem_language_alt.mp h with h | h
  · obtain ⟨first, hfirst, behind, hbehind, rfl⟩ := mem_language_all_cons.mp h
    obtain ⟨more, hmore, _, rfl, rfl⟩ := mem_language_all_cons.mp hbehind
    obtain ⟨parts, rfl, hparts⟩ := mem_language_many.mp hmore
    rw [List.append_nil]
    exact (cutsOperand_diceToken hfirst).cutsSum.append_flatten fun part hpart =>
      cutsSigned_seq (fun _ => cutsOperand_either) (hparts part hpart)
  · exact (cutsOperand_digits h).cutsSum

theorem cutsSum_embedded {cs : List Char}
    (h : cs ∈ (seq diceToken (opt (seq signToken digits))).language) : CutsSum cs := by
  obtain ⟨first, hfirst, more, hmore, rfl⟩ := mem_language_seq.mp h
  have hsum := (cutsOperand_diceToken hfirst).cutsSum
  rcases mem_language_opt.mp hmore with hmore | rfl
  · exact hsum.append (cutsSigned_seq (fun _ => cutsOperand_digits) hmore)
  · rwa [List.append_nil]

/-! ### What a search cuts out -/

theorem exists_sum_of_find {p body : Pattern} (hgroups : p.groups = [(captured, body)])
    (hbody : ∀ cs ∈ body.language, CutsSum cs) {cs : List Char} {formula : String}
    (h : ((p.find cs).bind fun m => m.text? captured cs).map compactFormula = some formula) :
    ∃ s : Sum, (∀ o ∈ s.operands, o.Decimal) ∧ formula = String.ofList s.text := by
  obtain ⟨found, hfound, rfl⟩ := Option.map_eq_some_iff.mp h
  obtain ⟨m, hfind, htext⟩ := Option.bind_eq_some_iff.mp hfound
  obtain ⟨group, hgroup, hlanguage⟩ := text?_mem_language hfind htext
  rw [hgroups, List.mem_singleton, Prod.mk.injEq] at hgroup
  obtain ⟨-, rfl⟩ := hgroup
  obtain ⟨s, hs, hcompacts⟩ := hbody found hlanguage
  exact ⟨s, hs, hcompacts.compactFormula⟩

theorem exists_sum_of_leadingFormula? {cs : List Char} {formula : String}
    (h : leadingFormula? cs = some formula) :
    ∃ s : Sum, (∀ o ∈ s.operands, o.Decimal) ∧ formula = String.ofList s.text :=
  exists_sum_of_find rfl (fun _ => cutsSum_leading) h

theorem exists_sum_of_embeddedFormula? {cs : List Char} {formula : String}
    (h : embeddedFormula? cs = some formula) :
    ∃ s : Sum, (∀ o ∈ s.operands, o.Decimal) ∧ formula = String.ofList s.text :=
  exists_sum_of_find rfl (fun _ => cutsSum_embedded) h

end Prose

end Spellwork
