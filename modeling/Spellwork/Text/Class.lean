import Spellwork.Text.Property.Age
import Spellwork.Text.Property.Alphabetic
import Spellwork.Text.Property.Mark
import Spellwork.Text.Property.Number

/-!
# Character classes

The classes of characters that reading rules text depends on: blanks, decimal digits, letters and
digits, and the characters that make up a word. Each one decides ASCII on the spot, so that what is
proved about ASCII text never opens a table.

Letters and their case go by Unicode 17. The classes that patterns are written with, decimal digits
and word characters, go by Unicode 16: a character that is newer belongs to neither of them.
-/

namespace Spellwork.Text

/-- Whether a code point lies in one of the ascending ranges. -/
def inRanges (n : Nat) : List (Nat × Nat) → Bool
  | [] => false
  | (first, last) :: rest => if n < first then false else n ≤ last || inRanges n rest

/-- The property White_Space. -/
def isBlank (c : Char) : Bool :=
  c = ' ' || (0x9 ≤ c.toNat && c.toNat ≤ 0xd) || c.toNat = 0x85 || c.toNat = 0xa0 ||
    c.toNat = 0x1680 || (0x2000 ≤ c.toNat && c.toNat ≤ 0x200a) || c.toNat = 0x2028 ||
    c.toNat = 0x2029 || c.toNat = 0x202f || c.toNat = 0x205f || c.toNat = 0x3000

theorem isBlank_of_isDigit {c : Char} (h : c.isDigit = true) : isBlank c = false := by
  have hrange : 48 ≤ c.toNat ∧ c.toNat ≤ 57 := by
    simpa [Char.isDigit, UInt32.le_iff_toNat_le] using h
  have hspace : c ≠ ' ' := by
    rintro rfl
    exact absurd h (by decide)
  simp only [isBlank, hspace, decide_false, Bool.false_or, Bool.or_eq_false_iff,
    Bool.and_eq_false_iff, decide_eq_false_iff_not]
  omega

/-- A letter or a number of any script. -/
def isAlphanumeric (c : Char) : Bool :=
  if c.toNat < 128 then c.isAlphanum
  else inRanges c.toNat Property.alphabetic || inRanges c.toNat Property.decimalDigit ||
    inRanges c.toNat Property.otherNumber

/-! ## Braces -/

/-- The opening brace. -/
abbrev openBrace : Char := '\x7b'

/-- The closing brace. -/
abbrev closeBrace : Char := '\x7d'

/-! ## Classes of patterns -/

/-- A character that is too new for the classes of patterns. -/
def isLatest (c : Char) : Bool :=
  inRanges c.toNat Property.latest

/-- A decimal digit of any script. -/
def isDecimalDigit (c : Char) : Bool :=
  if c.toNat < 128 then c.isDigit else !isLatest c && inRanges c.toNat Property.decimalDigit

/-- A character that belongs to a word: a letter, a mark, a decimal digit or a connector. -/
def isWordChar (c : Char) : Bool :=
  if c.toNat < 128 then c.isAlphanum || c = '_'
  else !isLatest c && (inRanges c.toNat Property.alphabetic || inRanges c.toNat Property.mark ||
    inRanges c.toNat Property.decimalDigit || inRanges c.toNat Property.connector)

end Spellwork.Text
