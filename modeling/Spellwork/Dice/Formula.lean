import Spellwork.Text.Class
import Spellwork.Text.Numeral

/-!
# Dice formulas

Sums and differences of dice such as `2d6`, constants, and references to named values such as
`@key`. A formula is read from text, printed in a canonical form, and has its references replaced by
constants before it is rolled.
-/

namespace Spellwork

/-- An operand. -/
inductive Term where
  /-- `count` dice with `faces` faces each. -/
  | dice (count faces : UInt32)
  | constant (n : Int64)
  /-- A named value, without the at sign. -/
  | reference (key : String)
deriving DecidableEq, Repr

/-- An operand that is added or taken away. -/
structure SignedTerm where
  negative : Bool
  term : Term
deriving DecidableEq, Repr

/-- A formula, with the text it was read from. -/
structure Formula where
  source : String
  terms : List SignedTerm
deriving DecidableEq, Repr

/-- Why a text is no formula. Positions count characters from zero. -/
inductive FormulaError where
  | empty
  | unexpected (position : Nat) (found : Char)
  | trailingOperator
  | zeroFaces
  | overflow
deriving DecidableEq, Repr

/-- The message about a text. -/
def FormulaError.message (formula : String) : FormulaError → String
  | empty => "formula is empty"
  | unexpected position found =>
    "unexpected `" ++ found.toString ++ "` at position " ++
      String.ofList (Text.natText position) ++ " in `" ++ formula ++ "`"
  | trailingOperator => "formula `" ++ formula ++ "` ends with an operator"
  | zeroFaces => "dice must have at least one face in `" ++ formula ++ "`"
  | overflow => "number out of range in `" ++ formula ++ "`"

namespace Formula

/-! ## Reading -/

/-- A character of a reference. -/
def isKeyChar (c : Char) : Bool :=
  c.isAlphanum || c = '_' || c = '.'

/-- Drops the blanks in front. -/
def skipBlanks (cs : List Char) : List Char :=
  cs.dropWhile Text.isBlank

/-- The number at the beginning, if there is a digit, and what is left. Numbers have 64 bits. -/
def readNumber (cs : List Char) : Except FormulaError (Option Nat × List Char) :=
  match cs.takeWhile Char.isDigit with
  | [] => .ok (none, cs)
  | digits =>
    if Nat.ofDigitChars 10 digits 0 < UInt64.size then
      .ok (some (Nat.ofDigitChars 10 digits 0), cs.dropWhile Char.isDigit)
    else .error .overflow

/-- The term of dice, from what stands before and after the letter d. A missing count is one. -/
def diceTerm (count : Option Nat) (faces : Nat) : Except FormulaError Term :=
  if faces = 0 then .error .zeroFaces
  else if UInt32.size ≤ count.getD 1 ∨ UInt32.size ≤ faces then .error .overflow
  else .ok (.dice (UInt32.ofNat (count.getD 1)) (UInt32.ofNat faces))

/-- The term at the beginning, and what is left. `total` is the length of the whole text, from
which positions are told. -/
def readTerm (total : Nat) : List Char → Except FormulaError (Term × List Char)
  | '@' :: cs =>
    match cs.takeWhile isKeyChar with
    | [] => .error (.unexpected (total - cs.length - 1) '@')
    | key => .ok (.reference (String.ofList key), cs.dropWhile isKeyChar)
  | cs =>
    match readNumber cs with
    | .error e => .error e
    | .ok (leading, rest) =>
      match rest with
      | c :: afterD =>
        if c = 'd' ∨ c = 'D' then
          match readNumber afterD with
          | .error e => .error e
          | .ok (none, _) =>
            .error (.unexpected (total - afterD.length) (afterD.head?.getD ' '))
          | .ok (some faces, rest) => (diceTerm leading faces).map fun t => (t, rest)
        else constantTerm total leading rest
      | [] => constantTerm total leading rest
where
  /-- The constant of a number that was read in front of `rest`. -/
  constantTerm (total : Nat) (leading : Option Nat) (rest : List Char) :
      Except FormulaError (Term × List Char) :=
    match leading with
    | some n =>
      if n ≤ 0x7fffffffffffffff then .ok (.constant (Int64.ofNat n), rest) else .error .overflow
    | none => .error (.unexpected (total - rest.length) (rest.head?.getD ' '))

theorem length_dropWhile_le (p : Char → Bool) (cs : List Char) :
    (cs.dropWhile p).length ≤ cs.length :=
  (List.dropWhile_sublist p).length_le

theorem length_dropWhile_lt {p : Char → Bool} {cs : List Char} (h : cs.takeWhile p ≠ []) :
    (cs.dropWhile p).length < cs.length := by
  cases cs with
  | nil => simp at h
  | cons c cs =>
    rw [List.takeWhile_cons] at h
    split at h
    · rename_i hp
      rw [List.dropWhile_cons_of_pos hp]
      exact Nat.lt_succ_of_le (length_dropWhile_le p cs)
    · exact absurd rfl h

/-- A number that is there takes at least one character. -/
theorem readNumber_length {cs rest : List Char} {n : Option Nat}
    (h : readNumber cs = .ok (n, rest)) :
    rest.length ≤ cs.length ∧ (n.isSome → rest.length < cs.length) := by
  unfold readNumber at h
  split at h
  · cases h; simp
  · rename_i hd
    split at h
    · cases h
      have := length_dropWhile_lt hd
      exact ⟨Nat.le_of_lt this, fun _ => this⟩
    · cases h

theorem constantTerm_length {total : Nat} {leading : Option Nat} {rest left : List Char} {t : Term}
    (h : readTerm.constantTerm total leading rest = .ok (t, left)) :
    leading.isSome ∧ left = rest := by
  unfold readTerm.constantTerm at h
  split at h
  · split at h
    · cases h; simp
    · cases h
  · cases h

/-- A term takes at least one character. -/
theorem readTerm_length {total : Nat} {cs rest : List Char} {t : Term}
    (h : readTerm total cs = .ok (t, rest)) : rest.length < cs.length := by
  unfold readTerm at h
  split at h
  · rename_i cs
    split at h
    · cases h
    · cases h
      exact Nat.lt_succ_of_le (length_dropWhile_le _ cs)
  · rename_i cs _
    split at h
    · cases h
    · rename_i leading mid hmid
      have hm := readNumber_length hmid
      split at h
      · rename_i c afterD
        split at h
        · split at h
          · cases h
          · cases h
          · rename_i faces left hf
            have hl := (readNumber_length hf).1
            cases hd : diceTerm leading faces with
            | error e => simp [hd, Except.map] at h
            | ok u =>
              simp only [hd, Except.map, Except.ok.injEq, Prod.mk.injEq] at h
              have := hm.1
              simp only [List.length_cons] at this
              rw [← h.2]
              omega
        · obtain ⟨hs, rfl⟩ := constantTerm_length h
          exact hm.2 hs
      · obtain ⟨hs, rfl⟩ := constantTerm_length h
        exact hm.2 hs

/-- The terms of a text without blanks in front, of which the first one is negative or not before
its own signs are looked at. -/
def readTerms (total : Nat) (negative : Bool) (cs : List Char) :
    Except FormulaError (List SignedTerm) :=
  match cs with
  | [] => .error .trailingOperator
  | '+' :: rest => readTerms total negative (skipBlanks rest)
  | '-' :: rest => readTerms total (!negative) (skipBlanks rest)
  | c :: tail =>
    match _h : readTerm total (c :: tail) with
    | .error e => .error e
    | .ok (term, rest) =>
      match hs : skipBlanks rest with
      | [] => .ok [⟨negative, term⟩]
      | '+' :: more =>
        (readTerms total false (skipBlanks more)).map fun ts => ⟨negative, term⟩ :: ts
      | '-' :: more =>
        (readTerms total true (skipBlanks more)).map fun ts => ⟨negative, term⟩ :: ts
      | found :: more => .error (.unexpected (total - more.length - 1) found)
termination_by cs.length
decreasing_by
  · exact Nat.lt_succ_of_le (length_dropWhile_le _ _)
  · exact Nat.lt_succ_of_le (length_dropWhile_le _ _)
  all_goals
    have h1 := readTerm_length _h
    have h2 : (skipBlanks rest).length ≤ rest.length := length_dropWhile_le _ _
    have h3 : (skipBlanks more).length ≤ more.length := length_dropWhile_le _ _
    rw [hs] at h2
    simp only [List.length_cons] at *
    omega

/-- Reads a formula. -/
def read (source : String) : Except FormulaError Formula :=
  match skipBlanks source.toList with
  | [] => .error .empty
  | cs => (readTerms source.toList.length false cs).map fun terms => { source, terms }

/-! ## Printing -/

/-- The text of an operand. -/
def termText : Term → List Char
  | .dice count faces => Text.natText count.toNat ++ 'd' :: Text.natText faces.toNat
  | .constant n => Text.intText n.toInt
  | .reference key => '@' :: key.toList

/-- The text of a term after others. -/
def laterText (t : SignedTerm) : List Char :=
  ' ' :: (if t.negative then '-' else '+') :: ' ' :: termText t.term

/-- The text of terms. -/
def termsText : List SignedTerm → List Char
  | [] => []
  | t :: ts => (if t.negative then ['-'] else []) ++ termText t.term ++ ts.flatMap laterText

/-- The canonical text of a formula. -/
def text (f : Formula) : String :=
  String.ofList (termsText f.terms)

/-! ## References -/

/-- Named values. The first pair of a name counts. -/
abbrev RollData := List (String × Int64)

/-- Replaces a reference by its value; a name without a value stands for zero. -/
def resolveTerm (data : RollData) : Term → Term
  | .reference key => .constant ((data.lookup key).getD 0)
  | t => t

/-- Replaces all references. -/
def resolve (data : RollData) (f : Formula) : Formula :=
  { f with terms := f.terms.map fun t => { t with term := resolveTerm data t.term } }

/-! ## The primary die -/

/-- Whether a term brings the primary die: dice that are added, at least one of them. -/
def isPrimary (t : SignedTerm) : Bool :=
  match t.term with
  | .dice count _ => !t.negative && count ≠ 0
  | _ => false

/-- The place of the term that brings the primary die: the first one that can. -/
def primaryIndex? (f : Formula) : Option Nat :=
  f.terms.findIdx? isPrimary

end Formula

end Spellwork
