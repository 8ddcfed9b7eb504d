import Mathlib.Data.List.TakeWhile
import Spellwork.Dice.Formula
import Spellwork.Text.Words

/-!
# Text at the end of a formula

Reading goes from left to right and never looks back, so signed operands at the end of a formula
are read behind its terms (`toOption_read_append`). Whether an operand can be read is settled by its
own characters, whatever signed text stands behind it (`Operand.Sound`): the digits have to be
ASCII, dice need a face, and the numbers have to fit.
-/

namespace Spellwork

namespace Formula

/-! ## Signs and blanks -/

def IsSign (c : Char) : Prop :=
  c = '+' ∨ c = '-'

instance (c : Char) : Decidable (IsSign c) :=
  inferInstanceAs (Decidable (_ ∨ _))

/-- Nothing of the text can belong to a term that stands in front of it. -/
def Ends (cs : List Char) : Prop :=
  ∀ c ∈ cs.head?, IsSign c

theorem Ends.cons {s : Char} (hs : IsSign s) (cs : List Char) : Ends (s :: cs) := by
  intro c hc
  cases hc
  exact hs

theorem ends_nil : Ends [] := by
  intro c hc
  cases hc

theorem Ends.append {cs cs' : List Char} (h : Ends cs) (h' : Ends cs') : Ends (cs ++ cs') := by
  cases cs with
  | nil => exact h'
  | cons c cs => exact .cons (h c rfl) _

theorem IsSign.not_isKeyChar {c : Char} (h : IsSign c) : isKeyChar c = false := by
  rcases h with rfl | rfl <;> rfl

theorem IsSign.not_isDigit {c : Char} (h : IsSign c) : c.isDigit = false := by
  rcases h with rfl | rfl <;> rfl

theorem IsSign.not_isBlank {c : Char} (h : IsSign c) : Text.isBlank c = false := by
  rcases h with rfl | rfl <;> rfl

/-- Nothing of the text can belong to a term printed in front of it. -/
def Parted (cs : List Char) : Prop :=
  ∀ c ∈ cs.head?, isKeyChar c = false

theorem Ends.parted {cs : List Char} (h : Ends cs) : Parted cs := fun c hc =>
  (h c hc).not_isKeyChar

theorem Parted.not_isDigit {cs : List Char} (h : Parted cs) :
    ∀ c ∈ cs.head?, c.isDigit = false := by
  intro c hc
  have hkey := h c hc
  simp only [isKeyChar, Char.isAlphanum, Bool.or_eq_false_iff] at hkey
  exact hkey.1.1.2

theorem Parted.ne_letter {c : Char} {cs : List Char} (h : Parted (c :: cs)) :
    ¬ (c = 'd' ∨ c = 'D') := by
  have hkey := h c rfl
  rintro (rfl | rfl) <;> exact absurd hkey (by decide)

section Ends

variable {p : Char → Bool} {cs tail : List Char}

theorem takeWhile_eq_nil (h : ∀ c ∈ tail.head?, p c = false) : tail.takeWhile p = [] := by
  cases tail with
  | nil => rfl
  | cons c tail => rw [List.takeWhile_cons_of_neg (by simp [h c rfl])]

theorem takeWhile_append_of_head? (h : ∀ c ∈ tail.head?, p c = false) :
    (cs ++ tail).takeWhile p = cs.takeWhile p := by
  rw [List.takeWhile_append]
  split
  · rename_i hlen
    rw [takeWhile_eq_nil h, List.append_nil]
    exact ((List.takeWhile_prefix p).eq_of_length hlen).symm
  · rfl

theorem dropWhile_append_of_head? (h : ∀ c ∈ tail.head?, p c = false) :
    (cs ++ tail).dropWhile p = cs.dropWhile p ++ tail := by
  induction cs with
  | nil => exact Text.dropWhile_eq_self h
  | cons c cs ih =>
      rw [List.cons_append, List.dropWhile_cons, List.dropWhile_cons]
      split
      · exact ih
      · rfl

theorem skipBlanks_append (h : Ends tail) : skipBlanks (cs ++ tail) = skipBlanks cs ++ tail :=
  dropWhile_append_of_head? fun c hc => (h c hc).not_isBlank

theorem skipBlanks_eq_self (h : Ends tail) : skipBlanks tail = tail :=
  Text.dropWhile_eq_self fun c hc => (h c hc).not_isBlank

theorem readNumber_append (h : Ends tail) :
    readNumber (cs ++ tail) = (readNumber cs).map fun read => (read.1, read.2 ++ tail) := by
  have hdigit : ∀ c ∈ tail.head?, c.isDigit = false := fun c hc => (h c hc).not_isDigit
  unfold readNumber
  rw [takeWhile_append_of_head? hdigit, dropWhile_append_of_head? hdigit]
  split
  · rfl
  · split <;> rfl

/-! ## One term -/

theorem toOption_map {α β ε : Type} (f : α → β) (x : Except ε α) :
    (x.map f).toOption = x.toOption.map f := by
  cases x <;> rfl

theorem eq_ok_of_map_eq_ok {α β ε : Type} {f : α → β} {x : Except ε α} {b : β}
    (h : x.map f = .ok b) : ∃ a, x = .ok a ∧ f a = b := by
  cases x with
  | error e => cases h
  | ok a => exact ⟨a, rfl, Except.ok.inj h⟩

theorem exists_ok_iff {α ε : Type} {x : Except ε α} : (∃ a, x = .ok a) ↔ x.toOption ≠ none := by
  cases x with
  | ok a => simp [Except.toOption]
  | error e => simp [Except.toOption]

theorem eq_ok_of_toOption {α ε : Type} {x : Except ε α} {a : α} (h : x.toOption = some a) :
    x = .ok a := by
  cases x with
  | ok b => exact congrArg Except.ok (Option.some.inj h)
  | error e => cases h

theorem toOption_constantTerm_append (m n : Nat) (leading : Option Nat) (rest : List Char) :
    (readTerm.constantTerm n leading (rest ++ tail)).toOption =
      (readTerm.constantTerm m leading rest).toOption.map fun read => (read.1, read.2 ++ tail) := by
  unfold readTerm.constantTerm
  split
  · split <;> rfl
  · rfl

theorem readTerm_of_head?_ne (h : ∀ c ∈ cs.head?, c ≠ '@') (total : Nat) :
    readTerm total cs =
      match readNumber cs with
      | .error e => .error e
      | .ok (leading, d :: afterD) =>
        if d = 'd' ∨ d = 'D' then
          match readNumber afterD with
          | .error e => .error e
          | .ok (none, _) => .error (.unexpected (total - afterD.length) (afterD.head?.getD ' '))
          | .ok (some faces, rest) => (diceTerm leading faces).map fun t => (t, rest)
        else readTerm.constantTerm total leading (d :: afterD)
      | .ok (leading, []) => readTerm.constantTerm total leading [] := by
  unfold readTerm
  split
  · exact absurd rfl (h '@' rfl)
  · cases readNumber cs with
    | error e => rfl
    | ok read =>
        obtain ⟨leading, rest⟩ := read
        cases rest <;> rfl

/-- What ends a term has no part in it. -/
theorem toOption_readTerm_append (h : Ends tail) (hne : cs ≠ []) (m n : Nat) :
    (readTerm n (cs ++ tail)).toOption =
      (readTerm m cs).toOption.map fun read => (read.1, read.2 ++ tail) := by
  obtain ⟨c, cs, rfl⟩ := List.exists_cons_of_ne_nil hne
  have hkey : ∀ c ∈ tail.head?, isKeyChar c = false := fun c hc => (h c hc).not_isKeyChar
  by_cases hc : c = '@'
  · subst hc
    rw [List.cons_append, readTerm, readTerm, takeWhile_append_of_head? hkey,
      dropWhile_append_of_head? hkey]
    split <;> rfl
  · have hat : ∀ x ∈ (c :: cs).head?, x ≠ '@' := by
      intro x hx
      cases hx
      exact hc
    have hlong : ∀ x ∈ (c :: cs ++ tail).head?, x ≠ '@' := hat
    rw [readTerm_of_head?_ne hlong, readTerm_of_head?_ne hat, readNumber_append h]
    cases hnum : readNumber (c :: cs) with
    | error e => rfl
    | ok read =>
        obtain ⟨leading, rest⟩ := read
        cases rest with
        | nil =>
            -- the sign behind a numeral is no letter d
            cases tail with
            | nil => exact toOption_constantTerm_append m n leading []
            | cons s tail =>
                have hs : ¬ (s = 'd' ∨ s = 'D') := by
                  rcases h s rfl with rfl | rfl <;> decide
                rw [← toOption_constantTerm_append m n leading []]
                simp [Except.map, hs]
        | cons d afterD =>
            by_cases hd : d = 'd' ∨ d = 'D'
            · simp only [Except.map, List.cons_append, if_pos hd, readNumber_append h]
              cases readNumber afterD with
              | error e => rfl
              | ok read =>
                  obtain ⟨faces?, rest⟩ := read
                  cases faces? with
                  | none => rfl
                  | some faces =>
                      dsimp only
                      cases diceTerm leading faces <;> rfl
            · simp only [Except.map, List.cons_append, if_neg hd]
              exact toOption_constantTerm_append m n leading (d :: afterD)

/-! ## One term after the other -/

theorem readTerms_sign {s : Char} (hs : IsSign s) (total : Nat) (negative : Bool)
    (cs : List Char) :
    readTerms total negative (s :: cs) =
      readTerms total (negative != decide (s = '-')) (skipBlanks cs) := by
  rcases hs with rfl | rfl
  · rw [readTerms]
    simp
  · rw [readTerms]
    simp

/-- The terms behind a term that is over where `rest` begins. -/
def readOn (total : Nat) (rest : List Char) : Except FormulaError (List SignedTerm) :=
  match skipBlanks rest with
  | [] => .ok []
  | s :: more =>
    if IsSign s then readTerms total (s = '-') (skipBlanks more)
    else .error (.unexpected (total - more.length - 1) s)

theorem readOn_of_sign {s : Char} (hs : IsSign s) {more rest : List Char}
    (h : skipBlanks rest = s :: more) (total : Nat) :
    readOn total rest = readTerms total (s = '-') (skipBlanks more) := by
  rw [readOn, h]
  exact if_pos hs

/-- A text in which nothing but blanks stands before the end of a formula. -/
theorem readOn_congr (h : Ends tail) {rest : List Char} (hrest : skipBlanks rest = tail)
    (total : Nat) : readOn total rest = readOn total tail := by
  rw [readOn, readOn, hrest, skipBlanks_eq_self h]

theorem readTerms_of_error {c : Char} (hc : ¬ IsSign c) {total : Nat} {e : FormulaError}
    (h : readTerm total (c :: cs) = .error e) (negative : Bool) :
    readTerms total negative (c :: cs) = .error e := by
  rw [readTerms]
  · rw [h]
  · exact fun h => hc (.inl h)
  · exact fun h => hc (.inr h)

theorem readTerms_of_ok {c : Char} (hc : ¬ IsSign c) {total : Nat} {term : Term}
    {rest : List Char} (h : readTerm total (c :: cs) = .ok (term, rest)) (negative : Bool) :
    readTerms total negative (c :: cs) =
      (readOn total rest).map fun ts => ⟨negative, term⟩ :: ts := by
  rw [readTerms]
  · rw [h]
    dsimp only
    unfold readOn
    split <;> rename_i hblanks <;> rw [hblanks]
    · rfl
    · rfl
    · rfl
    · rename_i found more hplus hminus
      have hfound : ¬ IsSign found := fun h => h.elim hplus hminus
      dsimp only
      rw [if_neg hfound]
      rfl
  · exact fun h => hc (.inl h)
  · exact fun h => hc (.inr h)

theorem isSign_of_readOn {total : Nat} {rest : List Char} {us : List SignedTerm} {s : Char}
    {more : List Char} (h : readOn total rest = .ok us) (hrest : skipBlanks rest = s :: more) :
    IsSign s := by
  rw [readOn, hrest] at h
  dsimp only at h
  split at h
  · assumption
  · cases h

theorem readTerms_eq_ok_iff {c : Char} (hc : ¬ IsSign c) {total : Nat} {negative : Bool}
    {ts : List SignedTerm} :
    readTerms total negative (c :: cs) = .ok ts ↔
      ∃ term rest us, readTerm total (c :: cs) = .ok (term, rest) ∧
        readOn total rest = .ok us ∧ ts = ⟨negative, term⟩ :: us := by
  constructor
  · intro h
    cases hterm : readTerm total (c :: cs) with
    | error e =>
        rw [readTerms_of_error hc hterm] at h
        cases h
    | ok read =>
        obtain ⟨term, rest⟩ := read
        rw [readTerms_of_ok hc hterm] at h
        cases hon : readOn total rest with
        | error e =>
            rw [hon] at h
            cases h
        | ok us =>
            rw [hon] at h
            cases h
            exact ⟨term, rest, us, rfl, hon, rfl⟩
  · rintro ⟨term, rest, us, hterm, hon, rfl⟩
    rw [readTerms_of_ok hc hterm, hon]
    rfl

theorem readTerm_append_of_ok (h : Ends tail) (hne : cs ≠ []) {m : Nat} {term : Term}
    {rest : List Char} (hread : readTerm m cs = .ok (term, rest)) (n : Nat) :
    readTerm n (cs ++ tail) = .ok (term, rest ++ tail) := by
  have happend := toOption_readTerm_append h hne m n
  rw [hread] at happend
  cases hlong : readTerm n (cs ++ tail) with
  | error e =>
      rw [hlong] at happend
      cases happend
  | ok read =>
      rw [hlong] at happend
      cases happend
      rfl

/-- What ends a formula is read behind its terms. -/
theorem toOption_readTerms_append (hends : Ends tail) {m : Nat} {negative : Bool}
    {ts : List SignedTerm} (h : readTerms m negative cs = .ok ts) (n : Nat) :
    (readTerms n negative (cs ++ tail)).toOption = (readOn n tail).toOption.map (ts ++ ·) := by
  induction hlen : cs.length using Nat.strongRecOn generalizing negative cs ts with
  | _ k ih =>
      subst hlen
      cases cs with
      | nil =>
          rw [readTerms] at h
          cases h
      | cons c cs =>
          by_cases hc : IsSign c
          · rw [readTerms_sign hc] at h
            rw [List.cons_append, readTerms_sign hc, skipBlanks_append hends]
            exact ih _ (Nat.lt_succ_of_le (length_dropWhile_le _ cs)) h rfl
          · obtain ⟨term, rest, us, hterm, hon, rfl⟩ := (readTerms_eq_ok_iff hc).mp h
            have hlong := readTerm_append_of_ok hends (List.cons_ne_nil c cs) hterm n
            rw [List.cons_append] at hlong ⊢
            rw [readTerms_of_ok hc hlong, toOption_map]
            have hshort := readTerm_length hterm
            cases hrest : skipBlanks rest with
            | nil =>
                have hlast : skipBlanks (rest ++ tail) = tail := by
                  rw [skipBlanks_append hends, hrest, List.nil_append]
                rw [readOn, hrest] at hon
                cases hon
                rw [readOn_congr hends hlast]
                rfl
            | cons s more =>
                have hlast : skipBlanks (rest ++ tail) = s :: (more ++ tail) := by
                  rw [skipBlanks_append hends, hrest, List.cons_append]
                have hs : IsSign s := isSign_of_readOn hon hrest
                rw [readOn_of_sign hs hrest] at hon
                have hmore : (skipBlanks more).length < (c :: cs).length := by
                  have h1 := length_dropWhile_le Text.isBlank rest
                  have h2 := length_dropWhile_le Text.isBlank more
                  rw [show rest.dropWhile Text.isBlank = s :: more from hrest] at h1
                  simp only [List.length_cons] at h1
                  unfold skipBlanks
                  omega
                rw [readOn_of_sign hs hlast, skipBlanks_append hends, ih _ hmore hon rfl,
                  Option.map_map]
                rfl

/-! ## Numerals and dice -/

/-- A character of numerals, of whatever script: nothing that has a meaning of its own in a
formula. -/
def Inert (c : Char) : Prop :=
  ¬ IsSign c ∧ Text.isBlank c = false ∧ c ≠ 'd' ∧ c ≠ 'D' ∧ c ≠ '@'

/-- A numeral, or dice with the numerals before and after the letter d. -/
inductive Operand where
  | numeral (digits : List Char)
  | dice (count faces : List Char)

namespace Operand

def text : Operand → List Char
  | numeral digits => digits
  | dice count faces => count ++ 'd' :: faces

/-- Nothing but the number of dice may be left out, and every numeral is made of numeral
characters. -/
def Written : Operand → Prop
  | numeral digits => digits ≠ [] ∧ ∀ c ∈ digits, Inert c
  | dice count faces => (∀ c ∈ count, Inert c) ∧ faces ≠ [] ∧ ∀ c ∈ faces, Inert c

/-- The number of dice; a missing one is one. -/
def countOf (count : List Char) : Nat :=
  if count = [] then 1 else Nat.ofDigitChars 10 count 0

/-- Every numeral of the operand is in ASCII digits. -/
def Digital : Operand → Prop
  | numeral digits => ∀ c ∈ digits, c.isDigit = true
  | dice count faces => (∀ c ∈ count, c.isDigit = true) ∧ ∀ c ∈ faces, c.isDigit = true

/-- The numbers of the operand are numbers that a term can have. -/
def InRange : Operand → Prop
  | numeral digits => Nat.ofDigitChars 10 digits 0 ≤ 0x7fffffffffffffff
  | dice count faces =>
    countOf count < UInt32.size ∧ 0 < Nat.ofDigitChars 10 faces 0 ∧
      Nat.ofDigitChars 10 faces 0 < UInt32.size

/-- The operand can be read. -/
def Sound (o : Operand) : Prop :=
  o.Digital ∧ o.InRange

-- The lists are gone through, and not the type of characters, for which there is an instance too.
instance : (o : Operand) → Decidable o.Digital
  | numeral digits => List.decidableBAll _ digits
  | dice count faces =>
    @instDecidableAnd _ _ (List.decidableBAll _ count) (List.decidableBAll _ faces)

instance : (o : Operand) → Decidable o.InRange
  | numeral digits =>
    inferInstanceAs (Decidable (Nat.ofDigitChars 10 digits 0 ≤ 0x7fffffffffffffff))
  | dice count faces =>
    inferInstanceAs (Decidable (countOf count < UInt32.size ∧
      0 < Nat.ofDigitChars 10 faces 0 ∧ Nat.ofDigitChars 10 faces 0 < UInt32.size))

instance (o : Operand) : Decidable o.Sound :=
  inferInstanceAs (Decidable (_ ∧ _))

/-- The term that a sound operand stands for. -/
def term : Operand → Term
  | numeral digits => .constant (Int64.ofNat (Nat.ofDigitChars 10 digits 0))
  | dice count faces =>
    .dice (UInt32.ofNat (countOf count)) (UInt32.ofNat (Nat.ofDigitChars 10 faces 0))

end Operand

theorem readNumber_digits {digits : List Char} (hdigits : ∀ c ∈ digits, c.isDigit = true)
    (htail : ∀ c ∈ tail.head?, c.isDigit = false) :
    readNumber (digits ++ tail) =
      if Nat.ofDigitChars 10 digits 0 < UInt64.size then
        .ok (if digits = [] then none else some (Nat.ofDigitChars 10 digits 0), tail)
      else .error .overflow := by
  have htake : (digits ++ tail).takeWhile Char.isDigit = digits := by
    rw [List.takeWhile_append_of_pos hdigits, takeWhile_eq_nil htail, List.append_nil]
  have hdrop : (digits ++ tail).dropWhile Char.isDigit = tail := by
    rw [Text.dropWhile_append_of_all hdigits, Text.dropWhile_eq_self htail]
  unfold readNumber
  rw [htake, hdrop]
  cases digits with
  | nil => rfl
  | cons c digits => rfl

/-- A number that is read has the digits in front, and leaves what stands behind them. -/
theorem exists_digits_of_readNumber {cs rest : List Char} {n : Option Nat}
    (h : readNumber cs = .ok (n, rest)) :
    ∃ digits, (∀ c ∈ digits, c.isDigit = true) ∧ cs = digits ++ rest ∧
      n = if digits = [] then none else some (Nat.ofDigitChars 10 digits 0) := by
  refine ⟨cs.takeWhile Char.isDigit, fun c hc => List.mem_takeWhile_imp hc, ?_⟩
  unfold readNumber at h
  split at h
  · rename_i hnone
    cases h
    rw [hnone]
    exact ⟨rfl, rfl⟩
  · rename_i hsome
    split at h
    · cases h
      rw [if_neg hsome]
      exact ⟨List.takeWhile_append_dropWhile.symm, rfl⟩
    · cases h

/-- Behind the digits at the beginning of what is not all digits, something else is left. -/
theorem readNumber_of_not_digits {digits : List Char} (h : ¬ ∀ c ∈ digits, c.isDigit = true)
    {n : Option Nat} {left : List Char} (hread : readNumber (digits ++ tail) = .ok (n, left)) :
    ∃ c more, c ∈ digits ∧ left = c :: more := by
  obtain ⟨front, hfront, happend, -⟩ := exists_digits_of_readNumber hread
  rcases List.append_eq_append_iff.mp happend with ⟨rest, rfl, -⟩ | ⟨rest, rfl, rfl⟩
  · exact absurd (fun c hc => hfront c (List.mem_append_left rest hc)) h
  · cases rest with
    | nil =>
        rw [List.append_nil] at h
        exact absurd hfront h
    | cons c rest =>
        exact ⟨c, rest ++ tail, List.mem_append_right front List.mem_cons_self, rfl⟩

theorem toOption_diceTerm (count faces : List Char) :
    (diceTerm (if count = [] then none else some (Nat.ofDigitChars 10 count 0))
      (Nat.ofDigitChars 10 faces 0)).toOption =
      if (Operand.dice count faces).InRange then some (Operand.dice count faces).term
      else none := by
  have hcount : (if count = [] then none else some (Nat.ofDigitChars 10 count 0)).getD 1 =
      Operand.countOf count := by
    unfold Operand.countOf
    split <;> rfl
  show _ = if Operand.countOf count < UInt32.size ∧ 0 < Nat.ofDigitChars 10 faces 0 ∧
    Nat.ofDigitChars 10 faces 0 < UInt32.size then _ else _
  unfold diceTerm
  rw [hcount]
  by_cases hzero : Nat.ofDigitChars 10 faces 0 = 0
  · rw [if_pos hzero, if_neg (by omega)]
    rfl
  · rw [if_neg hzero]
    by_cases hlarge : UInt32.size ≤ Operand.countOf count ∨
        UInt32.size ≤ Nat.ofDigitChars 10 faces 0
    · rw [if_pos hlarge, if_neg (by omega)]
      rfl
    · rw [if_neg hlarge, if_pos (by omega)]
      rfl

theorem Operand.head?_text_ne_at {o : Operand} (h : o.Written) :
    ∀ c ∈ (o.text ++ tail).head?, c ≠ '@' := by
  intro c hc
  cases o with
  | numeral digits =>
      obtain ⟨d, digits, rfl⟩ := List.exists_cons_of_ne_nil h.1
      cases hc
      exact (h.2 c List.mem_cons_self).2.2.2.2
  | dice count faces =>
      cases count with
      | nil =>
          cases hc
          decide
      | cons d count =>
          cases hc
          exact (h.1 c List.mem_cons_self).2.2.2.2

theorem ne_at_of_isDigit {c : Char} (h : c.isDigit = true) : c ≠ '@' := by
  rintro rfl
  exact absurd h (by decide)

/-- A numeral is read as a constant, if it is not too large for one. -/
theorem readTerm_numeral {digits : List Char} (hne : digits ≠ [])
    (hdigits : ∀ c ∈ digits, c.isDigit = true) (h : Parted tail) (total : Nat) :
    readTerm total (digits ++ tail) =
      if (Operand.numeral digits).InRange then .ok ((Operand.numeral digits).term, tail)
      else .error .overflow := by
  have hat : ∀ c ∈ (digits ++ tail).head?, c ≠ '@' := by
    obtain ⟨d, digits, rfl⟩ := List.exists_cons_of_ne_nil hne
    intro c hc
    cases hc
    exact ne_at_of_isDigit (hdigits d List.mem_cons_self)
  rw [readTerm_of_head?_ne hat, readNumber_digits hdigits h.not_isDigit, if_neg hne]
  by_cases hlarge : Nat.ofDigitChars 10 digits 0 < UInt64.size
  · rw [if_pos hlarge]
    cases tail with
    | nil => rfl
    | cons c cs =>
        dsimp only
        rw [if_neg h.ne_letter]
        rfl
  · have hrange : ¬ (Operand.numeral digits).InRange := by
      intro hle
      exact hlarge (Nat.lt_of_le_of_lt hle (by decide))
    rw [if_neg hlarge, if_neg hrange]

/-- Numerals with a letter d between them are read as dice, if they can be numbers of dice. -/
theorem toOption_readTerm_dice {count faces : List Char} {letter : Char}
    (hletter : letter = 'd' ∨ letter = 'D') (hcount : ∀ c ∈ count, c.isDigit = true)
    (hne : faces ≠ []) (hfaces : ∀ c ∈ faces, c.isDigit = true) (h : Parted tail) (total : Nat) :
    (readTerm total (count ++ letter :: (faces ++ tail))).toOption =
      if (Operand.dice count faces).InRange then some ((Operand.dice count faces).term, tail)
      else none := by
  have hd : ∀ c ∈ (letter :: (faces ++ tail)).head?, c.isDigit = false := by
    intro c hc
    cases hc
    rcases hletter with rfl | rfl <;> rfl
  have hat : ∀ c ∈ (count ++ letter :: (faces ++ tail)).head?, c ≠ '@' := by
    intro c hc
    cases count with
    | nil =>
        cases hc
        rcases hletter with rfl | rfl <;> decide
    | cons d count =>
        cases hc
        exact ne_at_of_isDigit (hcount c List.mem_cons_self)
  rw [readTerm_of_head?_ne hat, readNumber_digits hcount hd]
  by_cases hsmall : Nat.ofDigitChars 10 count 0 < UInt64.size
  · rw [if_pos hsmall]
    dsimp only
    rw [if_pos hletter, readNumber_digits hfaces h.not_isDigit, if_neg hne]
    by_cases hfits : Nat.ofDigitChars 10 faces 0 < UInt64.size
    · rw [if_pos hfits]
      dsimp only
      rw [toOption_map, toOption_diceTerm]
      split <;> rfl
    · have hrange : ¬ (Operand.dice count faces).InRange := by
        intro hrange
        exact hfits (Nat.lt_trans hrange.2.2 (by decide))
      rw [if_neg hfits, if_neg hrange]
      rfl
  · have hrange : ¬ (Operand.dice count faces).InRange := by
      intro hrange
      have hlt := hrange.1
      have hsize : UInt32.size < UInt64.size := by decide
      unfold Operand.countOf at hlt
      split at hlt
      · rename_i hnil
        rw [hnil] at hsmall
        exact hsmall (by decide)
      · omega
    rw [if_neg hsmall, if_neg hrange]
    rfl

theorem toOption_readTerm_operand {o : Operand} (hwritten : o.Written) (hdigital : o.Digital)
    (h : Parted tail) (total : Nat) :
    (readTerm total (o.text ++ tail)).toOption =
      if o.InRange then some (o.term, tail) else none := by
  cases o with
  | numeral digits =>
      rw [Operand.text, readTerm_numeral hwritten.1 hdigital h]
      split <;> rfl
  | dice count faces =>
      rw [Operand.text, List.append_assoc, List.cons_append,
        toOption_readTerm_dice (.inl rfl) hdigital.1 hwritten.2.1 hdigital.2 h]

/-- A numeral in other digits is left standing, and is no sign. -/
theorem readTerm_of_not_digital {o : Operand} (hwritten : o.Written) (h : ¬ o.Digital)
    {total : Nat} {term : Term} {rest : List Char}
    (hread : readTerm total (o.text ++ tail) = .ok (term, rest)) :
    ∃ c more, Inert c ∧ rest = c :: more := by
  rw [readTerm_of_head?_ne (Operand.head?_text_ne_at hwritten)] at hread
  -- where the first numeral is left standing, nothing behind it is looked at
  have hfirst : ∀ digits after, (∀ c ∈ digits, Inert c) → (¬ ∀ c ∈ digits, c.isDigit = true) →
      o.text ++ tail = digits ++ after → ∃ c more, Inert c ∧ rest = c :: more := by
    intro digits after hinert hdigits htext
    rw [htext] at hread
    cases hnum : readNumber (digits ++ after) with
    | error e =>
        rw [hnum] at hread
        cases hread
    | ok read =>
        obtain ⟨leading, left⟩ := read
        obtain ⟨c, more, hc, rfl⟩ := readNumber_of_not_digits hdigits hnum
        have hplain := hinert c hc
        rw [hnum] at hread
        dsimp only at hread
        rw [if_neg fun hd => hd.elim hplain.2.2.1 hplain.2.2.2.1] at hread
        exact ⟨c, more, hplain, (constantTerm_length hread).2⟩
  cases o with
  | numeral digits => exact hfirst digits tail hwritten.2 h rfl
  | dice count faces =>
      by_cases hcount : ∀ c ∈ count, c.isDigit = true
      · have hfaces : ¬ ∀ c ∈ faces, c.isDigit = true := fun hall => h ⟨hcount, hall⟩
        have hd : ∀ c ∈ ('d' :: (faces ++ tail)).head?, c.isDigit = false := by
          intro c hc
          cases hc
          rfl
        rw [Operand.text, List.append_assoc, List.cons_append,
          readNumber_digits hcount hd] at hread
        by_cases hlarge : Nat.ofDigitChars 10 count 0 < UInt64.size
        · rw [if_pos hlarge] at hread
          dsimp only at hread
          rw [if_pos (Or.inl rfl)] at hread
          cases hnum : readNumber (faces ++ tail) with
          | error e =>
              rw [hnum] at hread
              cases hread
          | ok read =>
              obtain ⟨leading, left⟩ := read
              obtain ⟨c, more, hc, rfl⟩ := readNumber_of_not_digits hfaces hnum
              refine ⟨c, more, hwritten.2.2 c hc, ?_⟩
              rw [hnum] at hread
              cases leading with
              | none => cases hread
              | some n =>
                  dsimp only at hread
                  cases hdice : diceTerm
                      (if count = [] then none else some (Nat.ofDigitChars 10 count 0)) n with
                  | error e =>
                      rw [hdice] at hread
                      cases hread
                  | ok t =>
                      rw [hdice] at hread
                      cases hread
                      rfl
        · rw [if_neg hlarge] at hread
          cases hread
      · refine hfirst count ('d' :: faces ++ tail) hwritten.1 hcount ?_
        rw [Operand.text, List.append_assoc]

theorem toOption_readOn_of_inert {c : Char} (h : Inert c) (total : Nat) (more : List Char) :
    (readOn total (c :: more)).toOption = none := by
  have hblanks : skipBlanks (c :: more) = c :: more :=
    Text.dropWhile_eq_self fun d hd => by
      cases hd
      exact h.2.1
  rw [readOn, hblanks]
  dsimp only
  rw [if_neg h.1]
  rfl

theorem toOption_readTerms_cons {c : Char} (hc : ¬ IsSign c) (total : Nat) (negative : Bool)
    (cs : List Char) :
    (readTerms total negative (c :: cs)).toOption =
      (readTerm total (c :: cs)).toOption.bind fun read =>
        (readOn total read.2).toOption.map (⟨negative, read.1⟩ :: ·) := by
  cases hterm : readTerm total (c :: cs) with
  | error e => rw [readTerms_of_error hc hterm]; rfl
  | ok read =>
      obtain ⟨term, rest⟩ := read
      rw [readTerms_of_ok hc hterm, toOption_map]
      rfl

/-- A text of one operand is read if and only if the operand is sound. -/
theorem toOption_readTerms_operand {o : Operand} (hwritten : o.Written) (htail : Ends tail)
    (total : Nat) (negative : Bool) :
    (readTerms total negative (o.text ++ tail)).toOption =
      if o.Sound then (readOn total tail).toOption.map (⟨negative, o.term⟩ :: ·) else none := by
  obtain ⟨c, cs, hcons, hc⟩ : ∃ c cs, o.text ++ tail = c :: cs ∧ ¬ IsSign c := by
    cases o with
    | numeral digits =>
        obtain ⟨d, digits, rfl⟩ := List.exists_cons_of_ne_nil hwritten.1
        exact ⟨d, digits ++ tail, rfl, (hwritten.2 d List.mem_cons_self).1⟩
    | dice count faces =>
        cases count with
        | nil => exact ⟨'d', faces ++ tail, rfl, by decide⟩
        | cons d count =>
            exact ⟨d, count ++ 'd' :: faces ++ tail, rfl, (hwritten.1 d List.mem_cons_self).1⟩
  rw [hcons, toOption_readTerms_cons hc, ← hcons]
  by_cases hdigital : o.Digital
  · rw [toOption_readTerm_operand hwritten hdigital htail.parted]
    by_cases hrange : o.InRange
    · rw [if_pos hrange, if_pos ⟨hdigital, hrange⟩]
      rfl
    · rw [if_neg hrange, if_neg fun hsound => hrange hsound.2]
      rfl
  · rw [if_neg fun hsound => hdigital hsound.1]
    cases hread : readTerm total (o.text ++ tail) with
    | error e => rfl
    | ok read =>
        obtain ⟨term, rest⟩ := read
        obtain ⟨d, more, hd, rfl⟩ := readTerm_of_not_digital hwritten hdigital hread
        show (readOn total (d :: more)).toOption.map _ = none
        rw [toOption_readOn_of_inert hd]
        rfl

end Ends

/-! ## Sums in writing -/

def signOf (negative : Bool) : Char :=
  if negative then '-' else '+'

/-- Operands with their signs, one after the other. -/
def sumText (os : List (Bool × Operand)) : List Char :=
  os.flatMap fun o => signOf o.1 :: o.2.text

theorem isSign_signOf (negative : Bool) : IsSign (signOf negative) := by
  cases negative
  · exact .inl rfl
  · exact .inr rfl

theorem sumText_cons (o : Bool × Operand) (os : List (Bool × Operand)) :
    sumText (o :: os) = signOf o.1 :: (o.2.text ++ sumText os) :=
  List.flatMap_cons

theorem ends_sumText (os : List (Bool × Operand)) : Ends (sumText os) := by
  cases os with
  | nil => exact ends_nil
  | cons o os =>
      rw [sumText_cons]
      exact .cons (isSign_signOf o.1) _

theorem Operand.skipBlanks_text {o : Operand} (h : o.Written) (tail : List Char) :
    skipBlanks (o.text ++ tail) = o.text ++ tail := by
  refine Text.dropWhile_eq_self fun c hc => ?_
  cases o with
  | numeral digits =>
      obtain ⟨d, digits, rfl⟩ := List.exists_cons_of_ne_nil h.1
      cases hc
      exact (h.2 c List.mem_cons_self).2.1
  | dice count faces =>
      cases count with
      | nil =>
          cases hc
          rfl
      | cons d count =>
          cases hc
          exact (h.1 c List.mem_cons_self).2.1

theorem toOption_readOn_sumText {os : List (Bool × Operand)} (h : ∀ o ∈ os, o.2.Written)
    (total : Nat) :
    (readOn total (sumText os)).toOption =
      if ∀ o ∈ os, o.2.Sound then some (os.map fun o => ⟨o.1, o.2.term⟩) else none := by
  induction os with
  | nil => rfl
  | cons o os ih =>
      obtain ⟨negative, o⟩ := o
      have hwritten : o.Written := h (negative, o) List.mem_cons_self
      have hrest := ih fun p hp => h p (List.mem_cons_of_mem _ hp)
      have hsign : skipBlanks (signOf negative :: (o.text ++ sumText os)) =
          signOf negative :: (o.text ++ sumText os) :=
        skipBlanks_eq_self (.cons (isSign_signOf negative) _)
      have hminus : decide (signOf negative = '-') = negative := by
        cases negative <;> rfl
      rw [sumText_cons, readOn_of_sign (isSign_signOf negative) hsign, hminus,
        Operand.skipBlanks_text hwritten, toOption_readTerms_operand hwritten (ends_sumText os),
        hrest]
      have hcons : (∀ p ∈ (negative, o) :: os, p.2.Sound) ↔ o.Sound ∧ ∀ p ∈ os, p.2.Sound :=
        List.forall_mem_cons
      by_cases hsound : o.Sound
      · rw [if_pos hsound]
        by_cases hall : ∀ p ∈ os, p.2.Sound
        · rw [if_pos hall, if_pos (hcons.mpr ⟨hsound, hall⟩)]
          rfl
        · rw [if_neg hall, if_neg fun hboth => hall (hcons.mp hboth).2]
          rfl
      · rw [if_neg hsound, if_neg fun hboth => hsound (hcons.mp hboth).1]

/-! ## Printed numbers -/

theorem inert_of_isDigit {c : Char} (h : c.isDigit = true) : Inert c := by
  refine ⟨?_, Text.isBlank_of_isDigit h, ?_, ?_, ?_⟩
  · rintro (rfl | rfl) <;> exact absurd h (by decide)
  all_goals
    rintro rfl
    exact absurd h (by decide)

theorem inert_of_mem_natText {n : Nat} : ∀ c ∈ Text.natText n, Inert c := fun _ hc =>
  inert_of_isDigit (Text.isDigit_of_mem_natText hc)

namespace Operand

/-- A natural as it is printed. -/
def ofNat (n : Nat) : Operand :=
  numeral (Text.natText n)

/-- Dice as they are printed. -/
def ofDice (count faces : Nat) : Operand :=
  dice (Text.natText count) (Text.natText faces)

theorem ofDigitChars_natText (n : Nat) : Nat.ofDigitChars 10 (Text.natText n) 0 = n :=
  Nat.ofDigitChars_ten_toDigits

theorem countOf_natText (n : Nat) : countOf (Text.natText n) = n := by
  rw [countOf, if_neg (Text.natText_ne_nil n), ofDigitChars_natText]

theorem written_ofNat (n : Nat) : (ofNat n).Written :=
  ⟨Text.natText_ne_nil n, inert_of_mem_natText⟩

theorem written_ofDice (count faces : Nat) : (ofDice count faces).Written :=
  ⟨inert_of_mem_natText, Text.natText_ne_nil faces, inert_of_mem_natText⟩

theorem sound_ofNat {n : Nat} : (ofNat n).Sound ↔ n ≤ 0x7fffffffffffffff := by
  have hdigital : (ofNat n).Digital := fun c hc => Text.isDigit_of_mem_natText hc
  have hrange : (ofNat n).InRange ↔ n ≤ 0x7fffffffffffffff := by
    simp only [ofNat, InRange, ofDigitChars_natText]
  exact (and_iff_right hdigital).trans hrange

theorem sound_ofDice {count faces : Nat} :
    (ofDice count faces).Sound ↔ count < UInt32.size ∧ 0 < faces ∧ faces < UInt32.size := by
  have hdigital : (ofDice count faces).Digital :=
    ⟨fun c hc => Text.isDigit_of_mem_natText hc, fun c hc => Text.isDigit_of_mem_natText hc⟩
  have hrange : (ofDice count faces).InRange ↔
      count < UInt32.size ∧ 0 < faces ∧ faces < UInt32.size := by
    simp only [ofDice, InRange, ofDigitChars_natText, countOf_natText]
  exact (and_iff_right hdigital).trans hrange

theorem term_ofNat (n : Nat) : (ofNat n).term = .constant (Int64.ofNat n) := by
  rw [ofNat, term, ofDigitChars_natText]

theorem term_ofDice (count faces : UInt32) :
    (ofDice count.toNat faces.toNat).term = .dice count faces := by
  rw [ofDice, term, countOf_natText, ofDigitChars_natText, UInt32.ofNat_toNat, UInt32.ofNat_toNat]

end Operand

/-! ## Whole formulas -/

theorem read_of_ne_nil {text : String} (h : skipBlanks text.toList ≠ []) :
    read text = (readTerms text.toList.length false (skipBlanks text.toList)).map
      fun terms => ⟨text, terms⟩ := by
  unfold read
  split
  · contradiction
  · rfl

theorem readTerms_of_read {text : String} {f : Formula} (h : read text = .ok f) :
    skipBlanks text.toList ≠ [] ∧
      readTerms text.toList.length false (skipBlanks text.toList) = .ok f.terms := by
  by_cases hnil : skipBlanks text.toList = []
  · rw [read, hnil] at h
    cases h
  · refine ⟨hnil, ?_⟩
    rw [read_of_ne_nil hnil] at h
    cases hterms : readTerms text.toList.length false (skipBlanks text.toList) with
    | error e =>
        rw [hterms] at h
        cases h
    | ok ts =>
        rw [hterms] at h
        cases h
        rfl

theorem source_of_read {text : String} {f : Formula} (h : read text = .ok f) : f.source = text := by
  rw [read_of_ne_nil (readTerms_of_read h).1] at h
  obtain ⟨ts, -, rfl⟩ := eq_ok_of_map_eq_ok h
  rfl

/-- What begins with a sign at the end of a formula is read on its own, behind the terms of the
formula. -/
theorem toOption_read_ending {text : String} {f : Formula} (h : read text = .ok f)
    (hends : Ends tail) :
    (read (text ++ String.ofList tail)).toOption =
      ((readOn (text.toList ++ tail).length tail).toOption.map (f.terms ++ ·)).map fun terms =>
        ⟨text ++ String.ofList tail, terms⟩ := by
  obtain ⟨hne, hterms⟩ := readTerms_of_read h
  have hlist : (text ++ String.ofList tail).toList = text.toList ++ tail := by simp
  have hskip : skipBlanks (text ++ String.ofList tail).toList = skipBlanks text.toList ++ tail := by
    rw [hlist, skipBlanks_append hends]
  rw [read_of_ne_nil (by rw [hskip]; exact List.append_ne_nil_of_left_ne_nil hne _), hskip,
    toOption_map, toOption_readTerms_append hends hterms, hlist]

/-- Signed operands at the end of a formula are read behind its terms, or one of them cannot be
read. -/
theorem toOption_read_append {text : String} {f : Formula} (h : read text = .ok f)
    {os : List (Bool × Operand)} (hos : ∀ o ∈ os, o.2.Written) :
    (read (text ++ String.ofList (sumText os))).toOption =
      if ∀ o ∈ os, o.2.Sound then
        some ⟨text ++ String.ofList (sumText os), f.terms ++ os.map fun o => ⟨o.1, o.2.term⟩⟩
      else none := by
  rw [toOption_read_ending h (ends_sumText os), toOption_readOn_sumText hos]
  split <;> rfl

theorem read_append {text : String} {f : Formula} (h : read text = .ok f)
    {os : List (Bool × Operand)} (hos : ∀ o ∈ os, o.2.Written) (hsound : ∀ o ∈ os, o.2.Sound) :
    read (text ++ String.ofList (sumText os)) =
      .ok ⟨text ++ String.ofList (sumText os),
        f.terms ++ os.map fun o => ⟨o.1, o.2.term⟩⟩ := by
  refine eq_ok_of_toOption ?_
  rw [toOption_read_append h hos, if_pos hsound]

theorem exists_read_append_iff {text : String} {f : Formula} (h : read text = .ok f)
    {os : List (Bool × Operand)} (hos : ∀ o ∈ os, o.2.Written) :
    (∃ g, read (text ++ String.ofList (sumText os)) = .ok g) ↔ ∀ o ∈ os, o.2.Sound := by
  rw [exists_ok_iff, toOption_read_append h hos]
  split
  · rename_i hsound
    exact iff_of_true (Option.some_ne_none _) hsound
  · rename_i hlost
    exact iff_of_false (fun hne => hne rfl) hlost

/-- Behind any signs an operand that cannot be read stops the reading. -/
theorem toOption_readTerms_unsound {o : Operand} (ho : o.Written) (hlost : ¬ o.Sound)
    (hends : Ends tail) {signs : List Char} (hsigns : ∀ c ∈ signs, IsSign c) (total : Nat)
    (negative : Bool) :
    (readTerms total negative (signs ++ (o.text ++ tail))).toOption = none := by
  induction signs generalizing negative with
  | nil => rw [List.nil_append, toOption_readTerms_operand ho hends, if_neg hlost]
  | cons s signs ih =>
      have hmore : ∀ c ∈ signs, IsSign c := fun c hc => hsigns c (List.mem_cons_of_mem s hc)
      have hskip : skipBlanks (signs ++ (o.text ++ tail)) = signs ++ (o.text ++ tail) := by
        cases signs with
        | nil => exact Operand.skipBlanks_text ho tail
        | cons c cs => exact skipBlanks_eq_self (.cons (hmore c List.mem_cons_self) _)
      rw [List.cons_append, readTerms_sign (hsigns s List.mem_cons_self), hskip]
      exact ih hmore _

theorem not_exists_read_of_unsound {text : String} {f : Formula} (h : read text = .ok f)
    {o : Operand} (ho : o.Written) (hlost : ¬ o.Sound) (hends : Ends tail) {signs : List Char}
    (hne : signs ≠ []) (hsigns : ∀ c ∈ signs, IsSign c) :
    ¬ ∃ g, read (text ++ String.ofList (signs ++ (o.text ++ tail))) = .ok g := by
  obtain ⟨s, signs, rfl⟩ := List.exists_cons_of_ne_nil hne
  have hsign := hsigns s List.mem_cons_self
  have hends' : Ends (s :: signs ++ (o.text ++ tail)) := .cons hsign _
  have hread : ∀ total, (readOn total (s :: signs ++ (o.text ++ tail))).toOption = none := by
    intro total
    have hopen : readOn total (s :: signs ++ (o.text ++ tail)) =
        readTerms total (s = '-') (skipBlanks (signs ++ (o.text ++ tail))) :=
      readOn_of_sign hsign (skipBlanks_eq_self hends') total
    have hstop := toOption_readTerms_unsound ho hlost hends hsigns total false
    rw [List.cons_append, readTerms_sign hsign, Bool.false_bne] at hstop
    rw [hopen, hstop]
  rw [exists_ok_iff, toOption_read_ending h hends', hread]
  exact fun hne => hne rfl

/-- A formula that is written as a sum of operands is read, or one of them cannot be read. -/
theorem toOption_read_sum {o : Operand} (ho : o.Written) {os : List (Bool × Operand)}
    (hos : ∀ o ∈ os, o.2.Written) :
    (read (String.ofList (o.text ++ sumText os))).toOption =
      if o.Sound ∧ ∀ o ∈ os, o.2.Sound then
        some ⟨String.ofList (o.text ++ sumText os),
          ⟨false, o.term⟩ :: os.map fun o => ⟨o.1, o.2.term⟩⟩
      else none := by
  have hskip : skipBlanks (String.ofList (o.text ++ sumText os)).toList = o.text ++ sumText os := by
    rw [String.toList_ofList, Operand.skipBlanks_text ho]
  have hne : o.text ++ sumText os ≠ [] := by
    cases o with
    | numeral digits => exact List.append_ne_nil_of_left_ne_nil ho.1 _
    | dice count faces => simp [Operand.text]
  rw [read_of_ne_nil (by rw [hskip]; exact hne), hskip, toOption_map,
    toOption_readTerms_operand ho (ends_sumText os), toOption_readOn_sumText hos]
  by_cases hsound : o.Sound
  · rw [if_pos hsound]
    by_cases hall : ∀ p ∈ os, p.2.Sound
    · rw [if_pos hall, if_pos ⟨hsound, hall⟩]
      rfl
    · rw [if_neg hall, if_neg fun hboth => hall hboth.2]
      rfl
  · rw [if_neg hsound, if_neg fun hboth => hsound hboth.1]
    rfl

theorem exists_read_sum_iff {o : Operand} (ho : o.Written) {os : List (Bool × Operand)}
    (hos : ∀ o ∈ os, o.2.Written) :
    (∃ g, read (String.ofList (o.text ++ sumText os)) = .ok g) ↔
      o.Sound ∧ ∀ o ∈ os, o.2.Sound := by
  rw [exists_ok_iff, toOption_read_sum ho hos]
  split
  · rename_i hsound
    exact iff_of_true (Option.some_ne_none _) hsound
  · rename_i hlost
    exact iff_of_false (fun hne => hne rfl) hlost

end Formula

end Spellwork
