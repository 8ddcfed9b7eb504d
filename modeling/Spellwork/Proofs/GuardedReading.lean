import Spellwork.Proofs.FormulaText

/-!
# Reading by place

A formula read the way a machine does it: the characters stand in an array, a place in it moves on
from left to right, and each access, each cut and each move is checked first. What is out of order
halts the computation (`Halt`), which is not the same as a text that is no formula: that one has an
answer.

Nothing ever halts it. What is left at a place is a suffix of the text (`place`), so each checked
step is a step on that suffix; the loop over signs and terms goes step by step
(`Reading.step_sign`, `Reading.step_term`, `Reading.step_stray`), and its run gives what reading
gives (`Guarded.read_eq`).
-/

namespace Spellwork

namespace Formula

/-! ## What a term leaves -/

section Leaves

variable {c : Char} {cs : List Char}

theorem readNumber_of_digits (h : cs.takeWhile Char.isDigit ≠ []) :
    readNumber cs =
      if Nat.ofDigitChars 10 (cs.takeWhile Char.isDigit) 0 < UInt64.size then
        .ok (some (Nat.ofDigitChars 10 (cs.takeWhile Char.isDigit) 0), cs.dropWhile Char.isDigit)
      else .error .overflow := by
  unfold readNumber
  split
  · contradiction
  · rfl

/-- A number leaves a suffix, which is all of the text where there is no number. -/
theorem suffix_of_readNumber {rest : List Char} {n : Option Nat}
    (h : readNumber cs = .ok (n, rest)) : rest <:+ cs ∧ (n = none → rest = cs) := by
  unfold readNumber at h
  split at h
  · cases h
    exact ⟨List.suffix_refl _, fun _ => rfl⟩
  · split at h
    · cases h
      exact ⟨List.dropWhile_suffix _, fun hnone => nomatch hnone⟩
    · cases h

/-- The faces behind the letter d. -/
def facesTerm (total : Nat) (count : Option Nat) (afterD : List Char) :
    Except FormulaError (Term × List Char) :=
  match readNumber afterD with
  | .error e => .error e
  | .ok (none, _) => .error (.unexpected (total - afterD.length) (afterD.head?.getD ' '))
  | .ok (some faces, rest) => (diceTerm count faces).map fun t => (t, rest)

/-- The dice or the constant whose number is in front. -/
def termBehind (total : Nat) (leading : Option Nat) :
    List Char → Except FormulaError (Term × List Char)
  | [] => readTerm.constantTerm total leading []
  | c :: cs =>
    if c = 'd' ∨ c = 'D' then facesTerm total leading cs
    else readTerm.constantTerm total leading (c :: cs)

theorem readTerm_eq_bind (hc : c ≠ '@') (total : Nat) :
    readTerm total (c :: cs) =
      (readNumber (c :: cs)).bind fun read => termBehind total read.1 read.2 := by
  rw [readTerm_of_head?_ne]
  · cases readNumber (c :: cs) with
    | error e => rfl
    | ok read =>
        obtain ⟨leading, rest⟩ := read
        cases rest <;> rfl
  · intro x hx
    cases hx
    exact hc

theorem suffix_of_termBehind {total : Nat} {leading : Option Nat} {t : Term} {rest : List Char}
    (h : termBehind total leading cs = .ok (t, rest)) : rest <:+ cs := by
  cases cs with
  | nil =>
      exact (constantTerm_length h).2 ▸ List.suffix_refl _
  | cons c cs =>
      rw [termBehind] at h
      split at h
      · unfold facesTerm at h
        split at h
        · cases h
        · cases h
        · rename_i faces left hread
          obtain ⟨u, -, hu⟩ := eq_ok_of_map_eq_ok h
          cases hu
          exact (suffix_of_readNumber hread).1.trans (List.suffix_cons c cs)
      · exact (constantTerm_length h).2 ▸ List.suffix_refl _

/-- A term leaves a suffix. -/
theorem suffix_of_readTerm {total : Nat} {t : Term} {rest : List Char}
    (h : readTerm total (c :: cs) = .ok (t, rest)) : rest <:+ c :: cs := by
  by_cases hat : c = '@'
  · subst hat
    rw [readTerm] at h
    split at h
    · cases h
    · cases h
      exact (List.dropWhile_suffix _).trans (List.suffix_cons _ cs)
  · rw [readTerm_eq_bind hat] at h
    cases hread : readNumber (c :: cs) with
    | error e =>
        rw [hread] at h
        cases h
    | ok read =>
        rw [hread] at h
        exact (suffix_of_termBehind h).trans (suffix_of_readNumber hread).1

end Leaves

end Formula

/-- What would halt a computation. -/
inductive Halt where
  /-- A place behind the text, or a cut that is not inside it. -/
  | outOfText
  /-- A range that ends before it begins. -/
  | emptyRange
  /-- Something to be taken out of nothing. -/
  | nothingLeft
  /-- A number that does not fit. -/
  | overflow
  /-- A die without faces to be rolled. -/
  | noFaces
deriving DecidableEq, Repr

/-- A computation that may be halted. -/
abbrev Guarded (α : Type u) := Except Halt α

namespace Guarded

theorem ok_bind {α β : Type u} (a : α) (f : α → Guarded β) :
    ((Except.ok a : Guarded α) >>= f) = f a :=
  rfl

/-! ## Characters of a text -/

/-- The character at a place. -/
def charAt (chars : Array Char) (pos : Nat) : Guarded Char :=
  if h : pos < chars.size then .ok chars[pos] else .error .outOfText

/-- The place behind one at which there is a character. It is at most the length of the text, and so
it fits where that length does. -/
def next (chars : Array Char) (pos : Nat) : Guarded Nat :=
  if pos < chars.size then .ok (pos + 1) else .error .outOfText

/-- The characters from a place up to another. -/
def slice (chars : Array Char) (start stop : Nat) : Guarded (List Char) :=
  if start ≤ stop ∧ stop ≤ chars.size then .ok (chars.extract start stop).toList
  else .error .outOfText

theorem next_eq_ok {chars : Array Char} {pos after : Nat} (h : next chars pos = .ok after) :
    pos < chars.size ∧ after = pos + 1 := by
  unfold next at h
  split at h
  · rename_i hpos
    cases h
    exact ⟨hpos, rfl⟩
  · cases h

/-- The first place from `pos` on whose character is not of a kind, or the end of the text. -/
def skipWhile (p : Char → Bool) (chars : Array Char) (pos : Nat) : Guarded Nat := do
  if pos < chars.size then
    if p (← charAt chars pos) then
      match _h : next chars pos with
      | .ok after => skipWhile p chars after
      | .error halt => .error halt
    else return pos
  else return pos
termination_by chars.size - pos
decreasing_by
  have hnext := next_eq_ok _h
  omega

/-! ## Reading -/

/-- The number at a place, if there is a digit, and the place behind it. -/
def readNumber (chars : Array Char) (pos : Nat) :
    Guarded (Except FormulaError (Option Nat × Nat)) := do
  let stop ← skipWhile Char.isDigit chars pos
  if stop = pos then return .ok (none, pos)
  else
    let digits ← slice chars pos stop
    if Nat.ofDigitChars 10 digits 0 < UInt64.size then
      return .ok (some (Nat.ofDigitChars 10 digits 0), stop)
    else return .error .overflow

/-- The name behind an at sign, which stands in front of `start`. -/
def readName (chars : Array Char) (start : Nat) : Guarded (Except FormulaError (Term × Nat)) := do
  let stop ← skipWhile Formula.isKeyChar chars start
  if stop = start then return .error (.unexpected (start - 1) '@')
  else return .ok (.reference (String.ofList (← slice chars start stop)), stop)

/-- The faces behind the letter d, which stands in front of `start`. -/
def readFaces (chars : Array Char) (count : Option Nat) (start : Nat) :
    Guarded (Except FormulaError (Term × Nat)) := do
  match ← readNumber chars start with
  | .error e => return .error e
  | .ok (none, stop) => return .error (.unexpected stop (chars[stop]?.getD ' '))
  | .ok (some faces, stop) => return (Formula.diceTerm count faces).map fun t => (t, stop)

/-- The constant of a number that was read in front of `stop`. Without one, the character there is
told. -/
def readConstant (chars : Array Char) (leading : Option Nat) (stop : Nat) :
    Guarded (Except FormulaError (Term × Nat)) := do
  match leading with
  | some n =>
    if n ≤ 0x7fffffffffffffff then return .ok (.constant (Int64.ofNat n), stop)
    else return .error .overflow
  | none => return .error (.unexpected stop (← charAt chars stop))

/-- Whether the letter d stands at a place. -/
def isLetterD (chars : Array Char) (pos : Nat) : Guarded Bool := do
  if pos < chars.size then
    let c ← charAt chars pos
    return c = 'd' ∨ c = 'D'
  else return false

/-- The dice or the constant of which the number in front has been read, up to `stop`. -/
def readBehind (chars : Array Char) (leading : Option Nat) (stop : Nat) :
    Guarded (Except FormulaError (Term × Nat)) := do
  if ← isLetterD chars stop then
    readFaces chars leading (← next chars stop)
  else
    readConstant chars leading stop

/-- The term at a place, and the place behind it. -/
def readTerm (chars : Array Char) (pos : Nat) : Guarded (Except FormulaError (Term × Nat)) := do
  if (← charAt chars pos) = '@' then
    readName chars (← next chars pos)
  else
    match ← readNumber chars pos with
    | .error e => return .error e
    | .ok (leading, stop) => readBehind chars leading stop

/-- A formula of which the text in front of a place has been read. -/
structure Reading where
  pos : Nat
  terms : List SignedTerm
  /-- Whether the next term is taken away. -/
  negative : Bool
  /-- Whether a term has to come. -/
  expectTerm : Bool

/-- Goes on behind the blanks. -/
def Reading.skipBlanks (chars : Array Char) (r : Reading) : Guarded Reading := do
  return { r with pos := ← skipWhile Text.isBlank chars r.pos }

/-- Reads a sign or a term, and the blanks behind it. -/
def Reading.step (chars : Array Char) (r : Reading) : Guarded (Except FormulaError Reading) := do
  let c ← charAt chars r.pos
  if r.expectTerm then
    if Formula.IsSign c then
      let r := { r with pos := ← next chars r.pos, negative := r.negative != decide (c = '-') }
      return .ok (← r.skipBlanks chars)
    else
      match ← readTerm chars r.pos with
      | .error e => return .error e
      | .ok (term, stop) =>
        let r : Reading := ⟨stop, r.terms ++ [⟨r.negative, term⟩], false, false⟩
        return .ok (← r.skipBlanks chars)
  else if Formula.IsSign c then
    let r := { r with pos := ← next chars r.pos, negative := decide (c = '-'), expectTerm := true }
    return .ok (← r.skipBlanks chars)
  else return .error (.unexpected r.pos c)

/-! ## What is left at a place -/

/-- The place at which a suffix of the text begins. -/
def place (chars : Array Char) (cs : List Char) : Nat :=
  chars.size - cs.length

section Suffix

variable {chars : Array Char} {c : Char} {cs : List Char}

theorem place_add_length (h : cs <:+ chars.toList) : place chars cs + cs.length = chars.size :=
  Nat.sub_add_cancel h.length_le

theorem drop_place (h : cs <:+ chars.toList) : chars.toList.drop (place chars cs) = cs :=
  (List.suffix_iff_eq_drop.mp h).symm

theorem place_lt (h : (c :: cs) <:+ chars.toList) : place chars (c :: cs) < chars.size := by
  have hsum := place_add_length h
  rw [List.length_cons] at hsum
  omega

theorem place_tail (h : (c :: cs) <:+ chars.toList) :
    place chars cs = place chars (c :: cs) + 1 := by
  have hsum := place_add_length h
  have htail := place_add_length ((List.suffix_cons c cs).trans h)
  rw [List.length_cons] at hsum
  omega

theorem place_nil : place chars [] = chars.size :=
  rfl

theorem getElem?_place (h : cs <:+ chars.toList) : chars[place chars cs]? = cs.head? := by
  rw [← Array.getElem?_toList, ← List.head?_drop, drop_place h]

theorem charAt_place (h : (c :: cs) <:+ chars.toList) :
    charAt chars (place chars (c :: cs)) = .ok c := by
  have hchar := getElem?_place h
  rw [Array.getElem?_eq_getElem (place_lt h)] at hchar
  rw [charAt, dif_pos (place_lt h), Option.some.inj hchar]

theorem next_place (h : (c :: cs) <:+ chars.toList) :
    next chars (place chars (c :: cs)) = .ok (place chars cs) := by
  rw [next, if_pos (place_lt h), place_tail h]

theorem exists_suffix {pos : Nat} (h : pos < chars.size) :
    ∃ c cs, (c :: cs) <:+ chars.toList ∧ place chars (c :: cs) = pos := by
  have hdrop := List.drop_eq_getElem_cons (l := chars.toList) (i := pos) (by simpa using h)
  refine ⟨_, _, hdrop ▸ List.drop_suffix pos chars.toList, ?_⟩
  rw [← hdrop, place, List.length_drop, Array.length_toList]
  omega

theorem place_lt_place {rest : List Char} (h : (c :: cs) <:+ chars.toList)
    (hrest : rest.length ≤ cs.length) : place chars (c :: cs) < place chars rest := by
  have hsum := place_add_length h
  rw [List.length_cons] at hsum
  show _ < chars.size - rest.length
  omega

theorem dropWhile_suffix (p : Char → Bool) (h : cs <:+ chars.toList) :
    cs.dropWhile p <:+ chars.toList :=
  (List.dropWhile_suffix p).trans h

theorem skipBlanks_suffix (h : cs <:+ chars.toList) : Formula.skipBlanks cs <:+ chars.toList :=
  dropWhile_suffix _ h

/-- Characters of a kind are skipped. -/
theorem skipWhile_place (p : Char → Bool) (h : cs <:+ chars.toList) :
    skipWhile p chars (place chars cs) = .ok (place chars (cs.dropWhile p)) := by
  induction cs with
  | nil =>
      rw [skipWhile, if_neg (by rw [place_nil]; omega)]
      rfl
  | cons c cs ih =>
      rw [skipWhile, if_pos (place_lt h), charAt_place h, ok_bind, List.dropWhile_cons]
      split
      · split
        · rename_i after hafter
          obtain rfl := Except.ok.inj ((next_place h).symm.trans hafter)
          exact ih ((List.suffix_cons c cs).trans h)
        · rename_i hafter
          cases (next_place h).symm.trans hafter
      · rfl

theorem place_dropWhile (p : Char → Bool) (h : cs <:+ chars.toList) :
    place chars (cs.dropWhile p) = place chars cs + (cs.takeWhile p).length := by
  have hstart := place_add_length h
  have hstop := place_add_length (dropWhile_suffix p h)
  have hlen := congrArg List.length (List.takeWhile_append_dropWhile (p := p) (l := cs))
  rw [List.length_append] at hlen
  omega

theorem place_dropWhile_eq_iff {p : Char → Bool} (h : cs <:+ chars.toList) :
    place chars (cs.dropWhile p) = place chars cs ↔ cs.takeWhile p = [] := by
  rw [place_dropWhile p h, Nat.add_eq_left, List.length_eq_zero_iff]

/-- A cut gives what was skipped. -/
theorem slice_place (p : Char → Bool) (h : cs <:+ chars.toList) :
    slice chars (place chars cs) (place chars (cs.dropWhile p)) = .ok (cs.takeWhile p) := by
  have hstop := place_add_length (dropWhile_suffix p h)
  have htake := place_dropWhile p h
  rw [slice, if_pos (by omega), Array.toList_extract, List.extract_eq_take_drop, drop_place h,
    htake, Nat.add_sub_cancel_left, ← List.prefix_iff_eq_take.mp (List.takeWhile_prefix p)]

end Suffix

/-! ## A term -/

section Terms

variable {chars : Array Char} {c : Char} {cs : List Char}

/-- What is left over is told by its place. -/
def toPlace {α : Type} (chars : Array Char) (read : α × List Char) : α × Nat :=
  (read.1, place chars read.2)

theorem readNumber_place (h : cs <:+ chars.toList) :
    readNumber chars (place chars cs) = .ok ((Formula.readNumber cs).map (toPlace chars)) := by
  rw [readNumber, skipWhile_place Char.isDigit h, ok_bind]
  split
  · rename_i hsame
    rw [Formula.readNumber, (place_dropWhile_eq_iff h).mp hsame]
    rfl
  · rename_i hmoved
    have hdigits : cs.takeWhile Char.isDigit ≠ [] := fun hnil =>
      hmoved ((place_dropWhile_eq_iff h).mpr hnil)
    rw [slice_place Char.isDigit h, ok_bind, Formula.readNumber_of_digits hdigits]
    split <;> rfl

theorem readName_place (h : cs <:+ chars.toList) :
    readName chars (place chars cs) =
      .ok ((Formula.readTerm chars.size ('@' :: cs)).map (toPlace chars)) := by
  rw [readName, skipWhile_place Formula.isKeyChar h, ok_bind, Formula.readTerm]
  split
  · rename_i hsame
    rw [(place_dropWhile_eq_iff h).mp hsame]
    rfl
  · rename_i hmoved
    rw [slice_place Formula.isKeyChar h, ok_bind]
    split
    · rename_i hnil
      exact absurd ((place_dropWhile_eq_iff h).mpr hnil) hmoved
    · rfl

theorem readFaces_place (h : cs <:+ chars.toList) (count : Option Nat) :
    readFaces chars count (place chars cs) =
      .ok ((Formula.facesTerm chars.size count cs).map (toPlace chars)) := by
  rw [readFaces, readNumber_place h, ok_bind, Formula.facesTerm]
  cases hread : Formula.readNumber cs with
  | error e => rfl
  | ok read =>
      obtain ⟨faces?, rest⟩ := read
      cases faces? with
      | none =>
          obtain rfl := (Formula.suffix_of_readNumber hread).2 rfl
          simp only [Except.map, toPlace]
          rw [getElem?_place h]
          rfl
      | some faces =>
          dsimp only [Except.map, toPlace]
          cases Formula.diceTerm count faces <;> rfl

/-- The character that is told in place of a constant is there: without a number nothing has been
read. -/
theorem readConstant_place {leading : Option Nat} (h : cs <:+ chars.toList)
    (hthere : leading = none → cs ≠ []) :
    readConstant chars leading (place chars cs) =
      .ok ((Formula.readTerm.constantTerm chars.size leading cs).map (toPlace chars)) := by
  cases leading with
  | some n =>
      dsimp only [readConstant, Formula.readTerm.constantTerm]
      split <;> rfl
  | none =>
      obtain ⟨c, cs, rfl⟩ := List.exists_cons_of_ne_nil (hthere rfl)
      dsimp only [readConstant]
      rw [charAt_place h]
      rfl

theorem isLetterD_nil : isLetterD chars (place chars []) = .ok false :=
  if_neg (Nat.lt_irrefl _)

theorem isLetterD_cons (h : (c :: cs) <:+ chars.toList) :
    isLetterD chars (place chars (c :: cs)) = .ok (decide (c = 'd' ∨ c = 'D')) := by
  rw [isLetterD, if_pos (place_lt h), charAt_place h]
  rfl

theorem readBehind_place {leading : Option Nat} (h : cs <:+ chars.toList)
    (hthere : leading = none → cs ≠ []) :
    readBehind chars leading (place chars cs) =
      .ok ((Formula.termBehind chars.size leading cs).map (toPlace chars)) := by
  unfold readBehind
  cases cs with
  | nil =>
      rw [isLetterD_nil, ok_bind, if_neg Bool.false_ne_true, readConstant_place h hthere]
      rfl
  | cons c cs =>
      rw [isLetterD_cons h, ok_bind, Formula.termBehind]
      by_cases hc : c = 'd' ∨ c = 'D'
      · rw [if_pos (decide_eq_true hc), if_pos hc, next_place h, ok_bind,
          readFaces_place ((List.suffix_cons c cs).trans h)]
      · rw [if_neg (by simpa using hc), if_neg hc, readConstant_place h hthere]

/-- What is at a place is read as the text that is left there. -/
theorem readTerm_place (h : (c :: cs) <:+ chars.toList) :
    readTerm chars (place chars (c :: cs)) =
      .ok ((Formula.readTerm chars.size (c :: cs)).map (toPlace chars)) := by
  rw [readTerm, charAt_place h, ok_bind]
  by_cases hat : c = '@'
  · subst hat
    rw [if_pos rfl, next_place h, ok_bind, readName_place ((List.suffix_cons _ cs).trans h)]
  · rw [if_neg hat, readNumber_place h, ok_bind, Formula.readTerm_eq_bind hat]
    cases hread : Formula.readNumber (c :: cs) with
    | error e => rfl
    | ok read =>
        obtain ⟨leading, rest⟩ := read
        obtain ⟨hsuffix, hall⟩ := Formula.suffix_of_readNumber hread
        refine readBehind_place (hsuffix.trans h) fun hnone => ?_
        rw [hall hnone]
        exact List.cons_ne_nil c cs

end Terms

/-! ## Steps -/

namespace Reading

variable {chars : Array Char} {c : Char} {cs : List Char} {terms : List SignedTerm}
  {negative expectTerm : Bool}

theorem skipBlanks_place (h : cs <:+ chars.toList) :
    skipBlanks chars ⟨place chars cs, terms, negative, expectTerm⟩ =
      .ok ⟨place chars (Formula.skipBlanks cs), terms, negative, expectTerm⟩ := by
  rw [skipBlanks, skipWhile_place Text.isBlank h]
  rfl

/-- Where a term has to come, a sign turns it around; elsewhere it says how the next one counts. -/
theorem step_sign (hc : Formula.IsSign c) (h : (c :: cs) <:+ chars.toList) :
    step chars ⟨place chars (c :: cs), terms, negative, expectTerm⟩ =
      .ok (.ok ⟨place chars (Formula.skipBlanks cs), terms,
        (expectTerm && negative) != decide (c = '-'), true⟩) := by
  have hcs : cs <:+ chars.toList := (List.suffix_cons c cs).trans h
  rw [step, charAt_place h, ok_bind]
  dsimp only
  rw [if_pos hc, if_pos hc, next_place h, ok_bind, ok_bind, skipBlanks_place hcs,
    skipBlanks_place hcs, ok_bind, ok_bind]
  cases expectTerm with
  | true => rfl
  | false =>
    rw [Bool.false_and, Bool.false_bne]
    rfl

theorem step_term (hc : ¬ Formula.IsSign c) (h : (c :: cs) <:+ chars.toList) :
    step chars ⟨place chars (c :: cs), terms, negative, true⟩ =
      .ok ((Formula.readTerm chars.size (c :: cs)).map fun read =>
        ⟨place chars (Formula.skipBlanks read.2), terms ++ [⟨negative, read.1⟩], false,
          false⟩) := by
  rw [step, charAt_place h, ok_bind, if_pos rfl, if_neg hc, readTerm_place h, ok_bind]
  cases hread : Formula.readTerm chars.size (c :: cs) with
  | error e => rfl
  | ok read =>
      obtain ⟨t, rest⟩ := read
      dsimp only [Except.map, toPlace]
      rw [skipBlanks_place ((Formula.suffix_of_readTerm hread).trans h)]
      rfl

theorem step_stray (hc : ¬ Formula.IsSign c) (h : (c :: cs) <:+ chars.toList) :
    step chars ⟨place chars (c :: cs), terms, negative, false⟩ =
      .ok (.error (.unexpected (place chars (c :: cs)) c)) := by
  rw [step, charAt_place h, ok_bind, if_neg Bool.false_ne_true, if_neg hc]
  rfl

/-- Each step takes a character at least. -/
theorem pos_lt_of_step {r r' : Reading} (h : r.step chars = .ok (.ok r')) :
    r.pos < chars.size ∧ r.pos < r'.pos := by
  obtain ⟨pos, terms, negative, expectTerm⟩ := r
  by_cases hpos : pos < chars.size
  · obtain ⟨c, cs, hcs, rfl⟩ := exists_suffix hpos
    refine ⟨hpos, ?_⟩
    by_cases hc : Formula.IsSign c
    · rw [step_sign hc hcs] at h
      cases h
      exact place_lt_place hcs (Formula.length_dropWhile_le _ cs)
    · cases expectTerm with
      | false =>
          rw [step_stray hc hcs] at h
          cases h
      | true =>
          rw [step_term hc hcs] at h
          obtain ⟨⟨t, rest⟩, hread, rfl⟩ := Formula.eq_ok_of_map_eq_ok (Except.ok.inj h)
          have hshort := Formula.readTerm_length hread
          rw [List.length_cons] at hshort
          exact place_lt_place hcs
            (Nat.le_trans (Formula.length_dropWhile_le _ rest) (Nat.le_of_lt_succ hshort))
  · rw [step, charAt, dif_neg hpos] at h
    cases h

/-- Reads to the end of the text. -/
def run (chars : Array Char) (r : Reading) : Guarded (Except FormulaError (List SignedTerm)) :=
  if r.pos < chars.size then
    match _h : r.step chars with
    | .error halt => .error halt
    | .ok (.error e) => .ok (.error e)
    | .ok (.ok r') => run chars r'
  else .ok (if r.expectTerm then .error .trailingOperator else .ok r.terms)
termination_by chars.size - r.pos
decreasing_by
  have hstep := pos_lt_of_step _h
  omega

theorem run_of_lt {r : Reading} (hpos : r.pos < chars.size) :
    run chars r =
      match r.step chars with
      | .error halt => .error halt
      | .ok (.error e) => .ok (.error e)
      | .ok (.ok r') => run chars r' := by
  rw [run, if_pos hpos]
  split <;> rename_i hstep <;> rw [hstep]

theorem run_of_step {r r' : Reading} (h : r.step chars = .ok (.ok r')) :
    run chars r = run chars r' := by
  rw [run_of_lt (pos_lt_of_step h).1, h]

theorem run_of_error {r : Reading} {e : FormulaError} (hpos : r.pos < chars.size)
    (h : r.step chars = .ok (.error e)) : run chars r = .ok (.error e) := by
  rw [run_of_lt hpos, h]

theorem run_nil : run chars ⟨place chars [], terms, negative, expectTerm⟩ =
    .ok (if expectTerm then .error .trailingOperator else .ok terms) := by
  rw [run]
  exact if_neg (Nat.lt_irrefl _)

/-- Behind a term the loop reads on, given that it reads what begins behind the next sign. -/
theorem run_behind (terms : List SignedTerm) {rest : List Char} (hrest : rest <:+ chars.toList)
    (ih : ∀ (cs : List Char) (negative : Bool), cs.length < rest.length → cs <:+ chars.toList →
      run chars ⟨place chars cs, terms, negative, true⟩ =
        .ok ((Formula.readTerms chars.size negative cs).map fun ts => terms ++ ts)) :
    run chars ⟨place chars (Formula.skipBlanks rest), terms, false, false⟩ =
      .ok ((Formula.readOn chars.size rest).map fun ts => terms ++ ts) := by
  have hblanks := skipBlanks_suffix hrest
  have hlen : (Formula.skipBlanks rest).length ≤ rest.length := Formula.length_dropWhile_le _ rest
  rw [Formula.readOn]
  cases hmore : Formula.skipBlanks rest with
  | nil =>
      rw [run_nil]
      simp [Except.map]
  | cons s more =>
      rw [hmore] at hblanks hlen
      dsimp only
      by_cases hs : Formula.IsSign s
      · have hshort : (Formula.skipBlanks more).length ≤ more.length :=
          Formula.length_dropWhile_le _ more
        rw [if_pos hs, run_of_step (step_sign hs hblanks), Bool.false_and, Bool.false_bne]
        exact ih _ _ (Nat.lt_of_lt_of_le (Nat.lt_succ_of_le hshort) hlen)
          (skipBlanks_suffix ((List.suffix_cons s more).trans hblanks))
      · rw [if_neg hs, run_of_error (place_lt hblanks) (step_stray hs hblanks), place,
          List.length_cons, Nat.sub_add_eq]
        rfl

/-- The loop reads the terms of the text that is left. -/
theorem run_eq (hcs : cs <:+ chars.toList) :
    run chars ⟨place chars cs, terms, negative, true⟩ =
      .ok ((Formula.readTerms chars.size negative cs).map fun ts => terms ++ ts) := by
  induction hn : cs.length using Nat.strong_induction_on generalizing cs terms negative with
  | _ n ih =>
      subst hn
      cases cs with
      | nil =>
          rw [run_nil, Formula.readTerms]
          rfl
      | cons c cs =>
          by_cases hc : Formula.IsSign c
          · have hshort : (Formula.skipBlanks cs).length ≤ cs.length :=
              Formula.length_dropWhile_le _ cs
            rw [run_of_step (step_sign hc hcs), Formula.readTerms_sign hc, Bool.true_and]
            exact ih _ (Nat.lt_succ_of_le hshort)
              (skipBlanks_suffix ((List.suffix_cons c cs).trans hcs)) rfl
          · have hstep : step chars ⟨place chars (c :: cs), terms, negative, true⟩ = _ :=
              step_term hc hcs
            cases hread : Formula.readTerm chars.size (c :: cs) with
            | error e =>
                rw [hread] at hstep
                rw [run_of_error (place_lt hcs) hstep, Formula.readTerms_of_error hc hread]
                rfl
            | ok read =>
                obtain ⟨t, rest⟩ := read
                rw [hread] at hstep
                have hbehind := run_behind (terms ++ [⟨negative, t⟩])
                  ((Formula.suffix_of_readTerm hread).trans hcs) fun cs negative hlen hcs =>
                    ih _ (Nat.lt_trans hlen (Formula.readTerm_length hread)) hcs rfl
                rw [run_of_step hstep, hbehind, Formula.readTerms_of_ok hc hread]
                cases Formula.readOn chars.size rest with
                | error e => rfl
                | ok ts => simp [Except.map]

end Reading

/-- Reads a formula. -/
def read (source : String) : Guarded (Except FormulaError Formula) := do
  let chars := source.toList.toArray
  let pos ← skipWhile Text.isBlank chars 0
  if pos = chars.size then return .error .empty
  else
    let terms ← Reading.run chars ⟨pos, [], false, true⟩
    return terms.map fun terms => { source, terms }

/-- Nothing halts the reading of a text. -/
theorem read_eq (source : String) : read source = .ok (Formula.read source) := by
  have hall : source.toList <:+ source.toList.toArray.toList := List.suffix_refl _
  have hzero : place source.toList.toArray source.toList = 0 := Nat.sub_self _
  have hblanks := skipWhile_place Text.isBlank hall
  have hsuffix := skipBlanks_suffix hall
  rw [hzero] at hblanks
  rw [read, hblanks, ok_bind, Formula.read]
  rw [Formula.skipBlanks] at hsuffix ⊢
  cases hcs : source.toList.dropWhile Text.isBlank with
  | nil =>
      rw [if_pos place_nil]
      rfl
  | cons c cs =>
      rw [hcs] at hsuffix
      rw [if_neg (Nat.ne_of_lt (place_lt hsuffix)), Reading.run_eq hsuffix, ok_bind]
      dsimp only [List.size_toArray]
      cases Formula.readTerms source.toList.length false (c :: cs) <;> rfl

end Guarded

end Spellwork
