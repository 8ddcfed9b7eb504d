import Spellwork.Json.Reader
import Spellwork.Json.Writer

/-!
# Json text that is written reads back

A value goes to text and back through its tokens: writing spells them one after the other
(`Scans`), and the reader's machine puts the value together again. The machine counts what is open,
so reading comes to a value exactly if no more arrays and objects stand inside one another than the
limit allows. Integers have to be of the 64-bit ranges, for there are no others in a text.
-/

namespace Spellwork.Json

/-! ## Tokens of a value -/

mutual

/-- The tokens of a value. -/
def tokens : Json → List Token
  | .null => [.null]
  | .bool b => [.bool b]
  | .integer n => [.integer n]
  | .decimal s => [.decimal s]
  | .string s => [.string s]
  | .array items => .openArray :: (itemTokens items ++ [.closeArray])
  | .object members => .openObject :: (memberTokens members ++ [.closeObject])

/-- The tokens of items with commas between them. -/
def itemTokens : List Json → List Token
  | [] => []
  | [v] => v.tokens
  | v :: w :: rest => v.tokens ++ .comma :: itemTokens (w :: rest)

/-- The tokens of members with commas between them. -/
def memberTokens : List (String × Json) → List Token
  | [] => []
  | [(name, v)] => .string name :: .colon :: v.tokens
  | (name, v) :: m :: rest =>
    .string name :: .colon :: (v.tokens ++ .comma :: memberTokens (m :: rest))

end

mutual

/-- The numbers in a value are integers, and those are of the 64-bit ranges. -/
def IntegersOnly : Json → Prop
  | .integer n => -0x8000000000000000 ≤ n ∧ n < 0x10000000000000000
  | .decimal _ => False
  | .array items => IntegerItems items
  | .object members => IntegerMembers members
  | _ => True

/-- Items with integers only. -/
def IntegerItems : List Json → Prop
  | [] => True
  | v :: rest => v.IntegersOnly ∧ IntegerItems rest

/-- Members with integers only. -/
def IntegerMembers : List (String × Json) → Prop
  | [] => True
  | (_, v) :: rest => v.IntegersOnly ∧ IntegerMembers rest

end

theorem integerItems_iff {items : List Json} :
    IntegerItems items ↔ ∀ v ∈ items, v.IntegersOnly := by
  induction items with
  | nil => simp [IntegerItems]
  | cons v rest ih => simp [IntegerItems, ih]

theorem integerMembers_iff {members : List (String × Json)} :
    IntegerMembers members ↔ ∀ m ∈ members, m.2.IntegersOnly := by
  induction members with
  | nil => simp [IntegerMembers]
  | cons m rest ih => simp [IntegerMembers, ih]

namespace Token

/-! ## Strings -/

theorem hexUnit?_hexDigit :
    ∀ n < 0x20, hexUnit? '0' '0' (hexDigit (n / 16)) (hexDigit n) = some n := by
  decide

/-- A letter behind a backslash is read as the character it stands for. -/
theorem stringBody?_escaped {c e : Char} (h : escaped? c = some e) (tail : List Char) :
    stringBody? ('\\' :: c :: tail) = (stringBody? tail).map fun (cs, left) => (e :: cs, left) := by
  have hu : c ≠ 'u' := by
    rintro rfl
    cases h
  simp [stringBody?, hu, h]

theorem stringBody?_escape (c : Char) (tail : List Char) :
    stringBody? (escape c tail) = (stringBody? tail).map fun (cs, left) => (c :: cs, left) := by
  unfold escape
  split
  · subst_vars
    exact stringBody?_escaped rfl tail
  split
  · subst_vars
    exact stringBody?_escaped rfl tail
  split
  · subst_vars
    exact stringBody?_escaped rfl tail
  split
  · subst_vars
    exact stringBody?_escaped rfl tail
  split
  · subst_vars
    exact stringBody?_escaped rfl tail
  split
  · subst_vars
    exact stringBody?_escaped rfl tail
  split
  · subst_vars
    exact stringBody?_escaped rfl tail
  split
  · -- the other control characters go by their number, which is no half of a pair
    rename_i h
    have hunit := hexUnit?_hexDigit c.toNat h
    have hhigh : isHighUnit c.toNat = false := by
      simp only [isHighUnit, Bool.and_eq_false_iff, decide_eq_false_iff_not]
      omega
    have hlow : isLowUnit c.toNat = false := by
      simp only [isLowUnit, Bool.and_eq_false_iff, decide_eq_false_iff_not]
      omega
    simp [stringBody?, hunit, hhigh, hlow, Char.ofNat_toNat]
  · rename_i hbackslash _ _ _ _ _ hplain
    simp [stringBody?, hbackslash, hplain]

theorem stringBody?_foldr_escape (cs tail : List Char) :
    stringBody? (cs.foldr escape ('"' :: tail)) = some (cs, tail) := by
  induction cs with
  | nil => simp [stringBody?]
  | cons c cs ih => rw [List.foldr_cons, stringBody?_escape, ih]; rfl

theorem length_lt_escape (c : Char) (tail : List Char) :
    tail.length < (escape c tail).length := by
  unfold escape
  repeat' split
  all_goals simp only [List.length_cons]; omega

theorem length_le_foldr_escape (cs tail : List Char) :
    tail.length ≤ (cs.foldr escape tail).length := by
  induction cs with
  | nil => exact Nat.le_refl _
  | cons c cs ih => exact Nat.le_of_lt (Nat.lt_of_le_of_lt ih (length_lt_escape c _))

/-! ## Integers -/

theorem isNumberChar_of_isDigit {c : Char} (h : c.isDigit = true) : isNumberChar c = true := by
  simp [isNumberChar, h]

theorem isNumberChar_of_mem_intText {x : Int} {c : Char} (h : c ∈ Text.intText x) :
    isNumberChar c = true := by
  cases x with
  | ofNat n => exact isNumberChar_of_isDigit (Text.isDigit_of_mem_natText h)
  | negSucc n =>
      rcases List.mem_cons.mp h with rfl | h
      · rfl
      · exact isNumberChar_of_isDigit (Text.isDigit_of_mem_natText h)

theorem intText_ne_nil (x : Int) : Text.intText x ≠ [] := by
  cases x with
  | ofNat n => exact Text.natText_ne_nil n
  | negSucc n => exact List.cons_ne_nil _ _

theorem isSpace_of_isNumberChar {c : Char} (h : isNumberChar c = true) : isSpace c = false := by
  unfold isSpace
  rw [Bool.eq_false_iff]
  intro hspace
  simp only [Bool.or_eq_true, decide_eq_true_eq] at hspace
  rcases hspace with ((rfl | rfl) | rfl) | rfl <;> exact absurd h (by decide)

theorem digitChar_ne_zero : ∀ n < 10, 0 < n → Nat.digitChar n ≠ '0' := by
  decide

/-- A numeral begins with a zero only if it is zero. -/
theorem head?_natText_ne {n : Nat} (h : 0 < n) : (Text.natText n).head? ≠ some '0' := by
  induction n using Nat.strongRecOn with
  | ind n ih =>
      unfold Text.natText
      rw [Nat.toDigits_eq_if (by omega)]
      by_cases hn : n < 10
      · rw [if_pos hn]
        simpa using digitChar_ne_zero n hn h
      · have hrest := ih (n / 10) (by omega) (by omega)
        obtain ⟨c, cs, hcons, -⟩ := Text.natText_eq_cons (n / 10)
        rw [if_neg hn, List.head?_append]
        rw [Text.natText] at hcons hrest
        rw [hcons] at hrest ⊢
        exact hrest

theorem isWhole_natText (n : Nat) : isWhole (Text.natText n) = true := by
  rcases Nat.eq_zero_or_pos n with rfl | hpos
  · rfl
  · have hhead := head?_natText_ne hpos
    have hdigits : (Text.natText n).all Char.isDigit = true :=
      List.all_eq_true.mpr fun c hc => Text.isDigit_of_mem_natText hc
    unfold isWhole
    split
    · rename_i hnil
      exact absurd hnil (Text.natText_ne_nil n)
    · rename_i hzero
      rw [hzero] at hhead
      exact absurd rfl hhead
    · exact hdigits

theorem ofNumber?_natText (negative : Bool) (n : Nat) :
    ofNumber? negative (Text.natText n) =
      if !negative && n < UInt64.size then some (.integer n)
      else if negative && n ≠ 0 && n ≤ 0x8000000000000000 then some (.integer (-n))
      else
        let text := if negative then '-' :: Text.natText n else Text.natText n
        (Double.ofText? text).map fun _ => .decimal (String.ofList text) := by
  have hdigits : ∀ c ∈ Text.natText n, c.isDigit = true := fun c hc =>
    Text.isDigit_of_mem_natText hc
  have hwhole : (Text.natText n ++ []).takeWhile Char.isDigit = Text.natText n ++ [] :=
    List.takeWhile_append_of_pos hdigits
  have htail : (Text.natText n ++ []).dropWhile Char.isDigit = [] :=
    List.dropWhile_append_of_pos hdigits
  rw [List.append_nil] at hwhole htail
  have hvalue : Nat.ofDigitChars 10 (Text.natText n) 0 = n := Nat.ofDigitChars_ten_toDigits
  simp [ofNumber?, hwhole, htail, hvalue, isWhole_natText, isFractionAndExponent, isExponent]

theorem number?_natText (n : Nat) :
    number? (Text.natText n) = ofNumber? false (Text.natText n) := by
  obtain ⟨c, cs, h, hc⟩ := Text.natText_eq_cons n
  rw [h]
  unfold number?
  split
  · rename_i heq
    obtain ⟨rfl, -⟩ := List.cons.inj heq
    exact absurd hc (by decide)
  · rfl

theorem number?_intText {n : Int} (hlow : -0x8000000000000000 ≤ n)
    (hhigh : n < 0x10000000000000000) : number? (Text.intText n) = some (.integer n) := by
  cases n with
  | ofNat n =>
      have hn : n < UInt64.size := by
        have hsize : UInt64.size = 0x10000000000000000 := rfl
        simp only [Int.ofNat_eq_natCast] at hhigh
        omega
      show number? (Text.natText n) = _
      rw [number?_natText, ofNumber?_natText]
      simp [hn]
  | negSucc n =>
      have hn : n + 1 ≤ 0x8000000000000000 := by omega
      show ofNumber? true (Text.natText (n + 1)) = _
      rw [ofNumber?_natText]
      simp [hn, Int.negSucc_eq]

/-- A text that does not go on a number before it. -/
def Stops (tail : List Char) : Prop :=
  ∀ c ∈ tail.head?, isNumberChar c = false

theorem Stops.nil : Stops [] := by
  simp [Stops]

theorem Stops.cons {c : Char} (h : isNumberChar c = false) (tail : List Char) :
    Stops (c :: tail) := by
  simp [Stops, h]

/-- A character that numbers are made of begins a number, and nothing else. -/
theorem next?_of_isNumberChar {c : Char} (h : isNumberChar c = true) (cs : List Char) :
    next? (c :: cs) = (number? ((c :: cs).takeWhile isNumberChar)).map fun t =>
      (t, (c :: cs).dropWhile isNumberChar) := by
  have hne : ∀ d, isNumberChar d = false → c ≠ d := by
    rintro d hd rfl
    exact Bool.false_ne_true (hd.symm.trans h)
  -- no other token begins with such a character
  rw [next?] <;> intro _ heq <;> exact hne _ rfl (List.cons.inj heq).1

theorem next?_intText {n : Int} {tail : List Char} (hlow : -0x8000000000000000 ≤ n)
    (hhigh : n < 0x10000000000000000) (htail : Stops tail) :
    next? (Text.intText n ++ tail) = some (.integer n, tail) := by
  have hchars : ∀ c ∈ Text.intText n, isNumberChar c = true := fun c hc =>
    isNumberChar_of_mem_intText hc
  have htake : (Text.intText n ++ tail).takeWhile isNumberChar = Text.intText n := by
    rw [List.takeWhile_append_of_pos hchars]
    cases tail with
    | nil => simp
    | cons c tail => simp [htail c rfl]
  have hdrop : (Text.intText n ++ tail).dropWhile isNumberChar = tail := by
    rw [List.dropWhile_append_of_pos hchars]
    cases tail with
    | nil => rfl
    | cons c tail => simp [htail c rfl]
  obtain ⟨c, cs, hcons⟩ := List.exists_cons_of_ne_nil (intText_ne_nil n)
  have hc : isNumberChar c = true := hchars c (hcons ▸ List.mem_cons_self ..)
  rw [hcons, List.cons_append, next?_of_isNumberChar hc, ← List.cons_append, ← hcons, htake, hdrop,
    number?_intText hlow hhigh]
  rfl

/-! ## Tokens of a text -/

/-- A text is made of these tokens, with whatever fuel that is enough for its length. -/
def Scans (cs : List Char) (ts : List Token) : Prop :=
  ∀ fuel, cs.length < fuel → scan fuel cs = some ts

theorem Scans.nil : Scans [] [] := by
  intro fuel hfuel
  cases fuel with
  | zero => omega
  | succ fuel => rfl

theorem Scans.cons {c : Char} {rest left : List Char} {t : Token} {ts : List Token}
    (hspace : isSpace c = false) (hnext : next? (c :: rest) = some (t, left))
    (hlen : left.length ≤ rest.length) (h : Scans left ts) : Scans (c :: rest) (t :: ts) := by
  intro fuel hfuel
  cases fuel with
  | zero => omega
  | succ fuel =>
      have hleft : left.length < fuel := by
        simp only [List.length_cons] at hfuel
        omega
      simp [scan, hspace, hnext, h fuel hleft]

theorem Scans.ofText? {cs : List Char} {ts : List Token} (h : Scans cs ts) :
    ofText? cs = some ts :=
  h (cs.length + 1) (Nat.lt_succ_self _)

theorem Scans.intText {n : Int} {tail : List Char} {ts : List Token}
    (hlow : -0x8000000000000000 ≤ n) (hhigh : n < 0x10000000000000000) (htail : Stops tail)
    (h : Scans tail ts) : Scans (Text.intText n ++ tail) (.integer n :: ts) := by
  have hnext := next?_intText hlow hhigh htail
  obtain ⟨c, cs, hcons⟩ := List.exists_cons_of_ne_nil (intText_ne_nil n)
  have hc : isNumberChar c = true :=
    isNumberChar_of_mem_intText (x := n) (hcons ▸ List.mem_cons_self ..)
  rw [hcons, List.cons_append] at hnext ⊢
  refine Scans.cons (isSpace_of_isNumberChar hc) hnext ?_ h
  simp

theorem Scans.writeString {s : String} {tail : List Char} {ts : List Token} (h : Scans tail ts) :
    Scans (writeString s tail) (.string s :: ts) := by
  have hnext : next? (Json.writeString s tail) = some (.string s, tail) := by
    simp [Json.writeString, next?, stringBody?_foldr_escape]
  refine Scans.cons rfl hnext ?_ h
  have hle := length_le_foldr_escape s.toList ('"' :: tail)
  simp only [List.length_cons] at hle
  omega

end Token

open Token

mutual

/-- A value is written as its tokens. -/
theorem scans_write {tail : List Char} {ts : List Token} (h : Scans tail ts) (htail : Stops tail) :
    ∀ v : Json, v.IntegersOnly → Scans (v.write tail) (v.tokens ++ ts)
  | .null, _ => Scans.cons rfl rfl (by simp; omega) h
  | .bool true, _ => Scans.cons rfl rfl (by simp; omega) h
  | .bool false, _ => Scans.cons rfl rfl (by simp; omega) h
  | .integer _, hv => Scans.intText hv.1 hv.2 htail h
  | .string _, _ => Scans.writeString h
  | .array items, hv => by
      have hclose : Scans (']' :: tail) (.closeArray :: ts) :=
        Scans.cons rfl rfl (Nat.le_refl _) h
      have hitems := scans_writeItems hclose (Stops.cons rfl tail) items hv
      rw [tokens, List.cons_append, List.append_assoc]
      exact Scans.cons rfl rfl (Nat.le_refl _) hitems
  | .object members, hv => by
      have hclose : Scans (Text.closeBrace :: tail) (.closeObject :: ts) :=
        Scans.cons rfl rfl (Nat.le_refl _) h
      have hmembers := scans_writeMembers hclose (Stops.cons rfl tail) members hv
      rw [tokens, List.cons_append, List.append_assoc]
      exact Scans.cons rfl rfl (Nat.le_refl _) hmembers

theorem scans_writeItems {tail : List Char} {ts : List Token} (h : Scans tail ts)
    (htail : Stops tail) :
    ∀ items : List Json, IntegerItems items →
      Scans (writeItems items tail) (itemTokens items ++ ts)
  | [], _ => h
  | [v], hv => scans_write h htail v hv.1
  | v :: w :: rest, hv => by
      have hrest := scans_writeItems h htail (w :: rest) hv.2
      have hcomma : Scans (',' :: writeItems (w :: rest) tail)
          (.comma :: (itemTokens (w :: rest) ++ ts)) :=
        Scans.cons rfl rfl (Nat.le_refl _) hrest
      have hv := scans_write hcomma (Stops.cons rfl _) v hv.1
      rw [itemTokens, List.append_assoc, List.cons_append]
      exact hv

theorem scans_writeMembers {tail : List Char} {ts : List Token} (h : Scans tail ts)
    (htail : Stops tail) :
    ∀ members : List (String × Json), IntegerMembers members →
      Scans (writeMembers members tail) (memberTokens members ++ ts)
  | [], _ => h
  | [(name, v)], hv =>
      Scans.writeString (Scans.cons rfl rfl (Nat.le_refl _) (scans_write h htail v hv.1))
  | (name, v) :: m :: rest, hv => by
      have hrest := scans_writeMembers h htail (m :: rest) hv.2
      have hcomma : Scans (',' :: writeMembers (m :: rest) tail)
          (.comma :: (memberTokens (m :: rest) ++ ts)) :=
        Scans.cons rfl rfl (Nat.le_refl _) hrest
      have hv := scans_write hcomma (Stops.cons rfl _) v hv.1
      have hcolon : Scans (':' :: v.write (',' :: writeMembers (m :: rest) tail))
          (.colon :: (v.tokens ++ .comma :: (memberTokens (m :: rest) ++ ts))) :=
        Scans.cons rfl rfl (Nat.le_refl _) hv
      simp only [memberTokens, List.cons_append, List.append_assoc]
      exact Scans.writeString hcolon

end

theorem ofText?_write {v : Json} (h : v.IntegersOnly) :
    Token.ofText? (v.write []) = some v.tokens := by
  have hscans := scans_write Scans.nil Stops.nil v h
  rw [List.append_nil] at hscans
  exact hscans.ofText?

/-! ## From tokens to a value -/

theorem tokens_eq_cons (v : Json) : ∃ t ts, v.tokens = t :: ts ∧ t ≠ .closeArray := by
  cases v <;> exact ⟨_, _, rfl, by simp⟩

namespace Expect

/-- In an array just opened a value is read like any other. -/
theorem run?_firstItem (limit : Nat) (stack : List Frame) (v : Json) (ts : List Token) :
    run? limit (.firstItem stack) (v.tokens ++ ts) =
      run? limit (.value (.array [] :: stack)) (v.tokens ++ ts) := by
  obtain ⟨t, rest, heq, hne⟩ := tokens_eq_cons v
  rw [heq, List.cons_append]
  cases t <;> first | rfl | exact absurd rfl hne

/-- Room for the first and room for all others is room for the deepest. -/
theorem ite_depth_le {β : Type u} (limit height first others : Nat) (x : Option β) :
    (if height + 1 + first ≤ limit then if height + (others + 1) ≤ limit then x else none
      else none) =
      if height + (max first others + 1) ≤ limit then x else none := by
  by_cases hfirst : height + 1 + first ≤ limit
  · by_cases hothers : height + (others + 1) ≤ limit
    · rw [if_pos hfirst, if_pos hothers, if_pos (by omega)]
    · rw [if_pos hfirst, if_neg hothers, if_neg (by omega)]
  · rw [if_neg hfirst, if_neg (by omega)]

theorem run?_openArray {limit : Nat} {stack : List Frame} (items : List Json) (ts : List Token) :
    run? limit (.value stack) ((Json.array items).tokens ++ ts) =
      if stack.length < limit then
        run? limit (.firstItem stack) (itemTokens items ++ .closeArray :: ts)
      else none := by
  by_cases hopen : stack.length < limit <;> simp [tokens, run?, step?, begin?, hopen]

theorem run?_openObject {limit : Nat} {stack : List Frame} (members : List (String × Json))
    (ts : List Token) :
    run? limit (.value stack) ((Json.object members).tokens ++ ts) =
      if stack.length < limit then
        run? limit (.firstName stack) (memberTokens members ++ .closeObject :: ts)
      else none := by
  by_cases hopen : stack.length < limit <;> simp [tokens, run?, step?, begin?, hopen]

mutual

/-- The tokens of a value bring the machine past it, unless the value is too deep for what is left
of the limit. -/
theorem run?_tokens {limit : Nat} (ts : List Token) :
    ∀ (v : Json) (stack : List Frame), stack.length ≤ limit →
      run? limit (.value stack) (v.tokens ++ ts) =
        if stack.length + v.depth ≤ limit then run? limit (complete v stack) ts else none
  | .null, stack, hstack => (if_pos hstack).symm
  | .bool _, stack, hstack => (if_pos hstack).symm
  | .integer _, stack, hstack => (if_pos hstack).symm
  | .decimal _, stack, hstack => (if_pos hstack).symm
  | .string _, stack, hstack => (if_pos hstack).symm
  | .array [], stack, hstack => run?_openArray [] ts
  | .array (v :: rest), stack, hstack => by
      rw [run?_openArray]
      by_cases hopen : stack.length < limit
      · have hitems := run?_itemTokens ts (v :: rest) (by simp) [] stack hopen
        rw [if_pos hopen]
        cases rest with
        | nil => exact (run?_firstItem limit stack v _).trans hitems
        | cons w rest =>
            rw [itemTokens, List.append_assoc] at hitems ⊢
            exact (run?_firstItem limit stack v _).trans hitems
      · have hdeep : ¬ stack.length + (Json.array (v :: rest)).depth ≤ limit := by
          simp only [depth]
          omega
        rw [if_neg hopen, if_neg hdeep]
  | .object [], stack, hstack => run?_openObject [] ts
  | .object (m :: rest), stack, hstack => by
      rw [run?_openObject]
      by_cases hopen : stack.length < limit
      · have hmembers := run?_memberTokens ts (m :: rest) (by simp) [] stack hopen
        rw [if_pos hopen]
        cases rest with
        | nil => exact hmembers
        | cons n rest => exact hmembers
      · have hdeep : ¬ stack.length + (Json.object (m :: rest)).depth ≤ limit := by
          simp only [depth]
          omega
        rw [if_neg hopen, if_neg hdeep]

/-- The tokens of items and of the end of their array bring the machine past the array. -/
theorem run?_itemTokens {limit : Nat} (ts : List Token) :
    ∀ (items : List Json), items ≠ [] → ∀ (done : List Json) (stack : List Frame),
      stack.length < limit →
      run? limit (.value (.array done :: stack)) (itemTokens items ++ .closeArray :: ts) =
        if stack.length + (depthOfItems items + 1) ≤ limit then
          run? limit (complete (.array (done.reverse ++ items)) stack) ts
        else none
  | [], hne, _, _, _ => absurd rfl hne
  | [v], _, done, stack, hopen => by
      have hv := run?_tokens (.closeArray :: ts) v (.array done :: stack) hopen
      have hdepth : (.array done :: stack : List Frame).length + v.depth =
          stack.length + (depthOfItems [v] + 1) := by
        simp only [List.length_cons, depthOfItems]
        omega
      rw [itemTokens, hv, hdepth]
      simp [run?, step?, complete]
  | v :: w :: rest, _, done, stack, hopen => by
      have hv := run?_tokens (.comma :: (itemTokens (w :: rest) ++ .closeArray :: ts)) v
        (.array done :: stack) hopen
      have hcomma : run? limit (complete v (.array done :: stack))
            (.comma :: (itemTokens (w :: rest) ++ .closeArray :: ts)) =
          run? limit (.value (.array (v :: done) :: stack))
            (itemTokens (w :: rest) ++ .closeArray :: ts) := rfl
      have hrest := run?_itemTokens ts (w :: rest) (by simp) (v :: done) stack hopen
      rw [itemTokens, List.append_assoc, List.cons_append, hv, hcomma, hrest, List.length_cons,
        ite_depth_le, List.reverse_cons, List.append_assoc]
      rfl

/-- The tokens of members and of the end of their object bring the machine past the object. -/
theorem run?_memberTokens {limit : Nat} (ts : List Token) :
    ∀ (members : List (String × Json)), members ≠ [] →
      ∀ (done : List (String × Json)) (stack : List Frame), stack.length < limit →
      run? limit (.nextName done stack) (memberTokens members ++ .closeObject :: ts) =
        if stack.length + (depthOfMembers members + 1) ≤ limit then
          run? limit (complete (.object (done.reverse ++ members)) stack) ts
        else none
  | [], hne, _, _, _ => absurd rfl hne
  | [(name, v)], _, done, stack, hopen => by
      have hv := run?_tokens (.closeObject :: ts) v (.object done name :: stack) hopen
      have hdepth : (.object done name :: stack : List Frame).length + v.depth =
          stack.length + (depthOfMembers [(name, v)] + 1) := by
        simp only [List.length_cons, depthOfMembers]
        omega
      have hname : run? limit (.nextName done stack)
            (memberTokens [(name, v)] ++ .closeObject :: ts) =
          run? limit (.value (.object done name :: stack)) (v.tokens ++ .closeObject :: ts) := rfl
      rw [hname, hv, hdepth]
      simp [run?, step?, complete]
  | (name, v) :: m :: rest, _, done, stack, hopen => by
      have hv := run?_tokens (.comma :: (memberTokens (m :: rest) ++ .closeObject :: ts)) v
        (.object done name :: stack) hopen
      have hname : run? limit (.nextName done stack)
            (memberTokens ((name, v) :: m :: rest) ++ .closeObject :: ts) =
          run? limit (.value (.object done name :: stack))
            (v.tokens ++ .comma :: (memberTokens (m :: rest) ++ .closeObject :: ts)) := by
        simp only [memberTokens, List.cons_append, List.append_assoc]
        rfl
      have hcomma : run? limit (complete v (.object done name :: stack))
            (.comma :: (memberTokens (m :: rest) ++ .closeObject :: ts)) =
          run? limit (.nextName ((name, v) :: done) stack)
            (memberTokens (m :: rest) ++ .closeObject :: ts) := rfl
      have hrest := run?_memberTokens ts (m :: rest) (by simp) ((name, v) :: done) stack hopen
      rw [hname, hv, hcomma, hrest, List.length_cons, ite_depth_le, List.reverse_cons,
        List.append_assoc]
      rfl

end

end Expect

theorem ofTokens?_tokens (limit : Nat) (v : Json) :
    ofTokens? limit v.tokens = if v.depth ≤ limit then some v else none := by
  have hrun := Expect.run?_tokens [] v [] (Nat.zero_le limit)
  rw [List.append_nil, List.length_nil, Nat.zero_add] at hrun
  rw [ofTokens?, hrun]
  by_cases hdepth : v.depth ≤ limit
  · rw [if_pos hdepth, if_pos hdepth]
    rfl
  · rw [if_neg hdepth, if_neg hdepth]

/-- A text that is written reads back as its value, or as none if that is too deep. -/
theorem read?_toText {v : Json} (h : v.IntegersOnly) :
    read? v.toText = if v.depth ≤ maxDepth then some v else none := by
  rw [read?, readWithin?, toText, String.toList_ofList, ofText?_write h]
  exact ofTokens?_tokens maxDepth v

end Spellwork.Json
