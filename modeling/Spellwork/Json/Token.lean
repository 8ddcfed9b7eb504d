import Spellwork.Json.Basic
import Spellwork.Number.Double

/-!
# Json tokens

A Json text as a list of tokens. A string token holds the text it denotes; a number token has
already been sorted into integers and other numbers.
-/

namespace Spellwork.Json

/-- The smallest parts of a Json text. -/
inductive Token where
  | openArray
  | closeArray
  | openObject
  | closeObject
  | comma
  | colon
  | null
  | bool (b : Bool)
  | integer (n : Int)
  | decimal (text : String)
  | string (s : String)
deriving DecidableEq, Repr

namespace Token

/-- The only blanks between tokens. -/
def isSpace (c : Char) : Bool :=
  c = ' ' || c = '\t' || c = '\n' || c = '\r'

/-! ## Strings -/

/-- The value of a hexadecimal digit. -/
def hexDigit? (c : Char) : Option Nat :=
  if '0' ≤ c ∧ c ≤ '9' then some (c.toNat - 48)
  else if 'a' ≤ c ∧ c ≤ 'f' then some (c.toNat - 87)
  else if 'A' ≤ c ∧ c ≤ 'F' then some (c.toNat - 55)
  else none

/-- The value of four hexadecimal digits. -/
def hexUnit? (a b c d : Char) : Option Nat := do
  return (((← hexDigit? a) * 16 + (← hexDigit? b)) * 16 + (← hexDigit? c)) * 16 + (← hexDigit? d)

/-- The first half of a pair that denotes one character. -/
def isHighUnit (n : Nat) : Bool :=
  0xd800 ≤ n && n ≤ 0xdbff

/-- The second half of a pair that denotes one character. -/
def isLowUnit (n : Nat) : Bool :=
  0xdc00 ≤ n && n ≤ 0xdfff

/-- The character of a one-letter escape. -/
def escaped? : Char → Option Char
  | '"' => some '"'
  | '\\' => some '\\'
  | '/' => some '/'
  | 'b' => some '\x08'
  | 'f' => some '\x0c'
  | 'n' => some '\n'
  | 'r' => some '\r'
  | 't' => some '\t'
  | _ => none

/-- Reads a string up to its closing quote: the characters it denotes, and what is left. Control
characters must be escaped, and halves of a pair must come together. -/
def stringBody? : List Char → Option (List Char × List Char)
  | [] => none
  | '"' :: rest => some ([], rest)
  | '\\' :: 'u' :: a :: b :: c :: d :: rest =>
    match hexUnit? a b c d with
    | none => none
    | some unit =>
      if isHighUnit unit then
        match rest with
        | '\\' :: 'u' :: e :: f :: g :: h :: rest =>
          match hexUnit? e f g h with
          | none => none
          | some low =>
            if isLowUnit low then
              (stringBody? rest).map fun (cs, left) =>
                (Char.ofNat (0x10000 + (unit - 0xd800) * 0x400 + (low - 0xdc00)) :: cs, left)
            else none
        | _ => none
      else if isLowUnit unit then none
      else (stringBody? rest).map fun (cs, left) => (Char.ofNat unit :: cs, left)
  | '\\' :: c :: rest =>
    match escaped? c with
    | none => none
    | some e => (stringBody? rest).map fun (cs, left) => (e :: cs, left)
  | c :: rest =>
    if c.toNat < 0x20 || c = '\\' then none
    else (stringBody? rest).map fun (cs, left) => (c :: cs, left)

/-! ## Numbers -/

/-- The characters that a number is made of. -/
def isNumberChar (c : Char) : Bool :=
  c.isDigit || c = '-' || c = '+' || c = '.' || c = 'e' || c = 'E'

/-- Whether a run of digits may stand before the point: there is a first digit, and it is not a
zero unless it is the only one. -/
def isWhole : List Char → Bool
  | [] => false
  | '0' :: rest => rest.isEmpty
  | cs => cs.all Char.isDigit

/-- Whether a text is empty or is an exponent: a mark, an optional sign, and digits. -/
def isExponent : List Char → Bool
  | [] => true
  | c :: cs => (c = 'e' || c = 'E') && (Text.signed? cs).isSome

/-- Whether a text is empty, or a point and at least one digit, followed by an exponent or not. -/
def isFractionAndExponent : List Char → Bool
  | '.' :: cs => !(cs.takeWhile Char.isDigit).isEmpty && isExponent (cs.dropWhile Char.isDigit)
  | cs => isExponent cs

/-- The token of an unsigned number with its sign put before it. A number that no double can hold
is refused. -/
def ofNumber? (negative : Bool) (cs : List Char) : Option Token :=
  let whole := cs.takeWhile Char.isDigit
  let tail := cs.dropWhile Char.isDigit
  if isWhole whole && isFractionAndExponent tail then
    let n := Nat.ofDigitChars 10 whole 0
    if tail.isEmpty && !negative && n < UInt64.size then some (.integer n)
    else if tail.isEmpty && negative && n ≠ 0 && n ≤ 0x8000000000000000 then some (.integer (-n))
    else
      let text := if negative then '-' :: cs else cs
      (Double.ofText? text).map fun _ => .decimal (String.ofList text)
  else none

/-- The token of a number. -/
def number? : List Char → Option Token
  | '-' :: cs => ofNumber? true cs
  | cs => ofNumber? false cs

/-! ## Texts -/

/-- The token at the beginning of a text that does not start with a blank, and what is left. -/
def next? : List Char → Option (Token × List Char)
  | '[' :: rest => some (.openArray, rest)
  | ']' :: rest => some (.closeArray, rest)
  -- the braces, `Text.openBrace` and `Text.closeBrace` elsewhere
  | '\x7b' :: rest => some (.openObject, rest)
  | '\x7d' :: rest => some (.closeObject, rest)
  | ',' :: rest => some (.comma, rest)
  | ':' :: rest => some (.colon, rest)
  | '"' :: rest => (stringBody? rest).map fun (cs, left) => (.string (String.ofList cs), left)
  | 'n' :: 'u' :: 'l' :: 'l' :: rest => some (.null, rest)
  | 't' :: 'r' :: 'u' :: 'e' :: rest => some (.bool true, rest)
  | 'f' :: 'a' :: 'l' :: 's' :: 'e' :: rest => some (.bool false, rest)
  | cs =>
    (number? (cs.takeWhile isNumberChar)).map fun t => (t, cs.dropWhile isNumberChar)

/-- The tokens of a text. Each one takes at least one character, so `fuel` need not exceed the
length of the text by more than one. -/
def scan : (fuel : Nat) → List Char → Option (List Token)
  | 0, _ => none
  | fuel + 1, cs =>
    match cs.dropWhile isSpace with
    | [] => some []
    | c :: rest =>
      match next? (c :: rest) with
      | none => none
      | some (t, left) => (scan fuel left).map (t :: ·)

/-- The tokens of a text, if it is made of tokens and blanks. -/
def ofText? (cs : List Char) : Option (List Token) :=
  scan (cs.length + 1) cs

end Token

end Spellwork.Json
