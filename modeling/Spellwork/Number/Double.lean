import Spellwork.Text.Numeral

/-!
# Doubles

Floating-point numbers as bit patterns of the 64-bit binary format, read from decimal text and
printed as the shortest decimal that reads back. Reading rounds to the nearest double, a tie to the
even one; all arithmetic is exact, on naturals.
-/

namespace Spellwork

/-- A floating-point number: sign, eleven bits of exponent, 52 bits of fraction. -/
structure Double where
  bits : UInt64
deriving DecidableEq, Repr

namespace Double

/-- The quotient rounded to the nearest natural, a tie to the even one. -/
def roundedQuotient (num den : Nat) : Nat :=
  let q := num / den
  let r := num % den
  if 2 * r < den then q else if den < 2 * r then q + 1 else q + q % 2

/-- `num / den` times two to the power of `-q`, as a fraction. -/
def unscale (num den : Nat) (q : Int) : Nat × Nat :=
  if 0 ≤ q then (num, den * Nat.pow 2 q.toNat) else (num * Nat.pow 2 (-q).toNat, den)

/-- The weight of the hidden leading bit of a significand, which is also the number of fractions to
one exponent. -/
def hidden : Nat := 0x10000000000000

/-- The bits of infinity, without sign. -/
def infinity : Nat := 0x7ff0000000000000

/-- The sign bit. -/
def signBit : Nat := 0x8000000000000000

/-- The exponent `q` for which `num / den` has 53 binary digits before the point when it is divided
by two to the power of `q`; it is never below that of the smallest double. -/
def binaryExponent (num den : Nat) : Int :=
  let q : Int := (num.log2 : Int) - den.log2 - 52
  let (n, d) := unscale num den q
  max (if n < d * hidden then q - 1 else q) (-1074)

/-- The bits of the double nearest to a positive fraction, without sign; those of infinity where
the fraction is too large. -/
def magnitudeBits (num den : Nat) : Nat :=
  let q := binaryExponent num den
  let (n, d) := unscale num den q
  let significand := roundedQuotient n d
  min ((q + 1074).toNat * hidden + significand) infinity

/-- The double nearest to `m` times ten to the power of `e`. Exponents far out of range are decided
by the number of digits alone. -/
def ofDecimal (negative : Bool) (m : Nat) (e : Int) : Double :=
  let magnitude :=
    if m = 0 then 0
    else
      let digits : Int := (Nat.toDigits 10 m).length
      if digits + e > 310 then infinity
      else if digits + e < -330 then 0
      else if 0 ≤ e then magnitudeBits (m * Nat.pow 10 e.toNat) 1
      else magnitudeBits m (Nat.pow 10 (-e).toNat)
  ⟨UInt64.ofNat (if negative then signBit + magnitude else magnitude)⟩

/-- Neither infinite nor not a number. -/
def isFinite (x : Double) : Bool :=
  (x.bits >>> 52) &&& 0x7ff ≠ 0x7ff

/-- Whether the sign bit is set. -/
def isNegative (x : Double) : Bool :=
  x.bits >>> 63 = 1

/-! ## Reading -/

/-- The exponent part of a decimal: nothing, or a mark, an optional sign and digits. -/
def exponent? : List Char → Option Int
  | [] => some 0
  | c :: cs => if c = 'e' ∨ c = 'E' then Text.signed? cs else none

/-- An unsigned decimal: digits with at most one point among them, at least one digit, then an
exponent part. Gives the significand and the power of ten. -/
def decimal? (cs : List Char) : Option (Nat × Int) :=
  let whole := cs.takeWhile Char.isDigit
  let afterWhole := cs.dropWhile Char.isDigit
  let (fraction, afterFraction) :=
    match afterWhole with
    | '.' :: rest => (rest.takeWhile Char.isDigit, rest.dropWhile Char.isDigit)
    | _ => ([], afterWhole)
  if whole.isEmpty && fraction.isEmpty then none
  else
    (exponent? afterFraction).map fun e =>
      (Nat.ofDigitChars 10 (whole ++ fraction) 0, e - fraction.length)

/-- Reads a decimal with an optional sign, if it denotes a finite number. -/
def ofText? (cs : List Char) : Option Double :=
  let (negative, cs) :=
    match cs with
    | '-' :: rest => (true, rest)
    | '+' :: rest => (false, rest)
    | _ => (false, cs)
  match decimal? cs with
  | some (m, e) =>
    let x := ofDecimal negative m e
    if x.isFinite then some x else none
  | none => none

/-! ## Printing -/

/-- The significand and the power of two of a finite double. -/
def parts (x : Double) : Nat × Int :=
  let e := ((x.bits >>> 52) &&& 0x7ff).toNat
  let f := (x.bits &&& 0xfffffffffffff).toNat
  if e = 0 then (f, -1074) else (hidden + f, (e : Int) - 1075)

/-- The exponent of the first decimal digit of a positive fraction. -/
def decimalExponent (num den : Nat) : Int :=
  if den ≤ num then (Nat.toDigits 10 (num / den)).length - 1
  else -(((List.range 400).find? fun j => den ≤ num * Nat.pow 10 j).getD 0 : Nat)

/-- Among the two neighbours of `m * 2 ^ q` on the grid of multiples of ten to the power of `k`, the
nearer one that reads back as the same double, as a count of grid steps; a tie goes to the even
count. The interval of numbers that read back is four quarters of a step of the last binary place
wide, or three just above a power of two, and it includes its ends when `m` is even. -/
def onGrid? (m : Nat) (q k : Int) : Option Nat :=
  let below := if m = hidden ∧ q ≠ -1074 then 1 else 2
  let num := Nat.pow 2 (q - 2).toNat * Nat.pow 10 (-k).toNat
  let den := Nat.pow 2 (2 - q).toNat * Nat.pow 10 k.toNat
  let floor := 4 * m * num / den
  let inside (c : Nat) : Bool :=
    if m % 2 = 0 then (4 * m - below) * num ≤ c * den && c * den ≤ (4 * m + 2) * num
    else (4 * m - below) * num < c * den && c * den < (4 * m + 2) * num
  let twice := 2 * (4 * m * num)
  let middle := (2 * floor + 1) * den
  let nearer :=
    if twice < middle then floor else if middle < twice then floor + 1 else floor + floor % 2
  let farther := 2 * floor + 1 - nearer
  if inside nearer then some nearer else if inside farther then some farther else none

/-- The shortest decimal that reads back as `m * 2 ^ q`, the nearest one of that length: a natural
and a power of ten. -/
def shortest (m : Nat) (q : Int) : Nat × Int :=
  let (num, den) := if 0 ≤ q then (m * Nat.pow 2 q.toNat, 1) else (m, Nat.pow 2 (-q).toNat)
  let e := decimalExponent num den
  ((List.range 17).findSome? fun (n : Nat) =>
    let k := e - n
    (onGrid? m q k).map fun c => (c, k)).getD (0, 0)

/-- Digits laid out with the first one at the decimal exponent `e`: with a point where `e` lies
between -5 and 15, with an exponent elsewhere. -/
def layOut (digits : List Char) (e : Int) : List Char :=
  if -5 ≤ e ∧ e < 0 then '0' :: '.' :: List.replicate (-e - 1).toNat '0' ++ digits
  else if 0 ≤ e ∧ e ≤ 15 then
    let whole := e.toNat + 1
    let padded := digits ++ List.replicate (whole - digits.length) '0'
    let fraction := padded.drop whole
    padded.take whole ++ '.' :: (if fraction.isEmpty then ['0'] else fraction)
  else
    let fraction := digits.drop 1
    digits.take 1 ++ (if fraction.isEmpty then [] else '.' :: fraction) ++
      'e' :: (if e < 0 then '-' else '+') :: Text.natText e.natAbs

/-- The text of a finite double. -/
def text (x : Double) : List Char :=
  let (m, q) := x.parts
  let magnitude :=
    if m = 0 then ['0', '.', '0']
    else
      let (c, k) := shortest m q
      let digits := Text.natText c
      layOut (digits.reverse.dropWhile (· = '0')).reverse (k + digits.length - 1)
  if x.isNegative then '-' :: magnitude else magnitude

end Double

end Spellwork
