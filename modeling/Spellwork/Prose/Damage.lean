import Spellwork.Prose.Alias
import Spellwork.Text.Pattern

/-!
# Damage in prose

The dice formula and the damage type that a text speaks of.
-/

namespace Spellwork.Prose

open Text Pattern

/-- At least one digit. -/
def digits : Pattern :=
  many1 digit

/-- Dice without blanks, such as `2d6` or `d8`. -/
def diceToken : Pattern :=
  all [many true digit, oneOf ['d', 'D'], digits]

/-- A sign with blanks around it. -/
def signToken : Pattern :=
  all [blanks, oneOf ['+', '-'], blanks]

/-- The group of a captured formula or word. -/
def captured : Nat := 1

/-- A formula at the beginning of a text: dice with further dice and constants, or a constant. -/
def leadingFormula : Pattern :=
  all [textStart, blanks,
    group captured (alt
      (all [diceToken, many true (seq signToken (alt diceToken digits))])
      digits),
    wordEdge]

/-- A formula anywhere in a text: dice with at most one constant. -/
def embeddedFormula : Pattern :=
  all [wordEdge, group captured (seq diceToken (opt (seq signToken digits))), wordEdge]

/-- A captured formula without blanks, in lower case. -/
def compactFormula (cs : List Char) : String :=
  String.ofList (lowercase (cs.filter fun c => !isBlank c))

/-- The formula at the beginning of a text. -/
def leadingFormula? (cs : List Char) : Option String :=
  ((leadingFormula.find cs).bind fun m => m.text? captured cs).map compactFormula

/-- The first formula anywhere in a text. -/
def embeddedFormula? (cs : List Char) : Option String :=
  ((embeddedFormula.find cs).bind fun m => m.text? captured cs).map compactFormula

/-- A letter from a to z, in the case written. -/
def plainLetter : Pattern :=
  one Char.isAlpha

/-- Where a damage type may be named, the most telling places first: before "damage", after "deals",
after a formula, after punctuation, and at the beginning. -/
def damageTypePatterns : List Pattern :=
  [all [wordEdge, group captured (many1 letter), gap, text "damage", wordEdge],
    all [wordEdge, text "deal", opt (text "s"), gap, group captured (many1 letter)],
    all [digits, text "d", digits, opt (seq signToken digits), opt (char ')'), gap,
      group captured (many1 letter)],
    all [oneOf ['.', ',', ';', ':', '!', '?', ')'], blanks, group captured (many1 plainLetter)],
    all [textStart, blanks, group captured (many1 plainLetter)]]

/-- The first damage type that a pattern captures. -/
def capturedDamageType? (cs : List Char) (p : Pattern) : Option DamageType :=
  (p.findAll cs).findSome? fun m => (m.text? captured cs).bind damageType?

/-- The damage type of the word behind the formula. -/
def trailingDamageType? (formula : List Char) : Option DamageType :=
  let rest :=
    match leadingFormula.find formula with
    | some m => formula.drop m.span.stop
    | none => formula
  (words rest).head?.bind damageType?

/-- The damage type of an action: the one named behind the formula, or else in the description, or
else bludgeoning. -/
def damageTypeOf (formula description : Option (List Char)) : DamageType :=
  match formula.bind trailingDamageType? with
  | some d => d
  | none =>
    match description.bind fun cs => damageTypePatterns.findSome? (capturedDamageType? cs) with
    | some d => d
    | none => .bludgeoning

end Spellwork.Prose
