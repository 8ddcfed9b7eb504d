import Spellwork.Prose.Damage

/-!
# Saving throws in prose

A saving throw is written in many word orders. The orders are tried from the most to the least
specific one; the first that occurs anywhere in the text decides, wherever it stands.
-/

namespace Spellwork.Prose

open Text Pattern

/-- A saving throw found in a text. -/
structure SaveClause where
  dc : UInt32
  ability : Ability
  /-- Saving halves the damage. -/
  halfOnSave : Bool
  /-- What a failure brings, unless saving halves the damage. -/
  consequence : Option String
deriving DecidableEq, Repr

/-- The group of the number to beat. -/
def dcGroup : Nat := 1

/-- The group of the ability. -/
def statGroup : Nat := 2

/-- An ability as written in rules text. -/
def statWord : Pattern :=
  any (["str", "dex", "int", "wil", "wis", "strength", "dexterity", "intelligence", "will",
    "wisdom"].map text)

/-- A whole word for an ability. -/
def statToken : Pattern :=
  all [wordEdge, group statGroup statWord, wordEdge]

/-- The letters DC and a number. -/
def dcToken : Pattern :=
  all [wordEdge, text "dc", blanks, group dcGroup digits]

/-- The words "saving throw". -/
def savingThrow : Pattern :=
  all [text "saving", gap, text "throw"]

/-- The word "save". -/
def saveWord : Pattern :=
  seq (text "save") wordEdge

/-- What may stand between the words for a save and its number. -/
def beforeDC : Pattern :=
  all [blanks, opt (oneOf ['(', ',', ':']), blanks]

/-- The word orders, the most specific one first. -/
def savePatterns : List Pattern :=
  [all [dcToken, gap, statToken, gap, savingThrow],
    all [dcToken, gap, statToken, gap, saveWord],
    all [statToken, gap, dcToken, gap, savingThrow],
    all [statToken, gap, dcToken, gap, saveWord],
    all [statToken, gap, savingThrow, beforeDC, dcToken, opt (char ')')],
    all [statToken, gap, text "save", beforeDC, dcToken, opt (char ')')],
    all [dcToken, gap, statToken],
    all [statToken, gap, dcToken],
    all [statToken, blanks, char '(', blanks, dcToken, blanks, char ')']]

/-- The ways to say that saving halves the damage. -/
def halfPatterns : List Pattern :=
  [all [wordEdge, text "half", gap, text "damage", wordEdge],
    all [wordEdge, text "half", gap, text "as", gap, text "much", wordEdge],
    alt
      (all [wordEdge, text "save", opt (text "s"), gap, text "for", gap, text "half", wordEdge])
      (all [wordEdge, text "half", gap, text "on", gap, opt (seq (text "a") gap),
        opt (seq (text "successful") gap), alt (text "save") (text "success"), wordEdge]),
    all [wordEdge, text "halved", wordEdge]]

/-- Up to the end of a sentence or clause. -/
def clause : Pattern :=
  many1 (noneOf ['.', ';'])

/-- Blanks and commas. -/
def pause : Pattern :=
  many true (one fun c => isBlank c || c = ',')

/-- A consequence right behind the saving throw: "or" and what happens. -/
def orConsequence : Pattern :=
  all [textStart, pause, opt savingThrow, pause, text "or", gap, opt (seq (text "be") gap),
    group captured clause]

/-- A consequence anywhere: "on a failed save" or "on a failure", and what happens. -/
def failureConsequence : Pattern :=
  all [wordEdge, text "on", gap, text "a", gap, text "fail",
    alt (all [text "ed", gap, text "save"]) (text "ure"), blanks, opt (oneOf [',', ':']), blanks,
    group captured clause]

/-- The text of a match's clause. -/
def clauseOf (p : Pattern) (cs : List Char) : Option (List Char) :=
  (p.find cs).bind fun m => m.text? captured cs

/-- What a failure brings, given the text behind the saving throw. -/
def consequence? (cs after : List Char) : Option String :=
  match (clauseOf orConsequence after).or (clauseOf failureConsequence cs) with
  | some found =>
    let trimmed := trim found
    if trimmed.isEmpty then none else some (String.ofList trimmed)
  | none => none

/-- The saving throw that a text speaks of. -/
def save? (cs : List Char) : Option SaveClause := do
  let m ← savePatterns.findSome? fun p => p.find cs
  let dc ← (m.text? dcGroup cs).bind uint32?
  let ability ← (m.text? statGroup cs).bind ability?
  let halfOnSave := halfPatterns.any fun p => p.occursIn cs
  let consequence := if halfOnSave then none else consequence? cs (cs.drop m.span.stop)
  return { dc, ability, halfOnSave, consequence }

end Spellwork.Prose
