import Spellwork.Prose.Save

/-!
# Conditions in prose

Conditions are named in three ways: in double brackets, behind "On hit:" and its kin, and behind
"target is". All that are found are taken together in the order of the text, each one once for every
outcome.
-/

namespace Spellwork.Prose

open Text Pattern

/-- A condition found in a text, with the outcome under which it applies. -/
structure ConditionClause where
  condition : String
  outcome : Outcome
  escape : Option Escape
deriving DecidableEq, Repr

/-- The group of a condition's name. -/
def nameGroup : Nat := 1

/-- The group of the words for an outcome. -/
def whenGroup : Nat := 2

/-- A name in double brackets. -/
def bracketPattern : Pattern :=
  all [char '[', char '[', group nameGroup (many1 (noneOf ['[', ']'])), char ']', char ']']

/-- The words for an outcome behind "on". -/
def whenWords : Pattern :=
  any [text "hit",
    seq (text "crit") (opt (seq (text "ical") (opt (seq gap (text "hit"))))),
    all [opt (seq (text "a") gap), text "failed", gap, text "save"],
    text "save"]

/-- A name behind "on", an outcome and a colon, up to a parenthesis, punctuation or the end of the
line. -/
def onPattern : Pattern :=
  all [wordEdge, text "on", gap, group whenGroup whenWords, blanks, char ':', blanks,
    group nameGroup (seq letter (many false (one fun c => isLetter c || c = ' '))), blanks,
    any [char '(', oneOf ['.', ',', ';'], lineEnd]]

/-- A name behind "target is" or "target becomes". -/
def targetPattern : Pattern :=
  all [wordEdge, text "target", gap, alt (text "is") (text "becomes"), gap,
    opt (seq (text "also") gap),
    group nameGroup (alt (all [text "knocked", gap, text "prone"]) (many1 letter))]

/-- A way out of a condition, right behind its name. -/
def escapePattern : Pattern :=
  all [textStart, blanks, char '(', blanks, text "escape", gap, text "dc", blanks,
    group dcGroup digits, opt (seq gap (group statGroup statWord)), blanks, char ')']

/-- The way out of a condition that a text begins with. -/
def escape? (cs : List Char) : Option Escape := do
  let m ← escapePattern.find cs
  let dc ← (m.text? dcGroup cs).bind uint32?
  return { dc, ability := (m.text? statGroup cs).bind ability? }

/-- The text behind its last full stop, semicolon or line feed. -/
def lastClause (cs : List Char) : List Char :=
  (cs.reverse.takeWhile fun c => c ≠ '.' && c ≠ ';' && c ≠ '\n').reverse

/-- The outcome that the words before a condition suggest. -/
def outcomeAfter (cs : List Char) : Outcome :=
  let before := lowercase (lastClause cs)
  if contains "crit".toList before then .criticalHit
  else if contains "failed save".toList before || contains "fails".toList before ||
      contains "save or".toList before then .failedSave
  else .hit

/-- The outcome that the words behind "on" name. -/
def outcomeOfWords (cs : List Char) : Outcome :=
  let lower := cs.map Char.toLower
  if lower = "hit".toList then .hit
  else if "crit".toList.isPrefixOf lower then .criticalHit
  else .failedSave

/-- A condition with the offset at which its match starts. -/
abbrev Found := Nat × ConditionClause

/-- The condition of a bracket. Any name counts, unless nothing is left of it. -/
def ofBracket? (cs : List Char) (m : Match) : Option Found := do
  let condition := conditionId (← m.text? nameGroup cs)
  if condition.isEmpty then none
  else
    some (m.span.start,
      { condition, outcome := outcomeAfter (cs.take m.span.start)
        escape := escape? (cs.drop m.span.stop) })

/-- The condition behind "on" and an outcome. Only known ones count. -/
def ofOn? (cs : List Char) (m : Match) : Option Found := do
  let span ← m.group? nameGroup
  let condition ← condition? (slice span.start span.stop cs)
  let words ← m.text? whenGroup cs
  some (m.span.start,
    { condition, outcome := outcomeOfWords words, escape := escape? (cs.drop span.stop) })

/-- The condition behind "target is". Only known ones count. -/
def ofTarget? (cs : List Char) (m : Match) : Option Found := do
  let condition ← (m.text? nameGroup cs).bind condition?
  some (m.span.start,
    { condition, outcome := outcomeAfter (cs.take m.span.start)
      escape := escape? (cs.drop m.span.stop) })

/-- Every condition found, way by way. -/
def allFound (cs : List Char) : List Found :=
  (bracketPattern.findAll cs).filterMap (ofBracket? cs) ++
    ((onPattern.findAll cs).filterMap (ofOn? cs) ++
      (targetPattern.findAll cs).filterMap (ofTarget? cs))

/-- Puts a find before those that start behind it or where it starts. -/
def placeFound (f : Found) : List Found → List Found
  | [] => [f]
  | g :: rest => if f.1 ≤ g.1 then f :: g :: rest else g :: placeFound f rest

/-- The first clause for every condition and outcome, given those kept already. -/
def firstOfEach : (kept : List ConditionClause) → List Found → List ConditionClause
  | _, [] => []
  | kept, (_, c) :: rest =>
    if kept.any fun k => k.condition = c.condition && k.outcome = c.outcome then
      firstOfEach kept rest
    else c :: firstOfEach (c :: kept) rest

/-- The conditions that a text speaks of, in the order of the text. -/
def conditionsOf (cs : List Char) : List ConditionClause :=
  firstOfEach [] ((allFound cs).foldr placeFound [])

end Spellwork.Prose
