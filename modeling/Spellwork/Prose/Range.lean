import Spellwork.Prose.Damage

/-!
# Range in prose

How far an action reaches.
-/

namespace Spellwork

/-- The kinds of range. -/
inductive RangeKind where
  | range
  | reach
  | cone
  | line
  | burst
deriving DecidableEq, Repr

namespace RangeKind

/-- Every kind of range. -/
def all : List RangeKind := [range, reach, cone, line, burst]

/-- The name. -/
def name : RangeKind → String
  | range => "range"
  | reach => "reach"
  | cone => "cone"
  | line => "line"
  | burst => "burst"

end RangeKind

/-- How far an action reaches, in feet. -/
structure Range where
  kind : RangeKind
  distance : UInt32
  /-- The width of a line. -/
  width : Option UInt32 := none
deriving DecidableEq, Repr

namespace Prose

open Text Pattern

/-- The group of a distance. -/
def distanceGroup : Nat := 1

/-- The group of a width. -/
def widthGroup : Nat := 2

/-- A word, perhaps a colon, and a distance. -/
def rangeClause (word : String) : Pattern :=
  all [wordEdge, text word, blanks, opt (char ':'), blanks, group distanceGroup digits]

/-- How each kind of range is written. A line has a width. -/
def rangePattern : RangeKind → Pattern
  | .line =>
    all [rangeClause "line", blanks, one fun c => foldLetter c = 'x' || c = '×', blanks,
      group widthGroup digits]
  | kind => rangeClause kind.name

/-- The first range of one kind. A distance that is out of range is as good as none. -/
def rangeOfKind? (cs : List Char) (kind : RangeKind) : Option Range := do
  let m ← (rangePattern kind).find cs
  let distance ← (m.text? distanceGroup cs).bind uint32?
  return { kind, distance, width := (m.text? widthGroup cs).bind uint32? }

/-- The range of an action: the one it has already, or else the first kind that the text speaks
of. -/
def rangeOf (cs : List Char) (existing : Option Range) : Option Range :=
  match existing with
  | some r => some r
  | none => RangeKind.all.findSome? (rangeOfKind? cs)

end Prose

end Spellwork
