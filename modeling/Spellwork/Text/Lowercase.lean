import Spellwork.Text.Property.Case
import Spellwork.Text.Class

/-!
# Lower-casing

Lower case of a whole text. A capital sigma at the end of a word becomes the final sigma, which is
the only place where a letter's neighbours matter.
-/

namespace Spellwork.Text

/-- A letter that has a case. -/
def isCased (c : Char) : Bool :=
  if c.toNat < 128 then c.isAlpha else inRanges c.toNat Property.cased

/-- A character that the search for a neighbouring cased letter passes over. -/
def isCaseIgnorable (c : Char) : Bool :=
  if c.toNat < 128 then [0x27, 0x2e, 0x3a, 0x5e, 0x60].contains c.toNat
  else inRanges c.toNat Property.caseIgnorable

/-- Lower case of one character, without regard to its neighbours. The dotted capital I is the
only one that becomes two characters. -/
def lowerChar (c : Char) : List Char :=
  if c.toNat < 128 then [c.toLower]
  else if c.toNat = 0x130 then ['i', '\u0307']
  else
    match Property.lowerRuns.find? fun r =>
      r.first ≤ c.toNat && c.toNat ≤ r.last && (c.toNat - r.first) % r.step = 0 with
    | some r => [Char.ofNat (c.toNat + r.distance).toNat]
    | none => [c]

/-- Whether the nearest character that is not passed over is a cased letter. -/
def nextIsCased (cs : List Char) : Bool :=
  match cs.dropWhile isCaseIgnorable with
  | c :: _ => isCased c
  | [] => false

/-- Lower case of `cs` after the characters `before`, which are given nearest first. -/
def lowerAfter : (before cs : List Char) → List Char
  | _, [] => []
  | before, c :: rest =>
    (if c = 'Σ' then
      if nextIsCased before && !nextIsCased rest then ['ς'] else ['σ']
    else lowerChar c) ++ lowerAfter (c :: before) rest

/-- Lower case of a text. -/
def lowercase (cs : List Char) : List Char :=
  lowerAfter [] cs

end Spellwork.Text
