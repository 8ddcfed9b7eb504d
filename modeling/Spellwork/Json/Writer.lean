import Spellwork.Json.Basic
import Spellwork.Text.Class
import Spellwork.Text.Numeral

/-!
# Writing Json

The compact text of a value: no blanks, members in the order given. Every function writes before a
text that follows, which keeps the work linear in the length of the result.
-/

namespace Spellwork.Json

/-- A hexadecimal digit. -/
def hexDigit (n : Nat) : Char :=
  Nat.digitChar (n % 16)

/-- One character of a string, escaped where it has to be. -/
def escape (c : Char) (tail : List Char) : List Char :=
  if c = '"' then '\\' :: '"' :: tail
  else if c = '\\' then '\\' :: '\\' :: tail
  else if c = '\n' then '\\' :: 'n' :: tail
  else if c = '\r' then '\\' :: 'r' :: tail
  else if c = '\t' then '\\' :: 't' :: tail
  else if c = '\x08' then '\\' :: 'b' :: tail
  else if c = '\x0c' then '\\' :: 'f' :: tail
  else if c.toNat < 0x20 then
    '\\' :: 'u' :: '0' :: '0' :: hexDigit (c.toNat / 16) :: hexDigit c.toNat :: tail
  else c :: tail

/-- A string in quotes. -/
def writeString (s : String) (tail : List Char) : List Char :=
  '"' :: s.toList.foldr escape ('"' :: tail)

mutual

/-- A value. -/
def write : Json → (tail : List Char) → List Char
  | .null, tail => 'n' :: 'u' :: 'l' :: 'l' :: tail
  | .bool true, tail => 't' :: 'r' :: 'u' :: 'e' :: tail
  | .bool false, tail => 'f' :: 'a' :: 'l' :: 's' :: 'e' :: tail
  | .integer n, tail => Text.intText n ++ tail
  | .decimal s, tail => s.toList ++ tail
  | .string s, tail => writeString s tail
  | .array items, tail => '[' :: writeItems items (']' :: tail)
  | .object members, tail => Text.openBrace :: writeMembers members (Text.closeBrace :: tail)

/-- Items with commas between them. -/
def writeItems : List Json → (tail : List Char) → List Char
  | [], tail => tail
  | [v], tail => v.write tail
  | v :: rest, tail => v.write (',' :: writeItems rest tail)

/-- Members with commas between them. -/
def writeMembers : List (String × Json) → (tail : List Char) → List Char
  | [], tail => tail
  | [(name, v)], tail => writeString name (':' :: v.write tail)
  | (name, v) :: rest, tail => writeString name (':' :: v.write (',' :: writeMembers rest tail))

end

/-- The text of a value. -/
def toText (v : Json) : String :=
  String.ofList (v.write [])

end Spellwork.Json
