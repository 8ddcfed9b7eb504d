import Spellwork.Effect.Wire
import Spellwork.Text.Words

/-!
# Shorthand

An effect written in one line: `@`, an opening brace, fields as keys and values separated by
semicolons, and a closing brace. Values are told apart by their looks: null, truth values, integers,
decimals, and text for everything else.
-/

namespace Spellwork

/-- A value of shorthand. -/
inductive Scalar where
  | null
  | bool (b : Bool)
  | integer (n : Int64)
  | double (x : Double)
  | text (s : String)
deriving DecidableEq, Repr

namespace Scalar

/-- The value that a trimmed text looks like. -/
def ofText (cs : List Char) : Scalar :=
  if cs = "null".toList then null
  else if cs = "true".toList then bool true
  else if cs = "false".toList then bool false
  else
    match Text.int64? cs with
    | some n => integer n
    | none =>
      match Double.ofText? cs with
      | some x => double x
      | none => text (String.ofList cs)

/-- The value as Json. -/
def toJson : Scalar → Json
  | null => .null
  | bool b => .bool b
  | integer n => Json.ofInt64 n
  | double x => .decimal (String.ofList x.text)
  | text s => .string s

end Scalar

namespace Shorthand

/-- The text inside the wrapper, if the trimmed text is wrapped. -/
def inner? (cs : List Char) : Option (List Char) :=
  match Text.trim cs with
  | '@' :: first :: rest =>
    match rest.reverse with
    | last :: inner =>
      if first = Text.openBrace ∧ last = Text.closeBrace then some inner.reverse else none
    | [] => none
  | _ => none

/-- The key and the value of one segment. A segment without an equals sign or with a blank key is
passed over. -/
def field? (segment : List Char) : Option (String × Scalar) :=
  match Text.cutAt '=' segment with
  | some (key, value) =>
    let key := Text.trim key
    if key.isEmpty then none else some (String.ofList key, Scalar.ofText (Text.trim value))
  | none => none

/-- The fields of a shorthand, each key once with its last value. -/
def fields? (text : String) : Option (List (String × Scalar)) :=
  (inner? text.toList).map fun inner =>
    Json.lastPairs ((Text.splitOn ';' inner).filterMap field?)

/-- The value of a field as Json. An id that looks like a number is still an id. -/
def member : String × Scalar → String × Json
  | ("id", .integer n) => ("id", .string (String.ofList (Text.intText n.toInt)))
  | ("id", .double x) => ("id", .string (String.ofList x.text))
  | (key, value) => (key, value.toJson)

/-- The effect that a shorthand stands for, with its id if it has one. It cannot own other effects,
so a field for them is one of the wrong type. -/
def effect? (text : String) : Option (Option NodeId × Effect) :=
  match fields? text with
  | none => none
  | some fields =>
    let ms : Json.Members := fields.map member
    if ms.any fun m => m.1 = "sharedRolls" || m.1 = "on" then none
    else do
      let id ← ms.optional? "id" Json.string?
      let effect ← Effect.ofMembers? ms
      return (id, effect)

/-- Writes fields in shorthand. -/
def render (fields : List (List Char × List Char)) : List Char :=
  '@' :: Text.openBrace ::
    (Text.join [';', ' '] (fields.map fun (key, value) => key ++ '=' :: value) ++ [Text.closeBrace])

end Shorthand

end Spellwork
