import Spellwork.Json.Token

/-!
# Reading Json

Tokens become a value on a machine with a stack of open arrays and objects. The height of the stack
is the depth of nesting, which is where the limit on it is checked.
-/

namespace Spellwork.Json

/-- An open array or object that waits for a value. What it holds already is kept last one first. -/
inductive Frame where
  | array (items : List Json)
  | object (members : List (String × Json)) (name : String)

/-- What the reader expects next. -/
inductive Expect where
  /-- A value. -/
  | value (stack : List Frame)
  /-- A value, or the end of the array just opened. -/
  | firstItem (stack : List Frame)
  /-- A name, or the end of the object just opened. -/
  | firstName (stack : List Frame)
  /-- A name, after a comma. -/
  | nextName (members : List (String × Json)) (stack : List Frame)
  /-- The colon after a name. -/
  | colon (members : List (String × Json)) (name : String) (stack : List Frame)
  /-- A comma or the end of an array. -/
  | afterItem (items : List Json) (stack : List Frame)
  /-- A comma or the end of an object. -/
  | afterMember (members : List (String × Json)) (stack : List Frame)
  /-- Nothing: the value is complete. -/
  | nothing (v : Json)

namespace Expect

/-- A value is complete: it goes to the innermost open array or object. -/
def complete (v : Json) : List Frame → Expect
  | [] => nothing v
  | .array items :: stack => afterItem (v :: items) stack
  | .object members name :: stack => afterMember ((name, v) :: members) stack

/-- A value begins with this token. Opening one more array or object must stay within the limit. -/
def begin? (limit : Nat) (stack : List Frame) : Token → Option Expect
  | .null => some (complete .null stack)
  | .bool b => some (complete (.bool b) stack)
  | .integer n => some (complete (.integer n) stack)
  | .decimal s => some (complete (.decimal s) stack)
  | .string s => some (complete (.string s) stack)
  | .openArray => if stack.length < limit then some (firstItem stack) else none
  | .openObject => if stack.length < limit then some (firstName stack) else none
  | _ => none

/-- Takes one token. -/
def step? (limit : Nat) : Expect → Token → Option Expect
  | value stack, t => begin? limit stack t
  | firstItem stack, .closeArray => some (complete (.array []) stack)
  | firstItem stack, t => begin? limit (.array [] :: stack) t
  | firstName stack, .closeObject => some (complete (.object []) stack)
  | firstName stack, .string s => some (colon [] s stack)
  | nextName members stack, .string s => some (colon members s stack)
  | colon members s stack, .colon => some (value (.object members s :: stack))
  | afterItem items stack, .comma => some (value (.array items :: stack))
  | afterItem items stack, .closeArray => some (complete (.array items.reverse) stack)
  | afterMember members stack, .comma => some (nextName members stack)
  | afterMember members stack, .closeObject => some (complete (.object members.reverse) stack)
  | _, _ => none

/-- Takes tokens one after the other. -/
def run? (limit : Nat) : Expect → List Token → Option Expect
  | e, [] => some e
  | e, t :: ts =>
    match e.step? limit t with
    | some e => run? limit e ts
    | none => none

end Expect

/-- The value that tokens denote, with at most `limit` arrays and objects inside one another. -/
def ofTokens? (limit : Nat) (ts : List Token) : Option Json :=
  match Expect.run? limit (.value []) ts with
  | some (.nothing v) => some v
  | _ => none

/-- How many arrays and objects may stand inside one another in stored text. -/
def maxDepth : Nat := 127

/-- Reads a text with a given limit on nesting. -/
def readWithin? (limit : Nat) (text : String) : Option Json :=
  match Token.ofText? text.toList with
  | some ts => ofTokens? limit ts
  | none => none

/-- Reads stored text. -/
def read? (text : String) : Option Json :=
  readWithin? maxDepth text

end Spellwork.Json
