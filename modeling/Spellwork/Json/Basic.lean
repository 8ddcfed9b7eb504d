/-!
# Json values

Values of the storage format. Integers of the 64-bit ranges are told apart from all other numbers,
because no record ever accepts the others: `1.0` is not an integer.
-/

namespace Spellwork

/-- A Json value. Members stand in the order of the text, repeated names included. -/
inductive Json where
  | null
  | bool (b : Bool)
  /-- A number written without fraction or exponent, from `-2^63` to `2^64 - 1`. -/
  | integer (n : Int)
  /-- Any other number, by its text. -/
  | decimal (text : String)
  | string (s : String)
  | array (items : List Json)
  | object (members : List (String × Json))
deriving Repr, BEq, Inhabited

namespace Json

mutual

/-- How many arrays and objects stand inside one another. -/
def depth : Json → Nat
  | .array items => depthOfItems items + 1
  | .object members => depthOfMembers members + 1
  | _ => 0

/-- The greatest depth among items. -/
def depthOfItems : List Json → Nat
  | [] => 0
  | v :: rest => max v.depth (depthOfItems rest)

/-- The greatest depth among members. -/
def depthOfMembers : List (String × Json) → Nat
  | [] => 0
  | (_, v) :: rest => max v.depth (depthOfMembers rest)

end

end Json

end Spellwork
