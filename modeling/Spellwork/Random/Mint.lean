import Spellwork.Random.Stream

/-!
# Fresh ids

Ids of effects, and a mint of fresh ones: sixteen letters and digits drawn from a random stream, so
that the same context always mints the same ids.
-/

namespace Spellwork

/-- The name of an effect within its tree. -/
abbrev NodeId := String

namespace Random

/-- The letters of a minted id. -/
def idAlphabet : List Char :=
  "ABCDEFGHIJKLMNOPQRSTUVWXYZabcdefghijklmnopqrstuvwxyz0123456789".toList

/-- The number of letters of a minted id. -/
def idLength : Nat := 16

/-- A source of fresh ids. -/
structure Mint where
  stream : Stream
deriving DecidableEq

namespace Mint

/-- The mint of a seed. -/
def ofSeed (seed : UInt64) : Mint :=
  ⟨Stream.ofSeed seed⟩

/-- The mint of a context, named by any text. -/
def ofContext (context : String) : Mint :=
  ⟨Stream.ofLabel context⟩

/-- One letter, each one equally likely. -/
def letter (s : Stream) : Char × Stream :=
  let (w, t) := s.draw Stream.wideWord (fun w => w * 62 ≤ 0xf7ffffffffffffff) Stream.maxRefusals
  (idAlphabet.getD (w.toNat * 62 / UInt64.size) 'A', t)

/-- Letters one after the other. -/
def letters : (n : Nat) → Stream → List Char × Stream
  | 0, s => ([], s)
  | n + 1, s =>
    let (c, s) := letter s
    let (cs, s) := letters n s
    (c :: cs, s)

/-- Mints an id. -/
def next (m : Mint) : NodeId × Mint :=
  let (cs, s) := letters idLength m.stream
  (String.ofList cs, ⟨s⟩)

/-- The first id that is minted. -/
def first (m : Mint) : NodeId :=
  m.next.1

/-- Mints ids one after the other. -/
def take : (n : Nat) → Mint → List NodeId × Mint
  | 0, m => ([], m)
  | n + 1, m =>
    let (id, m) := m.next
    let (ids, m) := m.take n
    (id :: ids, m)

end Mint

end Random

end Spellwork
