/-!
# Seeds from labels

A label and a base seed give a seed: the base, the bytes of the label as little-endian words and
the number of bytes are mixed into a 64-bit hash one after the other.
-/

namespace Spellwork.Random

/-- Rotates a word to the left, for `0 < n < 64`. -/
def rotateLeft64 (x n : UInt64) : UInt64 :=
  (x <<< n) ||| (x >>> (64 - n))

/-- Mixes one word into the hash. -/
def mix (hash word : UInt64) : UInt64 :=
  (rotateLeft64 hash 5 ^^^ word) * 0x517cc1b727220a95

/-- The word that bytes denote, lowest byte first. -/
def wordOfBytes (bytes : List UInt8) : UInt64 :=
  bytes.foldr (fun b w => w * 256 + b.toUInt64) 0

/-- The words of a byte string, eight bytes to a word; the last word may have fewer. -/
def wordsOfBytes : List UInt8 → List UInt64
  | [] => []
  | a :: b :: c :: d :: e :: f :: g :: h :: rest =>
    wordOfBytes [a, b, c, d, e, f, g, h] :: wordsOfBytes rest
  | bytes => [wordOfBytes bytes]

/-- The seed of a byte string. The length at the end tells padding from zero bytes. -/
def seedOfBytes (base : UInt64) (bytes : List UInt8) : UInt64 :=
  mix ((wordsOfBytes bytes).foldl mix (mix 0 base)) (UInt64.ofNat bytes.length)

/-- The seed of a label over a base seed. -/
def labelSeed (base : UInt64) (label : String) : UInt64 :=
  seedOfBytes base label.toUTF8.data.toList

end Spellwork.Random
