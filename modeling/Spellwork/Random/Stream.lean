import Spellwork.Random.Seed

/-!
# Random words

A deterministic stream of 32-bit words: the ChaCha keystream of eight rounds, with a zero nonce and
a key expanded from a 64-bit seed. Faces of a die are drawn from it without bias.
-/

namespace Spellwork.Random

/-- Rotates a word to the left, for `0 < n < 32`. -/
def rotateLeft32 (x n : UInt32) : UInt32 :=
  (x <<< n) ||| (x >>> (32 - n))

/-- The sixteen words of a block. -/
abbrev Block := Vector UInt32 16

/-- One quarter round on the words at four places. -/
def quarterRound (a b c d : Fin 16) (v : Block) : Block :=
  let v := v.set a (v[a] + v[b])
  let v := v.set d (rotateLeft32 (v[d] ^^^ v[a]) 16)
  let v := v.set c (v[c] + v[d])
  let v := v.set b (rotateLeft32 (v[b] ^^^ v[c]) 12)
  let v := v.set a (v[a] + v[b])
  let v := v.set d (rotateLeft32 (v[d] ^^^ v[a]) 8)
  let v := v.set c (v[c] + v[d])
  v.set b (rotateLeft32 (v[b] ^^^ v[c]) 7)

/-- A round on the four columns and a round on the four diagonals. -/
def doubleRound (v : Block) : Block :=
  let v := quarterRound 0 4 8 12 v
  let v := quarterRound 1 5 9 13 v
  let v := quarterRound 2 6 10 14 v
  let v := quarterRound 3 7 11 15 v
  let v := quarterRound 0 5 10 15 v
  let v := quarterRound 1 6 11 12 v
  let v := quarterRound 2 7 8 13 v
  quarterRound 3 4 9 14 v

/-- Key words drawn from a linear congruence, each one scrambled before it is used. -/
def expandKey (seed : UInt64) : (n : Nat) → Vector UInt32 n
  | 0 => #v[]
  | n + 1 =>
    let state := seed * 6364136223846793005 + 11634580027462260723
    let scrambled := (((state >>> 18) ^^^ state) >>> 27).toUInt32
    let turn := (state >>> 59).toUInt32
    let word := (scrambled >>> turn) ||| (scrambled <<< ((32 - turn) % 32))
    (#v[word] ++ expandKey state n).cast (Nat.add_comm 1 n)

/-- The keystream block of a key at a place. -/
def keystreamBlock (key : Vector UInt32 8) (index : UInt64) : Block :=
  let input : Block :=
    #v[0x61707865, 0x3320646e, 0x79622d32, 0x6b206574,
      key[0], key[1], key[2], key[3], key[4], key[5], key[6], key[7],
      index.toUInt32, (index >>> 32).toUInt32, 0, 0]
  let output := doubleRound (doubleRound (doubleRound (doubleRound input)))
  output.zipWith (· + ·) input

/-- A stream of words: the key, the next block, and the words of the current block not yet drawn. -/
structure Stream where
  key : Vector UInt32 8
  nextBlock : UInt64
  ready : List UInt32
deriving DecidableEq

namespace Stream

/-- The stream of a seed. -/
def ofSeed (seed : UInt64) : Stream :=
  ⟨expandKey seed 8, 0, []⟩

/-- The stream of a label. -/
def ofLabel (label : String) : Stream :=
  ofSeed (labelSeed 0 label)

/-- Draws one word. -/
def word (s : Stream) : UInt32 × Stream :=
  match s.ready with
  | w :: rest => (w, { s with ready := rest })
  | [] =>
    let block := keystreamBlock s.key s.nextBlock
    (block[0], { s with nextBlock := s.nextBlock + 1, ready := block.toList.tail })

/-- Draws two words as one of 64 bits, the low half first. -/
def wideWord (s : Stream) : UInt64 × Stream :=
  let (low, s) := s.word
  let (high, s) := s.word
  (low.toUInt64 + (high.toUInt64 <<< 32), s)

/-- How many words may be refused in a row. At least half of all words are accepted, so a stream
that runs into this bound is not to be met with. -/
def maxRefusals : Nat := 1024

/-- Draws words until `accepts`, and gives the last one drawn. -/
def draw (next : Stream → α × Stream) (accepts : α → Bool) : (refusals : Nat) → Stream → α × Stream
  | 0, s => next s
  | refusals + 1, s =>
    let (a, t) := next s
    if accepts a then (a, t) else draw next accepts refusals t

/-- A face of a die, each one equally likely: words beyond the largest multiple of `faces` are
refused. A die without faces shows 0 and draws nothing. -/
def face (faces : UInt32) (s : Stream) : UInt32 × Stream :=
  if faces = 0 then (0, s)
  else
    let zone := (faces <<< (31 - faces.log2)) - 1
    let (w, t) := draw word (fun w => w * faces ≤ zone) maxRefusals s
    (((w.toUInt64 * faces.toUInt64) >>> 32).toUInt32 + 1, t)

/-- A word scaled down to a number below `faces`. -/
theorem toNat_scaled (w faces : UInt32) :
    ((w.toUInt64 * faces.toUInt64) >>> 32).toNat = w.toNat * faces.toNat / 4294967296 := by
  have hprod : w.toNat * faces.toNat < 4294967296 * 4294967296 :=
    Nat.mul_lt_mul'' w.toNat_lt faces.toNat_lt
  rw [UInt64.toNat_shiftRight, UInt64.toNat_mul, UInt32.toNat_toUInt64, UInt32.toNat_toUInt64,
    Nat.mod_eq_of_lt hprod]
  exact Nat.shiftRight_eq_div_pow ..

/-- A face of a die that has faces is one of them. -/
theorem face_bounds {faces : UInt32} (h : 1 ≤ faces) (s : Stream) :
    1 ≤ (face faces s).1 ∧ (face faces s).1 ≤ faces := by
  have hpos : 0 < faces.toNat := UInt32.le_iff_toNat_le.mp h
  have hne : faces ≠ 0 := fun h0 => by rw [h0] at hpos; exact Nat.lt_irrefl 0 hpos
  have hlt := faces.toNat_lt
  unfold face
  rw [if_neg hne]
  simp only
  generalize (draw word _ maxRefusals s).1 = w
  have hw : w.toNat * faces.toNat / 4294967296 < faces.toNat := by
    rw [Nat.div_lt_iff_lt_mul (by decide), Nat.mul_comm faces.toNat]
    exact Nat.mul_lt_mul_of_pos_right w.toNat_lt hpos
  have hto : (((w.toUInt64 * faces.toUInt64) >>> 32).toUInt32 + 1).toNat =
      w.toNat * faces.toNat / 4294967296 + 1 := by
    rw [UInt32.toNat_add, UInt64.toNat_toUInt32, toNat_scaled]
    show (_ % 4294967296 + 1) % 4294967296 = _
    rw [Nat.mod_eq_of_lt (by omega), Nat.mod_eq_of_lt (by omega)]
  rw [UInt32.le_iff_toNat_le, UInt32.le_iff_toNat_le, hto]
  exact ⟨Nat.le_add_left 1 _, hw⟩

end Stream

end Spellwork.Random
