import Mathlib.Data.Nat.Digits.Defs
import Mathlib.Data.Nat.ModEq
import Spellwork.Random.Seed

/-!
# Seeds told apart

When two labels, or two bases, have different seeds. A step of the hash rotates, takes an exclusive
or and multiplies, and with an odd multiplier each of the three can be undone: a step loses neither
the hash nor the word (`Lossless`). So a difference that comes in at one step is carried through all
the steps behind it, whatever their words are. It comes in with the base, with the word of the one
piece in which two labels differ, or with the length at the end, and `labelSeedBy_ne` says so for
labels of any length. Differences that come in at more than one step may cancel out.
-/

namespace Spellwork.Random

/-! ## Steps that lose nothing -/

/-- A step from which the hash can be told if the word is known, and the word if the hash is. -/
structure Lossless (step : UInt64 → UInt64 → UInt64) : Prop where
  hash : ∀ word, Function.Injective fun hash => step hash word
  word : ∀ hash, Function.Injective (step hash)

/-- The step of the hash, with any multiplier. -/
def mixBy (multiplier hash word : UInt64) : UInt64 :=
  (rotateLeft64 hash 5 ^^^ word) * multiplier

theorem top_bits_lt (x : UInt64) : x.toNat / 2 ^ 59 < 2 ^ 5 :=
  Nat.div_lt_of_lt_mul x.toNat_lt

/-- The top five bits become the lowest ones. -/
theorem toNat_rotateLeft64_five (x : UInt64) :
    (rotateLeft64 x 5).toNat = 2 ^ 5 * (x.toNat % 2 ^ 59) + x.toNat / 2 ^ 59 := by
  have hleft : (x <<< 5).toNat = (x.toNat % 2 ^ 59) <<< 5 := by
    rw [UInt64.toNat_shiftLeft]
    show (x.toNat <<< 5) % (2 ^ 59 * 2 ^ 5) = _
    rw [Nat.shiftLeft_eq, Nat.shiftLeft_eq, Nat.mul_mod_mul_right]
  have hright : (x >>> (64 - 5)).toNat = x.toNat / 2 ^ 59 := by
    rw [UInt64.toNat_shiftRight]
    exact Nat.shiftRight_eq_div_pow ..
  rw [rotateLeft64, UInt64.toNat_or, hleft, hright, ← Nat.shiftLeft_add_eq_or_of_lt (top_bits_lt x),
    Nat.shiftLeft_eq, Nat.mul_comm]

theorem rotateLeft64_injective : Function.Injective fun x => rotateLeft64 x 5 := by
  intro x y h
  have hnat : (rotateLeft64 x 5).toNat = (rotateLeft64 y 5).toNat := congrArg UInt64.toNat h
  rw [toNat_rotateLeft64_five, toNat_rotateLeft64_five] at hnat
  have hx := top_bits_lt x
  have hy := top_bits_lt y
  have htop : x.toNat / 2 ^ 59 = y.toNat / 2 ^ 59 := by
    have hmod := congrArg (· % 2 ^ 5) hnat
    rwa [Nat.mul_add_mod, Nat.mul_add_mod, Nat.mod_eq_of_lt hx, Nat.mod_eq_of_lt hy] at hmod
  have hlow : x.toNat % 2 ^ 59 = y.toNat % 2 ^ 59 := by
    rw [htop] at hnat
    exact Nat.eq_of_mul_eq_mul_left (by decide) (Nat.add_right_cancel hnat)
  rw [← UInt64.toNat_inj, ← Nat.div_add_mod x.toNat (2 ^ 59), htop, hlow, Nat.div_add_mod]

/-- An odd number has nothing in common with the modulus. -/
theorem mul_injective_of_odd {multiplier : UInt64} (hodd : multiplier.toNat % 2 = 1) :
    Function.Injective fun x : UInt64 => x * multiplier := by
  intro x y h
  have hgcd : Nat.gcd (2 ^ 64) multiplier.toNat = 1 := by
    refine Nat.Coprime.pow_left 64 ?_
    show Nat.gcd 2 multiplier.toNat = 1
    rw [Nat.gcd_rec, hodd]
    rfl
  have hnat := congrArg UInt64.toNat h
  dsimp only at hnat
  rw [UInt64.toNat_mul, UInt64.toNat_mul] at hnat
  have hmod : x.toNat ≡ y.toNat [MOD 2 ^ 64] := Nat.ModEq.cancel_right_of_coprime hgcd hnat
  exact UInt64.toNat_inj.mp (hmod.eq_of_lt_of_lt x.toNat_lt y.toNat_lt)

theorem lossless_mixBy {multiplier : UInt64} (hodd : multiplier.toNat % 2 = 1) :
    Lossless (mixBy multiplier) where
  hash := by
    intro word hash hash' h
    have hxor := mul_injective_of_odd hodd h
    exact rotateLeft64_injective ((UInt64.xor_left_inj word).mp hxor)
  word := by
    intro hash word word' h
    have hxor := mul_injective_of_odd hodd h
    exact (UInt64.xor_right_inj _).mp hxor

/-! ## Runs of steps -/

/-- Two lists that differ in one place. -/
def DifferOnce (as bs : List α) : Prop :=
  ∃ i : Nat, as[i]? ≠ bs[i]? ∧ ∀ j, j ≠ i → as[j]? = bs[j]?

section Runs

variable {step : UInt64 → UInt64 → UInt64}

theorem Lossless.foldl_injective (hs : Lossless step) (words : List UInt64) :
    Function.Injective fun hash => words.foldl step hash := by
  induction words with
  | nil => exact fun _ _ h => h
  | cons word words ih => exact fun _ _ h => hs.hash word (ih h)

/-- A difference in one word is carried to the end. -/
theorem Lossless.foldl_ne (hs : Lossless step) {words words' : List UInt64}
    (hlen : words.length = words'.length) (h : DifferOnce words words') (hash : UInt64) :
    words.foldl step hash ≠ words'.foldl step hash := by
  obtain ⟨i, hi, hrest⟩ := h
  induction words generalizing words' i hash with
  | nil =>
      rw [List.eq_nil_of_length_eq_zero hlen.symm] at hi
      exact absurd rfl hi
  | cons word words ih =>
      obtain ⟨word', words', rfl⟩ := List.exists_cons_of_length_eq_add_one hlen.symm
      cases i with
      | zero =>
          have hsame : words = words' := List.ext_getElem? fun j => hrest (j + 1) (by simp)
          have hne : word ≠ word' := fun heq => hi (by rw [heq]; rfl)
          subst hsame
          exact fun heq => hne (hs.word hash (hs.foldl_injective words heq))
      | succ i =>
          have hword : word = word' := Option.some.inj (hrest 0 (by simp))
          subst hword
          exact ih (Nat.succ.inj hlen) (step hash word) i hi fun j hj =>
            hrest (j + 1) fun heq => hj (Nat.succ.inj heq)

end Runs

/-! ## Pieces of eight bytes -/

/-- The pieces of eight bytes that a byte string is cut into; the last one may be shorter. -/
def chunks (bytes : List UInt8) : List (List UInt8) :=
  (List.range ((bytes.length + 7) / 8)).map fun i => (bytes.drop (8 * i)).take 8

/-- A piece filled up with zero bytes. -/
def padded (chunk : List UInt8) : List UInt8 :=
  chunk ++ List.replicate (8 - chunk.length) 0

theorem chunks_append {chunk : List UInt8} (h : chunk.length = 8) (rest : List UInt8) :
    chunks (chunk ++ rest) = chunk :: chunks rest := by
  have hcount : ((chunk ++ rest).length + 7) / 8 = (rest.length + 7) / 8 + 1 := by
    rw [List.length_append]
    omega
  rw [chunks, hcount, List.range_succ_eq_map, List.map_cons, List.map_map]
  congr 1
  · rw [Nat.mul_zero, List.drop_zero, ← h, List.take_left]
  · refine List.map_congr_left fun i _ => ?_
    have hdrop : 8 * (i + 1) = chunk.length + 8 * i := by omega
    show ((chunk ++ rest).drop (8 * (i + 1))).take 8 = _
    rw [hdrop, List.drop_length_add_append]

theorem chunks_short {bytes : List UInt8} (hpos : 0 < bytes.length) (h : bytes.length < 8) :
    chunks bytes = [bytes] := by
  have hcount : (bytes.length + 7) / 8 = 1 := by omega
  rw [chunks, hcount]
  show [(bytes.drop 0).take 8] = [bytes]
  rw [List.drop_zero, List.take_of_length_le (Nat.le_of_lt h)]

/-- The hash takes in the pieces one after the other. -/
theorem wordsOfBytes_eq (bytes : List UInt8) :
    wordsOfBytes bytes = (chunks bytes).map wordOfBytes := by
  fun_induction wordsOfBytes bytes with
  | case1 => rfl
  | case2 a b c d e f g h rest ih =>
      have hcons : a :: b :: c :: d :: e :: f :: g :: h :: rest =
          [a, b, c, d, e, f, g, h] ++ rest := rfl
      rw [hcons, chunks_append rfl, List.map_cons, ih]
  | case3 bytes hnil hlong =>
      have hshort : bytes.length < 8 := by
        by_contra hge
        have hlen : (bytes.take 8).length = 8 := List.length_take_of_le (Nat.le_of_not_lt hge)
        have hsplit := (List.take_append_drop 8 bytes).symm
        match bytes.take 8, hlen, hsplit with
        | [a, b, c, d, e, f, g, h], _, hsplit => exact hlong a b c d e f g h _ hsplit
      rw [chunks_short (List.length_pos_iff.mpr hnil) hshort]
      rfl

/-! ## Words of pieces -/

theorem wordOfBytes_cons (b : UInt8) (bytes : List UInt8) :
    wordOfBytes (b :: bytes) = wordOfBytes bytes * 256 + b.toUInt64 :=
  rfl

theorem lt_of_mem_map_toNat {bytes : List UInt8} : ∀ n ∈ bytes.map UInt8.toNat, n < 256 := by
  intro n hn
  obtain ⟨b, -, rfl⟩ := List.mem_map.mp hn
  exact b.toNat_lt

/-- Up to eight bytes are the digits of their word. -/
theorem toNat_wordOfBytes {bytes : List UInt8} (h : bytes.length ≤ 8) :
    (wordOfBytes bytes).toNat = Nat.ofDigits 256 (bytes.map UInt8.toNat) := by
  induction bytes with
  | nil => rfl
  | cons b bytes ih =>
      have hlen : bytes.length ≤ 7 := Nat.le_of_succ_le_succ h
      have hrest : Nat.ofDigits 256 (bytes.map UInt8.toNat) < 256 ^ 7 := by
        refine Nat.lt_of_lt_of_le
          (Nat.ofDigits_lt_base_pow_length (by decide) lt_of_mem_map_toNat) ?_
        rw [List.length_map]
        exact Nat.pow_le_pow_right (by decide) hlen
      have hb : b.toNat < 256 := b.toNat_lt
      rw [wordOfBytes_cons, UInt64.toNat_add, UInt64.toNat_mul, ih (Nat.le_succ_of_le hlen),
        UInt8.toNat_toUInt64, List.map_cons, Nat.ofDigits_cons]
      show (_ * 256 % 2 ^ 64 + b.toNat) % 2 ^ 64 = b.toNat + 256 * _
      omega

/-- Pieces of one length are told by their words. -/
theorem wordOfBytes_inj {chunk chunk' : List UInt8} (hlen : chunk.length = chunk'.length)
    (h : chunk.length ≤ 8) (heq : wordOfBytes chunk = wordOfBytes chunk') : chunk = chunk' := by
  have hdigits := congrArg UInt64.toNat heq
  rw [toNat_wordOfBytes h, toNat_wordOfBytes (hlen ▸ h)] at hdigits
  have hmap := Nat.ofDigits_inj_of_len_eq (by decide) (by simpa using hlen) lt_of_mem_map_toNat
    lt_of_mem_map_toNat hdigits
  exact (List.map_inj_right fun _ _ => UInt8.toNat_inj.mp).mp hmap

theorem wordOfBytes_replicate_zero (n : Nat) : wordOfBytes (List.replicate n 0) = 0 := by
  induction n with
  | zero => rfl
  | succ n ih =>
      rw [List.replicate_succ, wordOfBytes_cons, ih]
      rfl

/-- Padding is not seen in the word of a piece. -/
theorem wordOfBytes_padded (chunk : List UInt8) :
    wordOfBytes (padded chunk) = wordOfBytes chunk := by
  rw [padded, wordOfBytes, List.foldr_append]
  exact congrArg (fun word => chunk.foldr _ word) (wordOfBytes_replicate_zero _)

theorem length_wordsOfBytes (bytes : List UInt8) :
    (wordsOfBytes bytes).length = (bytes.length + 7) / 8 := by
  rw [wordsOfBytes_eq, List.length_map, chunks, List.length_map, List.length_range]

theorem length_of_getElem?_chunks {bytes chunk : List UInt8} {i : Nat}
    (h : (chunks bytes)[i]? = some chunk) : chunk.length = min 8 (bytes.length - 8 * i) := by
  rw [chunks, List.getElem?_map] at h
  obtain ⟨k, hk, rfl⟩ := Option.map_eq_some_iff.mp h
  obtain ⟨hi, rfl⟩ := List.getElem?_eq_some_iff.mp hk
  rw [List.getElem_range, List.length_take, List.length_drop]

theorem DifferOnce.wordsOfBytes {bytes bytes' : List UInt8} (hlen : bytes.length = bytes'.length)
    (h : DifferOnce (chunks bytes) (chunks bytes')) :
    DifferOnce (wordsOfBytes bytes) (wordsOfBytes bytes') := by
  obtain ⟨i, hi, hrest⟩ := h
  simp only [DifferOnce, wordsOfBytes_eq, List.getElem?_map]
  refine ⟨i, fun heq => hi ?_, fun j hj => by rw [hrest j hj]⟩
  cases hc : (chunks bytes)[i]? with
  | none =>
      rw [hc] at heq
      exact (Option.map_eq_none_iff.mp heq.symm).symm
  | some chunk =>
      rw [hc] at heq
      obtain ⟨chunk', hc', hword⟩ := Option.map_eq_some_iff.mp heq.symm
      have hlen' := (length_of_getElem?_chunks hc').symm
      rw [← hlen, ← length_of_getElem?_chunks hc] at hlen'
      have hle : chunk.length ≤ 8 := length_of_getElem?_chunks hc ▸ Nat.min_le_left ..
      rw [hc', wordOfBytes_inj hlen' hle hword.symm]

/-! ## Seeds -/

/-- The seed of a byte string, with any step. -/
def seedBy (step : UInt64 → UInt64 → UInt64) (base : UInt64) (bytes : List UInt8) : UInt64 :=
  step ((wordsOfBytes bytes).foldl step (step 0 base)) (UInt64.ofNat bytes.length)

section Seeds

variable {step : UInt64 → UInt64 → UInt64}

theorem Lossless.seedBy_injective (hs : Lossless step) (bytes : List UInt8) :
    Function.Injective fun base => seedBy step base bytes := by
  intro base base' h
  have hwords := hs.hash _ h
  exact hs.word 0 (hs.foldl_injective _ hwords)

theorem Lossless.seedBy_ne_of_differOnce (hs : Lossless step) (base : UInt64)
    {bytes bytes' : List UInt8} (hlen : bytes.length = bytes'.length)
    (h : DifferOnce (chunks bytes) (chunks bytes')) :
    seedBy step base bytes ≠ seedBy step base bytes' := by
  have hcount : (wordsOfBytes bytes).length = (wordsOfBytes bytes').length := by
    rw [length_wordsOfBytes, length_wordsOfBytes, hlen]
  intro heq
  rw [seedBy, seedBy, hlen] at heq
  exact hs.foldl_ne hcount (h.wordsOfBytes hlen) _ (hs.hash _ heq)

/-- Lengths that need the same number of words are told apart by the last step. -/
theorem Lossless.seedBy_ne_of_padded (hs : Lossless step) (base : UInt64)
    {bytes bytes' : List UInt8} (hsame : (chunks bytes).map padded = (chunks bytes').map padded)
    (hlen : bytes.length ≠ bytes'.length) : seedBy step base bytes ≠ seedBy step base bytes' := by
  have hpadded (bs : List UInt8) : wordsOfBytes bs = ((chunks bs).map padded).map wordOfBytes := by
    rw [wordsOfBytes_eq, List.map_map]
    exact List.map_congr_left fun chunk _ => (wordOfBytes_padded chunk).symm
  have hwords : wordsOfBytes bytes = wordsOfBytes bytes' := by
    rw [hpadded, hsame, ← hpadded]
  have hcount := congrArg List.length hwords
  rw [length_wordsOfBytes, length_wordsOfBytes] at hcount
  intro heq
  rw [seedBy, seedBy, hwords] at heq
  have hmod := congrArg UInt64.toNat (hs.word _ heq)
  rw [UInt64.toNat_ofNat', UInt64.toNat_ofNat'] at hmod
  omega

end Seeds

/-- The bytes of a label. -/
def labelBytes (label : String) : List UInt8 :=
  label.toUTF8.data.toList

/-- The seed of a label over a base seed, with any multiplier. -/
def labelSeedBy (multiplier base : UInt64) (label : String) : UInt64 :=
  seedBy (mixBy multiplier) base (labelBytes label)

/-- With an odd multiplier, two bases have different seeds whatever the label is. Over every base
two labels have different seeds if they are of one length in bytes and differ in one piece of eight,
and if they are of different lengths and have the same pieces once these are filled up with zero
bytes. The hash in use multiplies by one odd number. -/
theorem labelSeedBy_ne {multiplier : UInt64} (hodd : multiplier.toNat % 2 = 1) :
    (∀ label : String, Function.Injective fun base => labelSeedBy multiplier base label) ∧
      (∀ (base : UInt64) (label label' : String),
        (labelBytes label).length = (labelBytes label').length →
        DifferOnce (chunks (labelBytes label)) (chunks (labelBytes label')) →
        labelSeedBy multiplier base label ≠ labelSeedBy multiplier base label') ∧
      (∀ (base : UInt64) (label label' : String),
        (chunks (labelBytes label)).map padded = (chunks (labelBytes label')).map padded →
        (labelBytes label).length ≠ (labelBytes label').length →
        labelSeedBy multiplier base label ≠ labelSeedBy multiplier base label') ∧
      labelSeed = labelSeedBy 0x517cc1b727220a95 := by
  have hs := lossless_mixBy hodd
  refine ⟨fun label => hs.seedBy_injective _, fun base label label' hlen honce => ?_,
    fun base label label' hsame hlen => ?_, rfl⟩
  · exact hs.seedBy_ne_of_differOnce base hlen honce
  · exact hs.seedBy_ne_of_padded base hsame hlen

/-- The second piece of two labels, and a zero byte behind a label. -/
theorem labelSeedBy_ne_fireball :
    (0x517cc1b727220a95 : UInt64).toNat % 2 = 1 ∧ labelSeed 1 "fireball" ≠ labelSeed 2 "fireball" ∧
      labelSeed 7 "fireball/1" ≠ labelSeed 7 "fireball/2" ∧
      labelSeed 7 "fire" ≠ labelSeed 7 "fire\x00" := by
  have hodd : (0x517cc1b727220a95 : UInt64).toNat % 2 = 1 := by decide
  obtain ⟨hbase, honce, hpadded, heq⟩ := labelSeedBy_ne hodd
  have hone : chunks (labelBytes "fireball/1") = [labelBytes "fireball", labelBytes "/1"] := by
    decide
  have htwo : chunks (labelBytes "fireball/2") = [labelBytes "fireball", labelBytes "/2"] := by
    decide
  rw [heq]
  refine ⟨hodd, fun h => absurd (hbase _ h) (by decide),
    honce 7 _ _ (by decide) ⟨1, ?_, fun j hj => ?_⟩,
    hpadded 7 _ _ (by decide) (by decide)⟩
  · rw [hone, htwo]
    decide
  · rw [hone, htwo]
    match j with
    | 0 => rfl
    | 1 => exact absurd rfl hj
    | j + 2 => rfl

end Spellwork.Random
