import Spellwork.Proofs.EffectWire
import Spellwork.Proofs.OutlineText

/-!
# Names of outcomes

Which texts name an outcome. Six names are fixed; a graded failure is named by a stem and its
margin. One of the fixed names is what the stem begins with, so both could in principle take a text
away from the other: the stem is longer than any of the fixed names, and they are tried first
(`ofName?_eq_some_iff`). Of the ways to write a margin the one without a sign and without leading
zeros is printed, and `ofName?_exact` puts both directions together.
-/

namespace Spellwork.Outcome

/-! ## Texts that are read -/

/-- The texts that a margin may be written as: digits, and perhaps a plus sign in front of them. -/
def SpellsMargin (n : Nat) (cs : List Char) : Prop :=
  ∃ digits, (cs = digits ∨ cs = '+' :: digits) ∧ digits ≠ [] ∧ (∀ c ∈ digits, c.isDigit = true) ∧
    Nat.ofDigitChars 10 digits 0 = n

theorem uint32?_eq_some_iff_spells {cs : List Char} {m : UInt32} :
    Text.uint32? cs = some m ↔ SpellsMargin m.toNat cs := by
  rw [Text.uint32?_eq_some_iff, Text.unsigned?_eq_some_iff]
  simp only [Text.nat?_eq_some_iff]
  rfl

/-- A text is read as the outcome that it is the fixed name of, or as the graded failure whose
margin stands behind the stem. -/
theorem ofName?_eq_some_iff {s : String} {o : Outcome} :
    ofName? s = some o ↔
      (o ∈ plain ∧ o.name = s) ∨
        ∃ m cs, o = failedSaveBy m ∧ s.toList = gradedStem.toList ++ cs ∧
          SpellsMargin m.toNat cs := by
  constructor
  · intro h
    unfold ofName? at h
    split at h
    · rename_i p hfind
      cases h
      have hname := List.find?_some hfind
      exact .inl ⟨List.mem_of_find?_eq_some hfind, of_decide_eq_true hname⟩
    · split at h
      · rename_i cs hstem
        obtain ⟨m, hm, rfl⟩ := Option.map_eq_some_iff.mp h
        exact .inr ⟨m, cs, rfl, (List.isPrefixOf?_eq_some_iff_append_eq.mp hstem).symm,
          uint32?_eq_some_iff_spells.mp hm⟩
      · cases h
  · rintro (⟨ho, rfl⟩ | ⟨m, cs, rfl, hs, hm⟩)
    · exact ofName?_name o
    · unfold ofName?
      rw [find?_plain_of_stem hs, hs, Text.isPrefixOf?_append]
      dsimp only
      rw [uint32?_eq_some_iff_spells.mpr hm]
      rfl

/-- A margin has to be one of 32 bits. -/
theorem isSome_ofName?_iff {s : String} :
    (ofName? s).isSome = true ↔
      s ∈ plain.map name ∨
        ∃ n cs, n ≤ 2 ^ 32 - 1 ∧ s.toList = gradedStem.toList ++ cs ∧ SpellsMargin n cs := by
  rw [Option.isSome_iff_exists]
  simp only [ofName?_eq_some_iff, List.mem_map]
  constructor
  · rintro ⟨o, ho | ⟨m, cs, rfl, hs, hm⟩⟩
    · exact .inl ⟨o, ho⟩
    · exact .inr ⟨m.toNat, cs, Nat.le_of_lt_succ m.toNat_lt, hs, hm⟩
  · rintro (⟨o, ho⟩ | ⟨n, cs, hn, hs, hm⟩)
    · exact ⟨o, .inl ho⟩
    · have hto : (UInt32.ofNat n).toNat = n := UInt32.toNat_ofNat_of_lt' (Nat.lt_succ_of_le hn)
      exact ⟨failedSaveBy (UInt32.ofNat n), .inr ⟨_, cs, rfl, hs, by rwa [hto]⟩⟩

theorem ofName?_eq_failedSaveBy_iff {s : String} {m : UInt32} :
    ofName? s = some (failedSaveBy m) ↔
      ∃ cs, s.toList = gradedStem.toList ++ cs ∧ SpellsMargin m.toNat cs := by
  rw [ofName?_eq_some_iff]
  constructor
  · rintro (⟨hplain, -⟩ | ⟨_, cs, heq, hcs⟩)
    · simp [plain] at hplain
    · cases heq
      exact ⟨cs, hcs⟩
  · rintro ⟨cs, hcs⟩
    exact .inr ⟨m, cs, rfl, hcs⟩

/-! ## Names told apart -/

theorem name_injective : Function.Injective name := by
  intro a b h
  have hread := congrArg ofName? h
  rwa [ofName?_name, ofName?_name, Option.some.injEq] at hread

/-- What an effect is stored as tells the outcome under which it stands. -/
theorem toJson_withOutcome_injective (r : Record) :
    Function.Injective fun o : Option Outcome => ({ r with outcome := o } : Record).toJson := by
  intro o p h
  have hread := congrArg Record.ofJson? h
  dsimp only at hread
  rw [Record.undoes.encoded, Record.undoes.encoded, Option.some.injEq] at hread
  exact congrArg Record.outcome hread

theorem marginKey_injective : Function.Injective Outline.marginKey := by
  intro m n h
  have hread := congrArg Outline.margin? h
  rwa [Outline.margin?_marginKey, Outline.margin?_marginKey, Option.some.injEq] at hread

/-- Names are read back, so that no two outcomes share one and graded failures are stored apart from
each other and from all else, in records by their names and in outlines by the keys of their
margins. A text is read if and only if it is one of the six fixed names, or the stem, perhaps a plus
sign, and digits with a value of 32 bits, which then is the margin. Whatever is read is printed in
the one way that reading and printing leave alone. -/
theorem ofName?_exact :
    (∀ o : Outcome, ofName? o.name = some o) ∧ Function.Injective name ∧
      (∀ r : Record,
        Function.Injective fun o : Option Outcome => ({ r with outcome := o } : Record).toJson) ∧
      Function.Injective Outline.marginKey ∧
      (∀ s : String, (ofName? s).isSome = true ↔
        s ∈ ["sharedRolls", "hit", "miss", "criticalHit", "failedSave", "passedSave"] ∨
          ∃ n cs, n ≤ 2 ^ 32 - 1 ∧ s.toList = "failedSaveBy".toList ++ cs ∧ SpellsMargin n cs) ∧
      (∀ (s : String) (m : UInt32), ofName? s = some (failedSaveBy m) ↔
        ∃ cs, s.toList = "failedSaveBy".toList ++ cs ∧ SpellsMargin m.toNat cs) ∧
      ∀ s : String, ((ofName? s).map name).bind (fun t => (ofName? t).map name) =
        (ofName? s).map name := by
  refine ⟨ofName?_name, name_injective, toJson_withOutcome_injective, marginKey_injective,
    fun s => isSome_ofName?_iff, fun s m => ofName?_eq_failedSaveBy_iff, fun s => ?_⟩
  cases ofName? s with
  | none => rfl
  | some o =>
      show (ofName? o.name).map name = _
      rw [ofName?_name]

/-- Leading zeros and a sign are read, a margin beyond 32 bits is not. -/
example : ofName? "failedSaveBy+007" = some (failedSaveBy 7) ∧
    ofName? "failedSaveBy4294967296" = none := by
  decide

end Spellwork.Outcome
