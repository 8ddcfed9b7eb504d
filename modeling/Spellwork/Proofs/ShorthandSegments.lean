import Mathlib.Data.List.Forall2
import Mathlib.Data.List.ReduceOption
import Spellwork.Effect.Shorthand
import Spellwork.Proofs.FormulaSpelling

/-!
# Segments of shorthand

What a line of shorthand says, segment by segment. A segment is a key and a value with blanks around
each of them, or it says nothing (`Segment`); what stands behind the first equals sign is value, and
what stands before the last brace is segments, so that a value may hold both signs.
`fields?_segments` reads a line of any segments, and `exists_segments` shows that there are no other
lines: whatever is read at all is a line of segments.
-/

namespace Spellwork

theorem Formula.Blank.not_mem {c : Char} {cs : List Char} (h : Blank cs)
    (hc : Text.isBlank c = false) : c ∉ cs := by
  intro hmem
  rw [h c hmem] at hc
  cases hc

namespace Shorthand

open Formula (Blank)

/-! ## Segments -/

/-- A text that can stand as a value: no blank at its ends, and no semicolon to end it early. -/
def Writable (cs : List Char) : Prop :=
  Text.trim cs = cs ∧ ';' ∉ cs

instance (cs : List Char) : Decidable (Writable cs) :=
  inferInstanceAs (Decidable (_ ∧ _))

/-- A text that can stand as a key. -/
def IsKey (cs : List Char) : Prop :=
  cs ≠ [] ∧ Writable cs ∧ '=' ∉ cs

instance (cs : List Char) : Decidable (IsKey cs) :=
  inferInstanceAs (Decidable (_ ∧ _ ∧ _))

/-- The segments of a line, each with the key and the value that it says, if it says any. -/
inductive Segment : Option (String × String) → List Char → Prop
  | field {key value : String} {a b c d : List Char} (hkey : IsKey key.toList)
      (hvalue : Writable value.toList) (ha : Blank a) (hb : Blank b) (hc : Blank c) (hd : Blank d) :
      Segment (some (key, value)) (a ++ key.toList ++ b ++ '=' :: (c ++ value.toList ++ d))
  /-- Text without an equals sign, or no text at all. -/
  | bare {cs : List Char} (hend : ';' ∉ cs) (heq : '=' ∉ cs) : Segment none cs
  | keyless {a cs : List Char} (ha : Blank a) (hend : ';' ∉ cs) : Segment none (a ++ '=' :: cs)

theorem trim_between {cs before after : List Char} (hb : Blank before) (ha : Blank after)
    (h : Text.trim cs = cs) : Text.trim (before ++ cs ++ after) = cs :=
  (Text.trimBy_append_of_all hb cs ha).trans h

theorem exists_blank_append_trim (cs : List Char) :
    ∃ before after, cs = before ++ Text.trim cs ++ after ∧ Blank before ∧ Blank after := by
  obtain ⟨before, after, hcs, hb, ha, -⟩ := Text.exists_append_trimBy Text.isBlank cs
  exact ⟨before, after, hcs, hb, ha⟩

theorem trim_eq_nil_iff {cs : List Char} : Text.trim cs = [] ↔ Blank cs := by
  constructor
  · intro h
    obtain ⟨before, after, hcs, hb, ha⟩ := exists_blank_append_trim cs
    rw [h, List.append_nil] at hcs
    rw [hcs]
    exact List.forall_mem_append.mpr ⟨hb, ha⟩
  · intro h
    have hnil : Blank [] := fun c hc => absurd hc List.not_mem_nil
    have htrim : Text.trim (cs ++ [] ++ []) = [] := trim_between h hnil rfl
    rwa [List.append_nil, List.append_nil] at htrim

theorem Segment.semicolon_not_mem {part : Option (String × String)} {segment : List Char}
    (h : Segment part segment) : ';' ∉ segment := by
  have hblank {cs : List Char} (h : Blank cs) : ';' ∉ cs := h.not_mem (by decide)
  cases h with
  | field hkey hvalue ha hb hc hd =>
      simp [hkey.2.1.2, hvalue.2, hblank ha, hblank hb, hblank hc, hblank hd]
  | bare hend heq => exact hend
  | keyless ha hend => simp [hblank ha, hend]

/-- A segment is read as what it says. -/
theorem Segment.field?_eq {part : Option (String × String)} {segment : List Char}
    (h : Segment part segment) :
    field? segment = part.map fun f => (f.1, Scalar.ofText f.2.toList) := by
  unfold field?
  cases h with
  | @field key value a b c d hkey hvalue ha hb hc hd =>
      obtain ⟨hne, ⟨htrim, -⟩, heq⟩ := hkey
      have hfree : '=' ∉ a ++ key.toList ++ b := by
        simp [heq, ha.not_mem (c := '=') (by decide), hb.not_mem (c := '=') (by decide)]
      rw [Text.cutAt_eq_some_iff.mpr ⟨rfl, hfree⟩]
      dsimp only
      rw [trim_between ha hb htrim, trim_between hc hd hvalue.1, if_neg (by simpa using hne),
        String.ofList_toList]
      rfl
  | bare hend heq =>
      rw [Text.cutAt_eq_none_iff.mpr heq]
      rfl
  | @keyless a cs ha hend =>
      rw [Text.cutAt_eq_some_iff.mpr ⟨rfl, ha.not_mem (by decide)⟩]
      dsimp only
      rw [trim_eq_nil_iff.mpr ha]
      rfl

/-! ## Lines -/

/-- Segments in their wrapper. -/
def wrapped (segments : List (List Char)) : List Char :=
  '@' :: Text.openBrace :: (Text.join [';'] segments ++ [Text.closeBrace])

theorem inner?_eq_some_iff {cs inner : List Char} :
    inner? cs = some inner ↔
      Text.trim cs = '@' :: Text.openBrace :: (inner ++ [Text.closeBrace]) := by
  unfold inner?
  constructor
  · intro h
    split at h
    · rename_i first rest htrim
      split at h
      · rename_i last reversed hrest
        split at h
        · rename_i hbraces
          obtain rfl : reversed.reverse = inner := Option.some.inj h
          rw [htrim, hbraces.1, ← List.reverse_reverse rest, hrest, hbraces.2, List.reverse_cons]
        · cases h
      · cases h
    · cases h
  · intro h
    rw [h]
    simp

theorem inner?_eq_none_iff {cs : List Char} :
    inner? cs = none ↔
      ¬ ∃ inner, Text.trim cs = '@' :: Text.openBrace :: (inner ++ [Text.closeBrace]) := by
  rw [Option.eq_none_iff_forall_ne_some, not_exists]
  simp only [ne_eq, inner?_eq_some_iff]

/-- The wrapper is no blank, so that blanks around it are told from it. -/
theorem trim_wrapped {before after : List Char} (hb : Blank before) (ha : Blank after)
    (segments : List (List Char)) :
    Text.trim (before ++ wrapped segments ++ after) = wrapped segments := by
  refine trim_between hb ha (Text.trimBy_eq_self (fun c hc => ?_) fun c hc => ?_)
  · cases hc
    rfl
  · rw [wrapped, ← List.cons_append, ← List.cons_append, List.getLast?_concat] at hc
    cases hc
    rfl

/-- No segments are read as one segment that is empty. -/
theorem filterMap_field?_splitOn {segments : List (List Char)}
    (h : ∀ segment ∈ segments, ';' ∉ segment) :
    (Text.splitOn ';' (Text.join [';'] segments)).filterMap field? =
      segments.filterMap field? := by
  cases segments with
  | nil => rfl
  | cons segment segments => rw [Text.splitOn_join (List.cons_ne_nil _ _) h]

section Segments

variable {parts : List (Option (String × String))} {segments : List (List Char)}

theorem semicolon_not_mem_of_segments (h : List.Forall₂ Segment parts segments) :
    ∀ segment ∈ segments, ';' ∉ segment := by
  induction h with
  | nil => exact fun _ hs => absurd hs List.not_mem_nil
  | cons hpart _ ih => exact List.forall_mem_cons.mpr ⟨hpart.semicolon_not_mem, ih⟩

theorem filterMap_field?_eq (h : List.Forall₂ Segment parts segments) :
    segments.filterMap field? =
      parts.reduceOption.map fun f => (f.1, Scalar.ofText f.2.toList) := by
  induction h with
  | nil => rfl
  | @cons part segment parts segments hpart _ ih =>
      rw [List.filterMap_cons, hpart.field?_eq, ih]
      cases part <;> rfl

theorem fields?_eq_lastPairs (h : List.Forall₂ Segment parts segments) {before after : List Char}
    (hb : Blank before) (ha : Blank after) :
    fields? (String.ofList (before ++ wrapped segments ++ after)) =
      some (Json.lastPairs (parts.reduceOption.map fun f => (f.1, Scalar.ofText f.2.toList))) := by
  have hinner : inner? (before ++ wrapped segments ++ after) = some (Text.join [';'] segments) :=
    inner?_eq_some_iff.mpr (trim_wrapped hb ha segments)
  rw [fields?, String.toList_ofList, hinner, Option.map_some,
    filterMap_field?_splitOn (semicolon_not_mem_of_segments h), filterMap_field?_eq h]

end Segments

theorem lookup_map_snd (f : α → β) (key : String) (ps : List (String × α)) :
    (ps.map fun p => (p.1, f p.2)).lookup key = (ps.lookup key).map f := by
  induction ps with
  | nil => rfl
  | cons p ps ih =>
      obtain ⟨k, a⟩ := p
      rw [List.map_cons, Json.lookup_cons_eq, Json.lookup_cons_eq, ih]
      split <;> rfl

/-- A line of segments is read as the map from each key to its last value, whatever blanks and
segments without a key stand in between; and a text is no shorthand at all if and only if it is not
wrapped. -/
theorem fields?_segments :
    (∀ (parts : List (Option (String × String))) (segments : List (List Char))
        (before after : List Char),
        List.Forall₂ Segment parts segments → Blank before → Blank after →
        ∃ fields, fields? (String.ofList (before ++ wrapped segments ++ after)) = some fields ∧
          (fields.map Prod.fst).Nodup ∧
          ∀ key, fields.lookup key =
            (parts.reduceOption.reverse.lookup key).map fun value => Scalar.ofText value.toList) ∧
      ∀ s : String, fields? s = none ↔
        ¬ ∃ inner, Text.trim s.toList =
          '@' :: Text.openBrace :: (inner ++ [Text.closeBrace]) := by
  refine ⟨fun parts segments before after h hb ha => ?_, fun s => ?_⟩
  · refine ⟨_, fields?_eq_lastPairs h hb ha, Json.nodup_keys_lastPairs _, fun key => ?_⟩
    rw [Json.lookup_lastPairs, ← List.map_reverse]
    exact lookup_map_snd (fun value : String => Scalar.ofText value.toList) key _
  · rw [fields?, Option.map_eq_none_iff]
    exact inner?_eq_none_iff

/-- Blanks, an empty segment, one without an equals sign and one without a key, and a key that is
given twice. -/
theorem fields?_segments_junk :
    ∃ fields, fields? " @\x7ba=1; ;b = x=\x7d;=z;a= 2\x7d\n" = some fields ∧
      (fields.map Prod.fst).Nodup ∧
      fields.lookup "a" = some (.integer 2) ∧ fields.lookup "b" = some (.text "x=\x7d") := by
  have hfirst : Segment (some ("a", "1")) "a=1".toList :=
    @Segment.field "a" "1" [] [] [] [] (by decide) (by decide) (by decide) (by decide) (by decide)
      (by decide)
  have hbare : Segment none " ".toList := .bare (by decide) (by decide)
  have hsecond : Segment (some ("b", "x=\x7d")) "b = x=\x7d".toList :=
    @Segment.field "b" "x=\x7d" [] [' '] [' '] [] (by decide) (by decide) (by decide) (by decide)
      (by decide) (by decide)
  have hkeyless : Segment none "=z".toList := @Segment.keyless [] ['z'] (by decide) (by decide)
  have hlast : Segment (some ("a", "2")) "a= 2".toList :=
    @Segment.field "a" "2" [] [] [' '] [] (by decide) (by decide) (by decide) (by decide)
      (by decide) (by decide)
  obtain ⟨fields, hread, hnodup, hlookup⟩ := fields?_segments.1 _ _ [' '] ['\n']
    (.cons hfirst (.cons hbare (.cons hsecond (.cons hkeyless (.cons hlast .nil)))))
    (by decide) (by decide)
  refine ⟨fields, hread, hnodup, (hlookup "a").trans ?_, (hlookup "b").trans ?_⟩
  · decide
  · decide

/-! ## All lines -/

/-- A text between two semicolons is one segment or another. -/
theorem exists_part {segment : List Char} (h : ';' ∉ segment) : ∃ part, Segment part segment := by
  cases hcut : Text.cutAt '=' segment with
  | none => exact ⟨none, .bare h (Text.cutAt_eq_none_iff.mp hcut)⟩
  | some sides =>
      obtain ⟨left, right⟩ := sides
      obtain ⟨rfl, heq⟩ := Text.cutAt_eq_some_iff.mp hcut
      rw [List.mem_append, List.mem_cons, not_or, not_or] at h
      obtain ⟨hleft, -, hright⟩ := h
      by_cases hkey : Text.trim left = []
      · exact ⟨none, .keyless (trim_eq_nil_iff.mp hkey) hright⟩
      obtain ⟨a, b, hl, ha, hb⟩ := exists_blank_append_trim left
      obtain ⟨c, d, hr, hc, hd⟩ := exists_blank_append_trim right
      have hkeep {cs : List Char} {sign : Char} (hsign : sign ∉ cs) : sign ∉ Text.trim cs :=
        fun hmem => hsign ((Text.trim_isInfix cs).subset hmem)
      have hsegment := @Segment.field (String.ofList (Text.trim left))
        (String.ofList (Text.trim right)) a b c d
      rw [String.toList_ofList, String.toList_ofList, ← hl, ← hr] at hsegment
      exact ⟨_, hsegment ⟨hkey, ⟨Text.trim_trim left, hkeep hleft⟩, hkeep heq⟩
        ⟨Text.trim_trim right, hkeep hright⟩ ha hb hc hd⟩

theorem exists_parts {segments : List (List Char)} (h : ∀ segment ∈ segments, ';' ∉ segment) :
    ∃ parts, List.Forall₂ Segment parts segments := by
  induction segments with
  | nil => exact ⟨[], .nil⟩
  | cons segment segments ih =>
      obtain ⟨hsegment, hsegments⟩ := List.forall_mem_cons.mp h
      obtain ⟨part, hpart⟩ := exists_part hsegment
      obtain ⟨parts, hparts⟩ := ih hsegments
      exact ⟨part :: parts, .cons hpart hparts⟩

/-- Whatever is read is a line of segments. -/
theorem exists_segments {s : String} (h : fields? s ≠ none) :
    ∃ parts segments before after, s = String.ofList (before ++ wrapped segments ++ after) ∧
      List.Forall₂ Segment parts segments ∧ Blank before ∧ Blank after := by
  obtain ⟨inner, hinner⟩ : ∃ inner, inner? s.toList = some inner := by
    rw [fields?] at h
    exact Option.ne_none_iff_exists'.mp fun hnone => h (by rw [hnone]; rfl)
  obtain ⟨before, after, hs, hb, ha⟩ := exists_blank_append_trim s.toList
  have htrim : Text.trim s.toList = wrapped (Text.splitOn ';' inner) := by
    rw [wrapped, Text.join_splitOn]
    exact inner?_eq_some_iff.mp hinner
  rw [htrim] at hs
  have hfree : ∀ segment ∈ Text.splitOn ';' inner, ';' ∉ segment :=
    fun _ hsegment => Text.not_mem_of_mem_splitOn hsegment
  obtain ⟨parts, hparts⟩ := exists_parts hfree
  refine ⟨parts, _, before, after, ?_, hparts, hb, ha⟩
  rw [← hs, String.ofList_toList]

end Shorthand

end Spellwork
