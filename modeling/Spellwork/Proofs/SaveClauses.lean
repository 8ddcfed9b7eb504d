import Mathlib.Data.List.Sublists
import Spellwork.Proofs.SaveOrders

/-!
# Saving throws in ASCII text

The first word order that occurs anywhere decides, and of it the leftmost place (`DecidingPlace`).
No match is lost on the way from the words to a saving throw: an ability that is matched is known,
and a number is read unless its digits say too much (`save?_reads`).
-/

namespace Spellwork.Prose

open Text Pattern

/-! ## The place that decides -/

/-- The leftmost place of the first order that occurs at all. -/
structure DecidingPlace (cs : List Char) (p : Pattern) (past rest : List Char) : Prop where
  order : ∃ earlier later, savePatterns = earlier ++ p :: later ∧ ∀ q ∈ earlier, ¬ q.Occurs cs
  split : cs = past ++ rest
  occurs : p.OccursAt past rest
  leftmost : ∀ past' rest', cs = past' ++ rest' → past'.length < past.length →
    ¬ p.OccursAt past' rest'

theorem isProductive_of_mem_savePatterns {p : Pattern} (h : p ∈ savePatterns) :
    p.isProductive = true := by
  have hall : savePatterns.all isProductive = true := by decide
  exact List.all_eq_true.mp hall p h

theorem isProductive_of_mem_halfPatterns {p : Pattern} (h : p ∈ halfPatterns) :
    p.isProductive = true := by
  have hall : halfPatterns.all isProductive = true := by decide
  exact List.all_eq_true.mp hall p h

theorem find_eq_none_iff_not_occurs {p : Pattern} (hp : p.isProductive = true) {cs : List Char} :
    p.find cs = none ↔ ¬ p.Occurs cs := by
  rw [← occursIn_iff hp, occursIn, Option.not_isSome_iff_eq_none]

theorem DecidingPlace.mem {cs : List Char} {p : Pattern} {past rest : List Char}
    (h : DecidingPlace cs p past rest) : p ∈ savePatterns := by
  obtain ⟨earlier, later, hsplit, -⟩ := h.order
  rw [hsplit]
  exact List.mem_append_right earlier List.mem_cons_self

/-- What the search through the orders comes upon. -/
theorem exists_decidingPlace {cs : List Char} {m : Match}
    (h : savePatterns.findSome? (fun p => p.find cs) = some m) :
    ∃ p past rest d, DecidingPlace cs p past rest ∧ (p.run (.between past rest)).head? = some d ∧
      m = ⟨⟨past.length, d.offset⟩, d.groups⟩ := by
  obtain ⟨earlier, p, later, hsplit, hfind, hnone⟩ := List.findSome?_eq_some_iff.mp h
  have hmem {q : Pattern} (hq : q ∈ earlier ++ p :: later) : q.isProductive = true :=
    isProductive_of_mem_savePatterns (hsplit ▸ hq)
  have hproductive := hmem (List.mem_append_right earlier List.mem_cons_self)
  obtain ⟨past, rest, hcs, hmatch, hbefore⟩ := exists_place_of_find hfind
  obtain ⟨d, hd, rfl⟩ := Option.map_eq_some_iff.mp hmatch
  refine ⟨p, past, rest, d, ⟨⟨earlier, later, hsplit, fun q hq => ?_⟩, hcs,
    ⟨d, matches_of_mem_run (List.mem_of_head? hd)⟩, fun past' rest' hcs' hlt => ?_⟩, hd, rfl⟩
  · exact (find_eq_none_iff_not_occurs (hmem (List.mem_append_left _ hq))).mp (hnone q hq)
  · exact (matchAt_eq_none_iff hproductive).mp (hbefore past' rest' hcs' hlt)

theorem findSome?_eq_none_iff_not_occurs {cs : List Char} :
    savePatterns.findSome? (fun p => p.find cs) = none ↔ ¬ ∃ p ∈ savePatterns, p.Occurs cs := by
  rw [List.findSome?_eq_none_iff]
  push Not
  exact forall₂_congr fun p hp => find_eq_none_iff_not_occurs (isProductive_of_mem_savePatterns hp)

/-! ## Abilities -/

theorem normalize_of_letters {cs : List Char} (hne : cs ≠ [])
    (hletters : ∀ x ∈ cs, isLetter x = true) (hcase : ∀ x ∈ cs, lowerChar x = [x.toLower]) :
    normalize cs = cs.map Char.toLower := by
  have hblank : ∀ x ∈ cs, isBlank x = false := fun x hx => isBlank_of_isLetter (hletters x hx)
  have hkept : ∀ x ∈ cs, (!isAlphanumeric x) = false := fun x hx => by
    have hall : letters.all isAlphanumeric = true := by decide +kernel
    simpa using forall_letter hall (hletters x hx)
  have hlower : ∀ x ∈ cs, isBlank x.toLower = false := fun x hx => by
    have hall : letters.all (fun x => !isBlank x.toLower) = true := by decide
    simpa using forall_letter hall (hletters x hx)
  have htrim : trim cs = cs := trimBy_eq_self (fun x hx => hblank x (List.mem_of_head? hx))
    fun x hx => hblank x (List.mem_of_getLast? hx)
  have hends : trimBy (fun c => !isAlphanumeric c) cs = cs :=
    trimBy_eq_self (fun x hx => hkept x (List.mem_of_head? hx))
      fun x hx => hkept x (List.mem_of_getLast? hx)
  rw [normalize, htrim, hends, lowercase_eq_map hcase,
    words_of_no_blank (mt List.map_eq_nil_iff.mp hne) (List.forall_mem_map.mpr hlower)]
  rfl

/-- No ability is written with a k, so that no kelvin sign stands in its word. -/
theorem lowerChar_of_statWord {stat : List Char} (h : stat ∈ statWord.language) :
    ∀ x ∈ stat, lowerChar x = [x.toLower] := by
  obtain ⟨w, hw, hstat⟩ := exists_word_of_statWord h
  have hnone : ∀ w ∈ abilityWords, 'k' ∉ w.toList := by decide
  have hall : letters.all (fun x => foldLetter x = 'k' || lowerChar x = [x.toLower]) = true := by
    decide
  intro x hx
  have hk : foldLetter x ≠ 'k' := fun heq =>
    hnone w hw (hstat ▸ heq ▸ List.mem_map_of_mem hx)
  simpa [hk] using forall_letter hall (isLetter_of_statWord h x hx)

theorem ability?_of_statWord {stat : List Char} (h : stat ∈ statWord.language) :
    ability? stat = abilityAliases.lookup (String.ofList (stat.map Char.toLower)) := by
  rw [ability?, key, normalize_of_letters (ne_nil_of_statWord h) (isLetter_of_statWord h)
    (lowerChar_of_statWord h)]

/-- An ability that is matched is known. -/
theorem exists_ability_of_statWord {stat : List Char} (h : stat ∈ statWord.language)
    (hascii : ∀ x ∈ stat, x.toNat < 128) :
    ∃ a, ability? stat = some a ∧
      abilityAliases.lookup (String.ofList (stat.map Char.toLower)) = some a := by
  have hknown : ∀ w ∈ abilityWords, (abilityAliases.lookup w).isSome = true := by decide
  obtain ⟨w, hw, hstat⟩ := exists_word_of_statWord h
  have hlower : String.ofList (stat.map Char.toLower) = w := by
    rw [← List.map_congr_left fun x hx => foldLetter_ascii (hascii x hx), hstat,
      String.ofList_toList]
  obtain ⟨a, ha⟩ := Option.isSome_iff_exists.mp (hknown w hw)
  rw [ability?_of_statWord h, hlower]
  exact ⟨a, ha, ha⟩

/-! ## Numbers -/

/-- A run of digits that no digit extends. -/
def DigitRun (cs ds : List Char) : Prop :=
  ∃ before after, cs = before ++ (ds ++ after) ∧ ds ≠ [] ∧ (∀ x ∈ ds, x.isDigit = true) ∧
    (∀ x ∈ before.getLast?, x.isDigit = false) ∧ ∀ x ∈ after.head?, x.isDigit = false

theorem isDecimalDigit_eq {x : Char} (hx : x.toNat < 128) : isDecimalDigit x = x.isDigit := by
  rw [isDecimalDigit, if_pos hx]

theorem IsDC.getLast {dc : List Char} (h : IsDC dc) (hascii : ∀ x ∈ dc, x.toNat < 128) :
    ∀ x ∈ dc.getLast?, x.isDigit = false := by
  obtain ⟨d, c, blank, rfl, -, hc, hblank⟩ := h
  intro x hx
  rw [List.getLast?_cons_cons] at hx
  have hin := List.mem_of_getLast? hx
  have hsmall := hascii x (List.mem_cons_of_mem d hin)
  rcases List.mem_cons.mp hin with rfl | hin
  · exact forall_ascii (P := fun x => foldLetter x = 'c' → x.isDigit = false) (by decide)
      hsmall hc
  · rw [← isDecimalDigit_eq hsmall]
    exact isDecimalDigit_of_isBlank (hblank x hin)

theorem WholeNumber.digitRun {cs : List Char} {s : Span} (hascii : ∀ x ∈ cs, x.toNat < 128)
    (h : WholeNumber cs s) : DigitRun cs (slice s.start s.stop cs) := by
  obtain ⟨before, dc, ds, after, rfl, hdc, hds, hafter, rfl⟩ := h
  rw [← List.append_assoc before] at hascii ⊢
  rw [slice_append]
  simp only [List.mem_append, or_imp, forall_and] at hascii
  obtain ⟨⟨-, hascii_dc⟩, hascii_ds, hascii_after⟩ := hascii
  refine ⟨before ++ dc, after, rfl, hds.1, fun x hx => ?_, fun x hx => ?_,
    fun x hx => ?_⟩
  · rw [← isDecimalDigit_eq (hascii_ds x hx)]
    exact hds.2 x hx
  · refine hdc.getLast hascii_dc x ?_
    obtain ⟨d, c, blank, rfl, -⟩ := hdc
    rwa [List.getLast?_append_of_ne_nil _ (List.cons_ne_nil _ _)] at hx
  · rw [← isDecimalDigit_eq (hascii_after x (List.mem_of_head? hx))]
    exact hafter x hx

/-- A number is read, unless it is too large. -/
theorem exists_uint32_of_digitRun {cs ds : List Char} (h : DigitRun cs ds)
    (hfits : Nat.ofDigitChars 10 ds 0 < 2 ^ 32) :
    ∃ n, uint32? ds = some n ∧ Nat.ofDigitChars 10 ds 0 = n.toNat := by
  obtain ⟨-, -, -, hne, hdigits, -, -⟩ := h
  have hnat := nat?_eq_some_iff.mpr ⟨hne, hdigits, rfl⟩
  have hvalue : (UInt32.ofNat (Nat.ofDigitChars 10 ds 0)).toNat = Nat.ofDigitChars 10 ds 0 :=
    UInt32.toNat_ofNat_of_lt' hfits
  refine ⟨UInt32.ofNat (Nat.ofDigitChars 10 ds 0), ?_, hvalue.symm⟩
  rw [uint32?_eq_some_iff, hvalue, unsigned?_eq_some_iff]
  exact ⟨ds, Or.inl rfl, hnat⟩

/-! ## Consequences -/

/-- What a pattern captures as a clause stands in the text and ends no sentence. -/
theorem clauseOf_eq_some {p : Pattern} (hp : p.groups = [(captured, clause)])
    {cs found : List Char} (h : clauseOf p cs = some found) :
    found <:+: cs ∧ ∀ x ∈ found, x ∉ ['.', ';'] := by
  obtain ⟨m, hfind, htext⟩ := Option.bind_eq_some_iff.mp h
  obtain ⟨body, hbody, hlanguage⟩ := text?_mem_language hfind htext
  rw [hp, List.mem_singleton, Prod.mk.injEq] at hbody
  rw [hbody.2] at hlanguage
  obtain ⟨span, -, rfl⟩ := Option.map_eq_some_iff.mp htext
  refine ⟨slice_isInfix _ _ _, fun x hx => ?_⟩
  simpa using (mem_language_many1_one.mp hlanguage).2 x hx

/-- A part of the text that is not blank at its ends and lies within a clause. -/
structure IsConsequence (cs ds : List Char) : Prop where
  ne_nil : ds ≠ []
  trimmed : trim ds = ds
  part : ds <:+: cs
  clause : ∀ x ∈ ds, x ≠ '.' ∧ x ≠ ';'

theorem isConsequence_of_consequence? {cs after : List Char} {t : String} (hafter : after <:+: cs)
    (h : consequence? cs after = some t) : IsConsequence cs t.toList := by
  unfold consequence? at h
  split at h
  · rename_i found hfound
    have hclause : found <:+: cs ∧ ∀ x ∈ found, x ∉ ['.', ';'] := by
      rcases Option.or_eq_some_iff.mp hfound with hor | ⟨-, hfailure⟩
      · obtain ⟨hin, hmarks⟩ := clauseOf_eq_some rfl hor
        exact ⟨hin.trans hafter, hmarks⟩
      · exact clauseOf_eq_some rfl hfailure
    dsimp only at h
    split at h
    · cases h
    · rename_i hne
      obtain rfl := Option.some.inj h
      rw [String.toList_ofList]
      refine ⟨fun heq => hne (List.isEmpty_iff.mpr heq), trim_trim found,
        (trim_isInfix found).trans hclause.1, fun x hx => ?_⟩
      simpa using hclause.2 x ((trim_isInfix found).subset hx)
  · cases h

/-! ## Saving throws -/

/-- The number and the ability that decide. -/
structure Decided (cs : List Char) (dc : UInt32) (a : Ability) (p : Pattern) (past rest : List Char)
    (number ability : Span) : Prop where
  place : DecidingPlace cs p past rest
  names : Names p past rest number.start ability
  captured : ∃ d, Matches p (.between past rest) d ∧ d.groups.lookup dcGroup = some number
  whole : WholeNumber cs number
  dc : Nat.ofDigitChars 10 (slice number.start number.stop cs) 0 = dc.toNat
  ability : abilityAliases.lookup
    (String.ofList ((slice ability.start ability.stop cs).map Char.toLower)) = some a

/-- What a text says about a saving throw. -/
structure Says (cs : List Char) (s : SaveClause) : Prop where
  decided : ∃ p past rest number ability, Decided cs s.dc s.ability p past rest number ability
  half : s.halfOnSave = true ↔ ∃ p ∈ halfPatterns, p.Occurs cs
  no_consequence : s.halfOnSave = true → s.consequence = none
  consequence : ∀ t, s.consequence = some t → IsConsequence cs t.toList

/-- Whatever the search comes upon is read. -/
theorem exists_decided {cs : List Char} (hascii : ∀ x ∈ cs, x.toNat < 128)
    (hfits : ∀ ds, DigitRun cs ds → Nat.ofDigitChars 10 ds 0 < 2 ^ 32) {m : Match}
    (h : savePatterns.findSome? (fun p => p.find cs) = some m) :
    ∃ dc a, (m.text? dcGroup cs).bind uint32? = some dc ∧
      (m.text? statGroup cs).bind ability? = some a ∧
      ∃ p past rest number ability, Decided cs dc a p past rest number ability := by
  obtain ⟨p, past, rest, d, hplace, hpreferred, rfl⟩ := exists_decidingPlace h
  obtain rfl := hplace.split
  obtain ⟨number, ability, hnames⟩ := exists_namesWhole hplace.mem hpreferred
  have hrun := hnames.whole.digitRun hascii
  obtain ⟨dc, hdc, hvalue⟩ := exists_uint32_of_digitRun hrun (hfits _ hrun)
  obtain ⟨a, ha, hknown⟩ := exists_ability_of_statWord hnames.word fun x hx =>
    hascii x ((slice_isInfix _ _ _).subset hx)
  refine ⟨dc, a, ?_, ?_, p, past, rest, number, ability, hplace, hnames.names,
    ⟨d, matches_of_mem_run (List.mem_of_head? hpreferred), hnames.dc⟩, hnames.whole, hvalue, hknown⟩
  · rw [Match.text?, Match.group?, hnames.dc, Option.map_some, Option.bind_some, hdc]
  · rw [Match.text?, Match.group?, hnames.stat, Option.map_some, Option.bind_some, ha]

theorem save?_eq_some {cs : List Char} {m : Match} {dc : UInt32} {a : Ability}
    (hfind : savePatterns.findSome? (fun p => p.find cs) = some m)
    (hdc : (m.text? dcGroup cs).bind uint32? = some dc)
    (ha : (m.text? statGroup cs).bind ability? = some a) :
    save? cs = some
      ⟨dc, a, halfPatterns.any fun p => p.occursIn cs,
        if halfPatterns.any fun p => p.occursIn cs then none
        else consequence? cs (cs.drop m.span.stop)⟩ := by
  simp only [save?, hfind, hdc, ha, Option.bind_eq_bind, Option.bind_some]
  rfl

theorem any_occursIn_iff {cs : List Char} :
    (halfPatterns.any fun p => p.occursIn cs) = true ↔ ∃ p ∈ halfPatterns, p.Occurs cs := by
  rw [List.any_eq_true]
  exact exists_congr fun p => and_congr_right fun hp =>
    occursIn_iff (isProductive_of_mem_halfPatterns hp)

/-- In ASCII text whose digits say numbers of 32 bits, a saving throw is read if and only if one of
the word orders occurs, and it is the one that the deciding place names. -/
theorem save?_reads {cs : List Char} (hascii : ∀ x ∈ cs, x.toNat < 128)
    (hfits : ∀ ds, DigitRun cs ds → Nat.ofDigitChars 10 ds 0 < 2 ^ 32) :
    ((∃ s, save? cs = some s) ↔ ∃ p ∈ savePatterns, p.Occurs cs) ∧
      ∀ s, save? cs = some s → Says cs s := by
  cases hfind : savePatterns.findSome? (fun p => p.find cs) with
  | none =>
      have hsave : save? cs = none := by
        unfold save?
        rw [hfind]
        rfl
      rw [hsave]
      refine ⟨iff_of_false (fun ⟨s, hs⟩ => Option.some_ne_none s hs.symm)
        (findSome?_eq_none_iff_not_occurs.mp hfind), fun s hs => ?_⟩
      exact absurd hs.symm (Option.some_ne_none s)
  | some m =>
      obtain ⟨dc, a, hdc, ha, hdecided⟩ := exists_decided hascii hfits hfind
      have hsave := save?_eq_some hfind hdc ha
      have hoccurs : ∃ p ∈ savePatterns, p.Occurs cs := by
        by_contra hnone
        rw [findSome?_eq_none_iff_not_occurs.mpr hnone] at hfind
        cases hfind
      refine ⟨iff_of_true ⟨_, hsave⟩ hoccurs, fun s hs => ?_⟩
      obtain rfl := Option.some.inj (hsave.symm.trans hs)
      refine ⟨hdecided, any_occursIn_iff, fun hhalf => if_pos hhalf, fun t ht => ?_⟩
      dsimp only at ht
      split at ht
      · cases ht
      · exact isConsequence_of_consequence? (List.drop_suffix _ cs).isInfix ht

theorem DigitRun.sublist {cs ds : List Char} (h : DigitRun cs ds) :
    ds.Sublist (cs.filter Char.isDigit) := by
  obtain ⟨before, after, rfl, -, hdigits, -, -⟩ := h
  have hpart : ds.Sublist (before ++ (ds ++ after)) :=
    (List.sublist_append_left ds after).trans (List.sublist_append_right before _)
  have hkept := hpart.filter Char.isDigit
  rwa [List.filter_eq_self.mpr hdigits] at hkept

theorem ascii_of_all {cs : List Char} (h : cs.all (fun x => x.toNat < 128) = true) :
    ∀ x ∈ cs, x.toNat < 128 := fun x hx => of_decide_eq_true (List.all_eq_true.mp h x hx)

/-- The numbers in a text are short if all that its digits could say is. -/
theorem fits_of_sublists {cs : List Char}
    (h : ∀ ds ∈ (cs.filter Char.isDigit).sublists, Nat.ofDigitChars 10 ds 0 < 2 ^ 32) :
    ∀ ds, DigitRun cs ds → Nat.ofDigitChars 10 ds 0 < 2 ^ 32 :=
  fun ds hrun => h ds (List.mem_sublists.mpr hrun.sublist)

/-- Of two saving throws the one in the more specific order is read, although it stands behind. What
a failure brings stands behind it in turn, unless saving halves the damage. -/
theorem save?_reads_two_orders :
    (save? "WIS DC 12 or DC 13 STR save or be prone.".toList =
        some ⟨13, .strength, false, some "prone"⟩ ∧
      Says "WIS DC 12 or DC 13 STR save or be prone.".toList
        ⟨13, .strength, false, some "prone"⟩) ∧
    save? "DC 14 DEX save for half or be prone".toList = some ⟨14, .dexterity, true, none⟩ ∧
      Says "DC 14 DEX save for half or be prone".toList ⟨14, .dexterity, true, none⟩ := by
  have hor : save? "WIS DC 12 or DC 13 STR save or be prone.".toList =
      some ⟨13, .strength, false, some "prone"⟩ ∧
        "WIS DC 12 or DC 13 STR save or be prone.".toList.all (fun x => x.toNat < 128) = true ∧
        ∀ ds ∈ ("WIS DC 12 or DC 13 STR save or be prone.".toList.filter Char.isDigit).sublists,
          Nat.ofDigitChars 10 ds 0 < 2 ^ 32 := by
    decide
  have hhalf : save? "DC 14 DEX save for half or be prone".toList =
      some ⟨14, .dexterity, true, none⟩ ∧
        "DC 14 DEX save for half or be prone".toList.all (fun x => x.toNat < 128) = true ∧
        ∀ ds ∈ ("DC 14 DEX save for half or be prone".toList.filter Char.isDigit).sublists,
          Nat.ofDigitChars 10 ds 0 < 2 ^ 32 := by
    decide
  exact ⟨⟨hor.1, (save?_reads (ascii_of_all hor.2.1) (fits_of_sublists hor.2.2)).2 _ hor.1⟩,
    hhalf.1, (save?_reads (ascii_of_all hhalf.2.1) (fits_of_sublists hhalf.2.2)).2 _ hhalf.1⟩

end Spellwork.Prose
