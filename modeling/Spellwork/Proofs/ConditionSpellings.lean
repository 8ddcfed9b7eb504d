import Mathlib.Logic.Relation
import Spellwork.Proofs.FormulaReaders
import Spellwork.Proofs.FoundConditions
import Spellwork.Proofs.SaveClauses

/-!
# Spellings of conditions

Which spellings are stored as one condition. A phrase is looked up by its core, the part between its
first and its last letter or digit, in lower case and with its words one space apart. The letter
case, what stands around the core and the width of the gaps in it are gone then (`Respelled`),
whatever condition it names and whether or not it names one at all. That the stored name is stored
as itself needs two things besides: a phrase that has been normalised is left alone, and each known
condition is its own name, so that no name that stands for another is ever stored.
-/

namespace Spellwork

namespace Text

/-! ## Trimming -/

theorem trimBy_map {p : Char → Bool} {f : Char → Char} (h : ∀ c, p (f c) = p c)
    (cs : List Char) : trimBy p (cs.map f) = (trimBy p cs).map f := by
  have hp : p ∘ f = p := funext h
  simp only [trimBy, List.dropWhile_map, ← List.map_reverse, hp]

theorem exists_first_kept {p : Char → Bool} {cs : List Char} (h : ¬ ∀ c ∈ cs, p c = true) :
    ∃ front c rest, cs = front ++ c :: rest ∧ (∀ d ∈ front, p d = true) ∧ p c = false := by
  induction cs with
  | nil => exact absurd (fun c hc => absurd hc List.not_mem_nil) h
  | cons c cs ih =>
      by_cases hc : p c = true
      · obtain ⟨front, d, rest, rfl, hfront, hd⟩ :=
          ih fun hcs => h (List.forall_mem_cons.mpr ⟨hc, hcs⟩)
        exact ⟨c :: front, d, rest, rfl, List.forall_mem_cons.mpr ⟨hc, hfront⟩, hd⟩
      · exact ⟨[], c, cs, rfl, fun d hd => absurd hd List.not_mem_nil, Bool.eq_false_iff.mpr hc⟩

/-- What is dropped inside a text is dropped with one of the sides, or stays where it is. -/
theorem trimBy_gap (p : Char → Bool) (before after : List Char) :
    (∃ cs, ∀ gap : List Char, (∀ c ∈ gap, p c = true) → trimBy p (before ++ gap ++ after) = cs) ∨
      ∃ front back, ∀ gap : List Char, (∀ c ∈ gap, p c = true) →
        trimBy p (before ++ gap ++ after) = front ++ gap ++ back := by
  have hnil : ∀ c ∈ ([] : List Char), p c = true := fun c hc => absurd hc List.not_mem_nil
  by_cases hb : ∀ c ∈ before, p c = true
  · refine .inl ⟨trimBy p after, fun gap hgap => ?_⟩
    have hdrop := trimBy_append_of_all (List.forall_mem_append.mpr ⟨hb, hgap⟩) after hnil
    rwa [List.append_nil] at hdrop
  by_cases ha : ∀ c ∈ after, p c = true
  · refine .inl ⟨trimBy p before, fun gap hgap => ?_⟩
    have hdrop := trimBy_append_of_all hnil before (List.forall_mem_append.mpr ⟨hgap, ha⟩)
    rwa [List.nil_append, ← List.append_assoc] at hdrop
  -- a character is kept on each side
  obtain ⟨front, c, rest, rfl, hfront, hc⟩ := exists_first_kept hb
  have ha' : ¬ ∀ d ∈ after.reverse, p d = true := fun hall =>
    ha fun d hd => hall d (List.mem_reverse.mpr hd)
  obtain ⟨back, d, rest', hafter, hback, hd⟩ := exists_first_kept ha'
  have hsplit : after = (rest'.reverse ++ [d]) ++ back.reverse := by
    rw [← List.reverse_reverse after, hafter]
    simp
  refine .inr ⟨c :: rest, rest'.reverse ++ [d], fun gap _ => ?_⟩
  have hwhole : front ++ c :: rest ++ gap ++ after =
      front ++ (c :: rest ++ gap ++ (rest'.reverse ++ [d])) ++ back.reverse := by
    rw [hsplit]
    simp only [List.append_assoc, List.cons_append]
  rw [hwhole]
  refine trimBy_append hfront (fun x hx => hback x (List.mem_reverse.mp hx)) (fun x hx => ?_)
    fun x hx => ?_
  · cases hx
    exact hc
  · rw [← List.append_assoc, List.getLast?_concat] at hx
    cases hx
    exact hd

/-! ## Gaps between words -/

theorem words_blank_append {gap : List Char} (h : ∀ c ∈ gap, isBlank c = true)
    (after : List Char) : words (gap ++ after) = words after := by
  induction gap with
  | nil => rfl
  | cons c gap ih =>
      obtain ⟨hc, hgap⟩ := List.forall_mem_cons.mp h
      exact (words_append_blank hc [] (gap ++ after)).trans (ih hgap)

/-- The width of a gap does not matter. -/
theorem words_append_gap {gap : List Char} (hne : gap ≠ []) (h : ∀ c ∈ gap, isBlank c = true)
    (before after : List Char) : words (before ++ gap ++ after) = words before ++ words after := by
  obtain ⟨c, rest, rfl⟩ := List.exists_cons_of_ne_nil hne
  obtain ⟨hc, hrest⟩ := List.forall_mem_cons.mp h
  rw [List.append_assoc, List.cons_append, words_append_blank hc, words_blank_append hrest]

theorem flatten_wordsFrom (current cs : List Char) :
    (wordsFrom current cs).flatten = current.reverse ++ cs.filter fun c => !isBlank c := by
  induction cs generalizing current with
  | nil =>
      rw [wordsFrom_nil]
      cases current <;> simp
  | cons c cs ih =>
      rw [wordsFrom_cons]
      cases hc : isBlank c with
      | true => cases current <;> simp [hc, ih]
      | false => simp [hc, ih]

/-- Words consist of what is not blank. -/
theorem mem_of_mem_words {cs w : List Char} {c : Char} (hw : w ∈ words cs) (hc : c ∈ w) :
    c ∈ cs := by
  have hflat : c ∈ (words cs).flatten := List.mem_flatten.mpr ⟨w, hw, hc⟩
  rw [words, flatten_wordsFrom] at hflat
  exact (List.mem_filter.mp hflat).1

theorem mem_join {separator : List Char} {ws : List (List Char)} {c : Char}
    (h : c ∈ join separator ws) : c ∈ separator ∨ ∃ w ∈ ws, c ∈ w := by
  induction ws with
  | nil => cases h
  | cons w ws ih =>
      cases ws with
      | nil => exact .inr ⟨w, List.mem_cons_self, h⟩
      | cons v ws =>
          rw [join_cons_cons, List.mem_append, List.mem_append] at h
          rcases h with (h | h) | h
          · exact .inr ⟨w, List.mem_cons_self, h⟩
          · exact .inl h
          · exact (ih h).imp id fun ⟨u, hu, hcu⟩ => ⟨u, List.mem_cons_of_mem w hu, hcu⟩

/-! ## The ends of joined words -/

theorem head?_join_cons {w : List Char} (h : w ≠ []) (separator : List Char)
    (ws : List (List Char)) : (join separator (w :: ws)).head? = w.head? := by
  cases ws with
  | nil => rfl
  | cons v ws => rw [join_cons_cons, List.append_assoc, List.head?_append_of_ne_nil _ h]

theorem getLast?_join_cons {separator w : List Char} {ws : List (List Char)} {c : Char}
    (h : (join separator ws).getLast? = some c) :
    (join separator (w :: ws)).getLast? = some c := by
  cases ws with
  | nil => cases h
  | cons v ws => rw [join_cons_cons, List.getLast?_append, h, Option.some_or]

theorem head?_join_wordsFrom {current : List Char} (hne : current ≠ []) (separator cs : List Char) :
    (join separator (wordsFrom current cs)).head? = current.getLast? := by
  have hopen : ¬ current.isEmpty = true := fun h => hne (List.isEmpty_iff.mp h)
  induction cs generalizing current with
  | nil =>
      rw [wordsFrom_nil, if_neg hopen, join, List.head?_reverse]
  | cons c cs ih =>
      rw [wordsFrom_cons, if_neg hopen]
      split
      · rw [head?_join_cons (mt List.reverse_eq_nil_iff.mp hne), List.head?_reverse]
      · rw [ih (List.cons_ne_nil c current) Bool.false_ne_true]
        obtain ⟨d, current, rfl⟩ := List.exists_cons_of_ne_nil hne
        exact List.getLast?_cons_cons

theorem head?_join_words {cs : List Char} (h : ∀ c ∈ cs.head?, isBlank c = false)
    (separator : List Char) : (join separator (words cs)).head? = cs.head? := by
  cases cs with
  | nil => rfl
  | cons c cs =>
      have hc : ¬ isBlank c = true := Bool.eq_false_iff.mp (h c rfl)
      rw [words, wordsFrom_cons, if_neg hc, head?_join_wordsFrom (List.cons_ne_nil c [])]
      rfl

theorem getLast?_join_wordsFrom {cs : List Char} {last : Char} (hlast : cs.getLast? = some last)
    (h : isBlank last = false) (separator current : List Char) :
    (join separator (wordsFrom current cs)).getLast? = some last := by
  induction cs generalizing current with
  | nil => cases hlast
  | cons c cs ih =>
      rw [wordsFrom_cons]
      cases cs with
      | nil =>
          obtain rfl : c = last := Option.some.inj hlast
          rw [if_neg (Bool.eq_false_iff.mp h), wordsFrom_nil, if_neg (by simp), join,
            List.getLast?_reverse]
          rfl
      | cons d cs =>
          rw [List.getLast?_cons_cons] at hlast
          split
          · split
            · exact ih hlast []
            · exact getLast?_join_cons (ih hlast [])
          · exact ih hlast (c :: current)

theorem getLast?_join_words {cs : List Char} (h : ∀ c ∈ cs.getLast?, isBlank c = false)
    (separator : List Char) : (join separator (words cs)).getLast? = cs.getLast? := by
  cases hlast : cs.getLast? with
  | none =>
      rw [List.getLast?_eq_none_iff.mp hlast]
      rfl
  | some last => exact getLast?_join_wordsFrom hlast (h last hlast) separator []

/-! ## Letters and digits in lower case -/

theorem toLower_of_not_ascii {c : Char} (h : ¬ c.toNat < 128) : c.toLower = c := by
  refine dif_neg fun hupper => h ?_
  have hhigh : c.toNat ≤ 90 := UInt32.le_iff_toNat_le.mp hupper.2
  omega

theorem isAlphanumeric_toLower (c : Char) : isAlphanumeric c.toLower = isAlphanumeric c := by
  by_cases hc : c.toNat < 128
  · exact forall_ascii (P := fun c => isAlphanumeric c.toLower = isAlphanumeric c)
      (by decide) hc
  · rw [toLower_of_not_ascii hc]

theorem toLower_toLower (c : Char) : c.toLower.toLower = c.toLower := by
  by_cases hc : c.toNat < 128
  · exact forall_ascii (P := fun c => c.toLower.toLower = c.toLower) (by decide) hc
  · rw [toLower_of_not_ascii hc, toLower_of_not_ascii hc]

theorem toLower_of_isBlank {c : Char} (h : isBlank c = true) : c.toLower = c := by
  by_cases hc : c.toNat < 128
  · exact forall_ascii (P := fun c => isBlank c = true → c.toLower = c) (by decide) hc h
  · exact toLower_of_not_ascii hc

theorem isAlphanumeric_of_isBlank {c : Char} (h : isBlank c = true) :
    isAlphanumeric c = false := by
  have hall : blankPoints.all (fun n => !isAlphanumeric (Char.ofNat n)) = true := by
    decide +kernel
  have hc := List.all_eq_true.mp hall _ (mem_blankPoints h)
  rwa [Char.ofNat_toNat, Bool.not_eq_true'] at hc

theorem not_isAlphanumeric_of_blank {cs : List Char} (h : ∀ c ∈ cs, isBlank c = true) :
    ∀ c ∈ cs, (!isAlphanumeric c) = true := fun c hc => by
  rw [isAlphanumeric_of_isBlank (h c hc)]
  rfl

/-- What is of ASCII or blank. Of these characters only the capital letters have a lower case. -/
def isPlain (c : Char) : Bool :=
  c.toNat < 128 || isBlank c

theorem lowerChar_of_isPlain {c : Char} (h : isPlain c = true) : lowerChar c = [c.toLower] := by
  by_cases hc : c.toNat < 128
  · rw [lowerChar, if_pos hc]
  · have hblank : isBlank c = true := by simpa [isPlain, hc] using h
    have hall : blankPoints.all (fun n => decide (lowerChar (Char.ofNat n) = [Char.ofNat n])) =
        true := by
      decide
    have hlower := List.all_eq_true.mp hall _ (mem_blankPoints hblank)
    rw [Char.ofNat_toNat, decide_eq_true_eq] at hlower
    rw [hlower, toLower_of_not_ascii hc]

theorem isPlain_toLower (c : Char) : isPlain c.toLower = isPlain c := by
  by_cases hc : c.toNat < 128
  · exact forall_ascii (P := fun c => isPlain c.toLower = isPlain c) (by decide) hc
  · rw [toLower_of_not_ascii hc]

end Text

namespace Prose

open Text

/-! ## The core of a phrase -/

/-- The part of a phrase from its first letter or digit to its last one. -/
def core (cs : List Char) : List Char :=
  trimBy (fun c => !isAlphanumeric c) cs

/-- A phrase with nothing but ASCII and blanks in its core. -/
def Plain (cs : List Char) : Prop :=
  ∀ c ∈ core cs, isPlain c = true

theorem plain_of_ascii {cs : List Char} (h : ∀ c ∈ cs, c.toNat < 128) : Plain cs := by
  obtain ⟨before, after, hcs, -⟩ := exists_append_trimBy (fun c => !isAlphanumeric c) cs
  intro c hc
  have hmem : c ∈ cs := by
    rw [hcs]
    exact List.mem_append_left after (List.mem_append_right before hc)
  simp [isPlain, h c hmem]

/-- Blanks at the ends are no letters or digits either. -/
theorem core_trim (cs : List Char) : core (trim cs) = core cs := by
  obtain ⟨before, after, hcs, hbefore, hafter, -⟩ := exists_append_trimBy isBlank cs
  have hsame := trimBy_append_of_all (not_isAlphanumeric_of_blank hbefore) (trim cs)
    (not_isAlphanumeric_of_blank hafter)
  exact hsame.symm.trans (congrArg core hcs.symm)

theorem core_map_toLower (cs : List Char) :
    core (cs.map Char.toLower) = (core cs).map Char.toLower :=
  trimBy_map (fun c => by rw [isAlphanumeric_toLower]) cs

theorem isAlphanumeric_ends_core (cs : List Char) :
    (∀ c ∈ (core cs).head?, isAlphanumeric c = true) ∧
      ∀ c ∈ (core cs).getLast?, isAlphanumeric c = true := by
  obtain ⟨-, -, -, -, -, hfirst, hlast⟩ :=
    exists_append_trimBy (fun c => !isAlphanumeric c) cs
  exact ⟨fun c hc => (Bool.not_eq_false' ..).mp (hfirst c hc),
    fun c hc => (Bool.not_eq_false' ..).mp (hlast c hc)⟩

/-- The words that a phrase is looked up by. -/
def keyWords (cs : List Char) : List (List Char) :=
  words ((core cs).map Char.toLower)

theorem normalize_eq {cs : List Char} (h : Plain cs) : normalize cs = join [' '] (keyWords cs) := by
  have hcore : trimBy (fun c => !isAlphanumeric c) (trim cs) = core cs := core_trim cs
  rw [normalize, hcore, lowercase_eq_map fun c hc => lowerChar_of_isPlain (h c hc), keyWords]

/-! ## Changes of a spelling -/

/-- One change of a spelling. -/
inductive Respelled : List Char → List Char → Prop
  /-- Letters in the other case. -/
  | letterCase {cs ds : List Char} (h : cs.map Char.toLower = ds.map Char.toLower) :
      Respelled cs ds
  /-- Characters around the phrase that are neither letters nor digits. -/
  | margins {before cs after : List Char} (hbefore : ∀ c ∈ before, isAlphanumeric c = false)
      (hafter : ∀ c ∈ after, isAlphanumeric c = false) : Respelled cs (before ++ cs ++ after)
  /-- Other blanks in a gap, and more or fewer of them. -/
  | gap {before blanks blanks' after : List Char} (hne : blanks ≠ []) (hne' : blanks' ≠ [])
      (hblanks : ∀ c ∈ blanks, isBlank c = true) (hblanks' : ∀ c ∈ blanks', isBlank c = true) :
      Respelled (before ++ blanks ++ after) (before ++ blanks' ++ after)

theorem plain_iff_lower {cs : List Char} :
    Plain cs ↔ ∀ c ∈ (core cs).map Char.toLower, isPlain c = true := by
  simp only [Plain, List.forall_mem_map, isPlain_toLower]

theorem keyWords_of_core {cs front blanks back : List Char}
    (hcore : core cs = front ++ blanks ++ back) (hne : blanks ≠ [])
    (hblanks : ∀ c ∈ blanks, isBlank c = true) :
    keyWords cs = words (front.map Char.toLower) ++ words (back.map Char.toLower) := by
  have hlower : blanks.map Char.toLower = blanks :=
    (List.map_congr_left fun c hc => toLower_of_isBlank (hblanks c hc)).trans (List.map_id _)
  rw [keyWords, hcore, List.map_append, List.map_append, hlower, words_append_gap hne hblanks]

theorem plain_of_core {cs front blanks back : List Char}
    (hcore : core cs = front ++ blanks ++ back) (hblanks : ∀ c ∈ blanks, isBlank c = true) :
    Plain cs ↔ (∀ c ∈ front, isPlain c = true) ∧ ∀ c ∈ back, isPlain c = true := by
  have hplain : ∀ c ∈ blanks, isPlain c = true := fun c hc => by simp [isPlain, hblanks c hc]
  rw [Plain, hcore, List.forall_mem_append, List.forall_mem_append]
  exact ⟨fun h => ⟨h.1.1, h.2⟩, fun h => ⟨⟨h.1, hplain⟩, h.2⟩⟩

/-- No change reaches the words. -/
theorem Respelled.alike {cs ds : List Char} (h : Respelled cs ds) :
    (Plain cs ↔ Plain ds) ∧ keyWords cs = keyWords ds := by
  cases h with
  | letterCase h =>
      have hcore : (core cs).map Char.toLower = (core ds).map Char.toLower := by
        rw [← core_map_toLower, h, core_map_toLower]
      rw [plain_iff_lower, plain_iff_lower, keyWords, keyWords, hcore]
      exact ⟨Iff.rfl, rfl⟩
  | @margins before cs after hbefore hafter =>
      have hcore : core (before ++ cs ++ after) = core cs :=
        trimBy_append_of_all (fun c hc => by rw [hbefore c hc]; rfl) cs
          fun c hc => by rw [hafter c hc]; rfl
      rw [Plain, Plain, keyWords, keyWords, hcore]
      exact ⟨Iff.rfl, rfl⟩
  | @gap before blanks blanks' after hne hne' hblanks hblanks' =>
      have hdropped := not_isAlphanumeric_of_blank hblanks
      have hdropped' := not_isAlphanumeric_of_blank hblanks'
      rcases trimBy_gap (fun c => !isAlphanumeric c) before after with
        ⟨rest, hrest⟩ | ⟨front, back, hsides⟩
      · have hcore : core (before ++ blanks ++ after) = core (before ++ blanks' ++ after) :=
          (hrest blanks hdropped).trans (hrest blanks' hdropped').symm
        rw [Plain, Plain, keyWords, keyWords, hcore]
        exact ⟨Iff.rfl, rfl⟩
      · have hcore := hsides blanks hdropped
        have hcore' := hsides blanks' hdropped'
        rw [plain_of_core hcore hblanks, plain_of_core hcore' hblanks',
          keyWords_of_core hcore hne hblanks, keyWords_of_core hcore' hne' hblanks']
        exact ⟨Iff.rfl, rfl⟩

/-- Nor does any number of them, made or undone. -/
theorem alike_of_eqvGen {cs ds : List Char} (h : Relation.EqvGen Respelled cs ds) :
    (Plain cs ↔ Plain ds) ∧ keyWords cs = keyWords ds := by
  induction h with
  | rel cs ds h => exact h.alike
  | refl cs => exact ⟨Iff.rfl, rfl⟩
  | symm cs ds _ ih => exact ⟨ih.1.symm, ih.2.symm⟩
  | trans cs ds es _ _ ih ih' => exact ⟨ih.1.trans ih'.1, ih.2.trans ih'.2⟩

/-! ## What is normalised already -/

theorem mem_normalize {cs : List Char} (h : Plain cs) {c : Char} (hc : c ∈ normalize cs) :
    c.toNat < 128 ∧ c.toLower = c := by
  rw [normalize_eq h] at hc
  rcases mem_join hc with hspace | ⟨w, hw, hc⟩
  · rw [List.mem_singleton.mp hspace]
    decide
  · have hmem := mem_of_mem_words hw hc
    have hplain := plain_iff_lower.mp h c hmem
    have hblank := (isWord_of_mem_words hw).2 c hc
    obtain ⟨d, -, rfl⟩ := List.mem_map.mp hmem
    exact ⟨by simpa [isPlain, hblank] using hplain, toLower_toLower d⟩

theorem core_normalize {cs : List Char} (h : Plain cs) : core (normalize cs) = normalize cs := by
  obtain ⟨hfirst, hlast⟩ := isAlphanumeric_ends_core (cs.map Char.toLower)
  rw [core_map_toLower] at hfirst hlast
  have hblank {c : Char} (hc : isAlphanumeric c = true) : isBlank c = false :=
    Bool.eq_false_iff.mpr fun hblank => by
      rw [isAlphanumeric_of_isBlank hblank] at hc
      cases hc
  rw [normalize_eq h]
  refine trimBy_eq_self (fun c hc => ?_) fun c hc => ?_
  · rw [keyWords, head?_join_words fun d hd => hblank (hfirst d hd)] at hc
    rw [hfirst c hc]
    rfl
  · rw [keyWords, getLast?_join_words fun d hd => hblank (hlast d hd)] at hc
    rw [hlast c hc]
    rfl

theorem normalize_normalize {cs : List Char} (h : Plain cs) :
    normalize (normalize cs) = normalize cs := by
  have hplain : Plain (normalize cs) := plain_of_ascii fun c hc => (mem_normalize h hc).1
  have hlower : (normalize cs).map Char.toLower = normalize cs :=
    (List.map_congr_left fun c hc => (mem_normalize h hc).2).trans (List.map_id _)
  have hwords : words (normalize cs) = keyWords cs := by
    rw [normalize_eq h]
    exact words_join (by decide) fun w hw => isWord_of_mem_words hw
  rw [normalize_eq hplain, keyWords, core_normalize h, hlower, hwords, normalize_eq h]

/-! ## Stored conditions -/

theorem conditionId_congr {cs ds : List Char} (h : normalize cs = normalize ds) :
    conditionId cs = conditionId ds := by
  unfold conditionId condition? key
  rw [h]

/-- A phrase is stored as a known condition or as it is looked up. -/
theorem conditionId_cases (cs : List Char) :
    conditionId cs ∈ conditions ∨ conditionId cs = key cs := by
  unfold conditionId
  cases h : condition? cs with
  | none => exact .inr rfl
  | some c => exact .inl (condition?_eq_some_iff.mp h).mem

/-- The known conditions are stored as themselves. -/
theorem conditionId_of_mem_conditions : ∀ c ∈ conditions, conditionId c.toList = c := by
  decide +kernel

/-- What a phrase in ASCII is stored as is stored as itself, and so are all spellings of the phrase
that differ from it in the case of letters, in what stands around it and in the blanks of its gaps
only. -/
theorem conditionId_respelled {cs : List Char} (hascii : ∀ c ∈ cs, c.toNat < 128) :
    conditionId (conditionId cs).toList = conditionId cs ∧
      ∀ ds, Relation.EqvGen Respelled cs ds → conditionId ds = conditionId cs := by
  have hplain := plain_of_ascii hascii
  refine ⟨?_, fun ds h => ?_⟩
  · rcases conditionId_cases cs with hknown | hkey
    · exact conditionId_of_mem_conditions _ hknown
    · rw [hkey, key, String.toList_ofList, conditionId_congr (normalize_normalize hplain), hkey,
        key]
  · obtain ⟨hiff, hwords⟩ := alike_of_eqvGen h
    refine conditionId_congr ?_
    rw [normalize_eq hplain, normalize_eq (hiff.mp hplain), hwords]

/-- Another name of a known condition, in capitals, with a wider gap and between asterisks. -/
theorem conditionId_respelled_knockedProne :
    conditionId (conditionId "knocked prone".toList).toList = conditionId "knocked prone".toList ∧
      conditionId "*KNOCKED\t\tPRONE*".toList = conditionId "knocked prone".toList := by
  have hcapitals : Respelled "knocked prone".toList "KNOCKED PRONE".toList :=
    .letterCase (by decide)
  have htabs : ∀ c ∈ ['\t', '\t'], isBlank c = true := List.all_eq_true.mp rfl
  have hgap : Respelled "KNOCKED PRONE".toList "KNOCKED\t\tPRONE".toList :=
    @Respelled.gap "KNOCKED".toList [' '] ['\t', '\t'] "PRONE".toList (by decide) (by decide)
      (List.forall_mem_singleton.mpr rfl) htabs
  have hstar : ∀ c ∈ ['*'], isAlphanumeric c = false :=
    List.forall_mem_singleton.mpr (by decide)
  have hstars : Respelled "KNOCKED\t\tPRONE".toList "*KNOCKED\t\tPRONE*".toList :=
    @Respelled.margins ['*'] "KNOCKED\t\tPRONE".toList ['*'] hstar hstar
  have hall : "knocked prone".toList.all (fun c => decide (c.toNat < 128)) = true := by
    decide
  have hascii : ∀ c ∈ "knocked prone".toList, c.toNat < 128 :=
    fun c hc => of_decide_eq_true (List.all_eq_true.mp hall c hc)
  obtain ⟨hstored, hspellings⟩ := conditionId_respelled hascii
  exact ⟨hstored, hspellings _
    (.trans _ _ _ (.rel _ _ hcapitals) (.trans _ _ _ (.rel _ _ hgap) (.rel _ _ hstars)))⟩

end Prose

end Spellwork
