import Spellwork.Proofs.CutFormulas
import Spellwork.Proofs.Preferences
import Spellwork.Prose.Save

/-!
# The word orders of saving throws

A word order names an ability and, behind the letters DC, a number. Some orders put the number
first, the others the ability. However an order is matched at a place, it names the same ability
and a number that begins at the same character; the preferred way takes all of its digits
(`exists_namesWhole`).
-/

namespace Spellwork

open Text Pattern

namespace Text

/-! ## ASCII -/

theorem forall_ascii {P : Char → Prop} (h : ∀ n < 128, P (Char.ofNat n)) {x : Char}
    (hx : x.toNat < 128) : P x := by
  have hp := h x.toNat hx
  rwa [Char.ofNat_toNat] at hp

theorem foldLetter_ascii {x : Char} (hx : x.toNat < 128) : foldLetter x = x.toLower :=
  forall_ascii (P := fun x => foldLetter x = x.toLower) (by decide) hx

/-- The letters in either case. Besides ASCII there are the long s and the kelvin sign. -/
def letters : List Char :=
  'ſ' :: '\u212a' :: "abcdefghijklmnopqrstuvwxyzABCDEFGHIJKLMNOPQRSTUVWXYZ".toList

theorem mem_letters_of_isLetter {x : Char} (h : isLetter x = true) : x ∈ letters := by
  by_cases hascii : x.toNat < 128
  · exact forall_ascii (P := fun x => isLetter x = true → x ∈ letters) (by decide) hascii h
  · unfold isLetter foldLetter at h
    split at h
    · rename_i hlong
      exact hlong ▸ List.mem_cons_self
    · split at h
      · rename_i hkelvin
        exact hkelvin ▸ List.mem_cons_of_mem _ List.mem_cons_self
      · -- any other character stands for itself, and the letters are ASCII
        exfalso
        have hsmall : x.toLower.toNat ≤ 122 :=
          UInt32.le_iff_toNat_le.mp (of_decide_eq_true (Bool.and_eq_true_iff.mp h).2)
        have hself : x.toLower = x := by
          unfold Char.toLower
          rw [dif_neg]
          rintro ⟨-, hle⟩
          have hle' : x.toNat ≤ 90 := UInt32.le_iff_toNat_le.mp hle
          omega
        rw [hself] at hsmall
        omega

theorem forall_letter {p : Char → Bool} (h : letters.all p = true) {x : Char}
    (hx : isLetter x = true) : p x = true :=
  List.all_eq_true.mp h x (mem_letters_of_isLetter hx)

theorem isWordChar_of_isLetter {x : Char} (h : isLetter x = true) : isWordChar x = true :=
  forall_letter (by decide +kernel) h

theorem isBlank_of_isLetter {x : Char} (h : isLetter x = true) : isBlank x = false := by
  have hall : letters.all (fun x => !isBlank x) = true := by decide
  simpa using forall_letter hall h

/-- A word in either case. -/
def Spells (word : String) (cs : List Char) : Prop :=
  cs.map foldLetter = word.toList

theorem isLetter_of_foldLetter {x c : Char} (h : foldLetter x = c) (hc : 'a' ≤ c ∧ c ≤ 'z') :
    isLetter x = true := by
  rw [isLetter, h]
  simp [hc]

/-- There is one way to cut off the characters of a class. -/
theorem append_inj_of_all {p : Char → Bool} {w w' r r' : List Char} (h : w ++ r = w' ++ r')
    (hw : ∀ x ∈ w, p x = true) (hw' : ∀ x ∈ w', p x = true) (hr : ∀ x ∈ r.head?, p x = false)
    (hr' : ∀ x ∈ r'.head?, p x = false) : w = w' ∧ r = r' := by
  have hrest : r = r' := by
    have hdrop := congrArg (List.dropWhile p) h
    rwa [dropWhile_append_of_all hw, dropWhile_append_of_all hw', dropWhile_eq_self hr,
      dropWhile_eq_self hr'] at hdrop
  subst hrest
  exact ⟨List.append_cancel_right h, rfl⟩

theorem forall_head?_append {P : Char → Prop} {cs : List Char} (hne : cs ≠ [])
    (h : ∀ x ∈ cs, P x) (tail : List Char) : ∀ x ∈ (cs ++ tail).head?, P x := by
  obtain ⟨y, cs, rfl⟩ := List.exists_cons_of_ne_nil hne
  intro x hx
  cases hx
  exact h y List.mem_cons_self

end Text

namespace Text.Pattern

/-! ## Texts and choices -/

theorem mem_language_text {s : String} {cs : List Char} :
    cs ∈ (text s).language ↔ cs.map foldLetter = s.toList := by
  unfold text
  induction s.toList generalizing cs with
  | nil => exact List.map_eq_nil_iff.symm
  | cons x letters ih =>
      rw [List.map_cons, mem_language_all_cons, List.map_eq_cons_iff]
      constructor
      · rintro ⟨_, ⟨y, hy, rfl⟩, after, hafter, rfl⟩
        exact ⟨y, after, rfl, of_decide_eq_true hy, ih.mp hafter⟩
      · rintro ⟨y, after, rfl, hy, hafter⟩
        exact ⟨[y], ⟨y, decide_eq_true hy, rfl⟩, after, ih.mpr hafter, rfl⟩

theorem mem_language_any {ps : List Pattern} {cs : List Char} :
    cs ∈ (any ps).language ↔ ∃ p ∈ ps, cs ∈ p.language := by
  fun_induction any ps with
  | case1 =>
      refine iff_of_false ?_ (by simp)
      rintro ⟨_, hx, -⟩
      cases hx
  | case2 p => simp
  | case3 p ps _ ih =>
      rw [mem_language_alt, ih]
      simp

/-- The characters that a match may take. -/
def takes : Pattern → Char → Bool
  | one accepts, x => accepts x
  | seq first second, x => first.takes x || second.takes x
  | alt first second, x => first.takes x || second.takes x
  | many _ body, x => body.takes x
  | group _ body, x => body.takes x
  | _, _ => false

theorem takes_of_mem_language {p : Pattern} {cs : List Char} (h : cs ∈ p.language) :
    ∀ x ∈ cs, p.takes x = true := by
  induction p generalizing cs with
  | one accepts =>
      obtain ⟨x, hx, rfl⟩ := h
      exact List.forall_mem_singleton.mpr hx
  | seq first second ih₁ ih₂ =>
      obtain ⟨before, hbefore, after, hafter, rfl⟩ := mem_language_seq.mp h
      refine List.forall_mem_append.mpr ⟨fun x hx => ?_, fun x hx => ?_⟩
      · exact Bool.or_eq_true_iff.mpr (Or.inl (ih₁ hbefore x hx))
      · exact Bool.or_eq_true_iff.mpr (Or.inr (ih₂ hafter x hx))
  | alt first second ih₁ ih₂ =>
      intro x hx
      exact Bool.or_eq_true_iff.mpr
        ((mem_language_alt.mp h).imp (fun h => ih₁ h x hx) fun h => ih₂ h x hx)
  | many greedy body ih =>
      obtain ⟨parts, rfl, hparts⟩ := mem_language_many.mp h
      intro x hx
      obtain ⟨part, hpart, hx⟩ := List.mem_flatten.mp hx
      exact ih (hparts part hpart) x hx
  | group label body ih => exact ih h
  | empty | textStart | lineEnd | wordEdge =>
      obtain rfl : cs = [] := h
      exact List.forall_mem_nil _

theorem matches_wordEdge_iff {c d : Cursor} :
    Matches wordEdge c d ↔ d = c ∧ c.atWordEdge = true := by
  constructor
  · intro h
    cases h with
    | wordEdge hedge => exact ⟨rfl, hedge⟩
  · rintro ⟨rfl, hedge⟩
    exact .wordEdge hedge

/-- At the edge of a word that ends here no other one begins. -/
theorem not_wordChar_of_atWordEdge {c : Cursor} {a : Char} (hbefore : c.before = some a)
    (ha : isWordChar a = true) (hedge : c.atWordEdge = true) :
    ∀ x ∈ c.rest.head?, isWordChar x = false := by
  intro x hx
  rw [Cursor.atWordEdge, hbefore, Option.any_some, ha, Option.mem_def.mp hx,
    Option.any_some] at hedge
  simpa using hedge

theorem matches_all_append_iff {ps qs : List Pattern} {c e : Cursor} :
    Matches (all (ps ++ qs)) c e ↔ ∃ d, Matches (all ps) c d ∧ Matches (all qs) d e := by
  induction ps generalizing c with
  | nil => simp [matches_all_nil_iff]
  | cons p ps ih =>
      simp only [List.cons_append, matches_all_cons_iff, ih]
      constructor
      · rintro ⟨d, hp, d', hps, hqs⟩
        exact ⟨d', ⟨d, hp, hps⟩, hqs⟩
      · rintro ⟨d', ⟨d, hp, hps⟩, hqs⟩
        exact ⟨d, hp, d', hps, hqs⟩

end Text.Pattern

namespace Prose

/-! ## Abilities -/

/-- The words for abilities, in lower case. -/
def abilityWords : List String :=
  ["str", "dex", "int", "wil", "wis", "strength", "dexterity", "intelligence", "will", "wisdom"]

theorem exists_word_of_statWord {stat : List Char} (h : stat ∈ statWord.language) :
    ∃ w ∈ abilityWords, stat.map foldLetter = w.toList := by
  obtain ⟨p, hp, hstat⟩ := mem_language_any.mp h
  obtain ⟨w, hw, rfl⟩ := List.mem_map.mp hp
  exact ⟨w, hw, mem_language_text.mp hstat⟩

theorem isLetter_of_statWord {stat : List Char} (h : stat ∈ statWord.language) :
    ∀ x ∈ stat, isLetter x = true := by
  obtain ⟨w, hw, hstat⟩ := exists_word_of_statWord h
  have hlower : abilityWords.all (fun w => w.toList.all fun x => 'a' ≤ x && x ≤ 'z') = true := by
    decide
  intro x hx
  exact List.all_eq_true.mp (List.all_eq_true.mp hlower w hw) _ (hstat ▸ List.mem_map_of_mem hx)

theorem ne_nil_of_statWord {stat : List Char} (h : stat ∈ statWord.language) : stat ≠ [] := by
  rintro rfl
  obtain ⟨w, hw, hstat⟩ := exists_word_of_statWord h
  have hne : ∀ w ∈ abilityWords, w.toList ≠ [] := by decide
  exact hne w hw hstat.symm

/-- What a match of an ability covers and captures. -/
theorem exists_stat_of_matches {c e : Cursor} (h : Matches statToken c e) :
    ∃ stat ∈ statWord.language, Covers stat c e ∧
      e.groups = (statGroup, ⟨c.offset, c.offset + stat.length⟩) :: c.groups ∧
      ∀ x ∈ e.rest.head?, isWordChar x = false := by
  simp only [statToken, matches_all_cons_iff, matches_all_nil_iff, matches_wordEdge_iff,
    matches_group_iff] at h
  obtain ⟨b, ⟨hb, -⟩, _, ⟨d, hstat, rfl⟩, _, ⟨rfl, hedge⟩, rfl⟩ := h
  rw [hb] at hstat hedge ⊢
  obtain ⟨stat, hlanguage, hcovers⟩ := hstat.covers
  obtain ⟨stat', hcovers', hbefore⟩ := hstat.exists_covers_before
  obtain rfl : stat = stat' := List.append_cancel_right (hcovers.1.symm.trans hcovers'.1)
  refine ⟨stat, hlanguage, hcovers, ?_, ?_⟩
  · rw [hstat.groups_eq (by decide), hcovers.2]
  · -- the last letter belongs to a word, so what stands behind does not
    have hne := ne_nil_of_statWord hlanguage
    have hlast : stat.getLast hne ∈ stat := List.getLast_mem hne
    have hword := isWordChar_of_isLetter (isLetter_of_statWord hlanguage _ hlast)
    have hd := hbefore c.before.toList (by cases c.before <;> rfl)
    rw [List.getLast?_append_of_ne_nil _ hne, List.getLast?_eq_some_getLast hne] at hd
    exact not_wordChar_of_atWordEdge hd hword hedge

/-! ## Numbers -/

/-- The letters DC and blanks. -/
def IsDC (cs : List Char) : Prop :=
  ∃ d c blank, cs = d :: c :: blank ∧ foldLetter d = 'd' ∧ foldLetter c = 'c' ∧
    ∀ x ∈ blank, isBlank x = true

theorem mem_language_dc {cs : List Char} : cs ∈ (all [text "dc", blanks]).language ↔ IsDC cs := by
  rw [mem_language_all_cons]
  constructor
  · rintro ⟨letters, hletters, last, hlast, rfl⟩
    obtain ⟨blank, hblank, _, rfl, rfl⟩ := mem_language_all_cons.mp hlast
    obtain ⟨d, letters, rfl, hd, hmap⟩ := List.map_eq_cons_iff.mp (mem_language_text.mp hletters)
    obtain ⟨c, letters, rfl, hc, hmap⟩ := List.map_eq_cons_iff.mp hmap
    obtain rfl := List.map_eq_nil_iff.mp hmap
    exact ⟨d, c, blank, by simp, hd, hc, mem_language_many_one.mp hblank⟩
  · rintro ⟨d, c, blank, rfl, hd, hc, hblank⟩
    exact ⟨[d, c], mem_language_text.mpr (by simp [hd, hc]), blank, mem_language_all_cons.mpr
      ⟨blank, mem_language_many_one.mpr hblank, [], rfl, List.append_nil blank⟩, rfl⟩

/-- Digits, at least one. -/
def IsNumber (cs : List Char) : Prop :=
  cs ≠ [] ∧ ∀ x ∈ cs, isDecimalDigit x = true

/-- What a match of a number covers and captures. -/
theorem exists_number_of_matches {c e : Cursor} (h : Matches dcToken c e) :
    ∃ dc ds, IsDC dc ∧ IsNumber ds ∧ Covers (dc ++ ds) c e ∧ e.groups =
      (dcGroup, ⟨c.offset + dc.length, c.offset + dc.length + ds.length⟩) :: c.groups := by
  rw [show dcToken = all ([wordEdge, text "dc", blanks] ++ [group dcGroup digits]) from rfl,
    matches_all_append_iff] at h
  obtain ⟨b, hdc, hdigits⟩ := h
  simp only [matches_all_cons_iff, matches_all_nil_iff, matches_group_iff] at hdigits
  obtain ⟨_, ⟨e, hdigits, rfl⟩, rfl⟩ := hdigits
  obtain ⟨dc, hlanguage, hcovers⟩ := hdc.covers
  obtain ⟨ds, hnumber, hcovers'⟩ := hdigits.covers
  refine ⟨dc, ds, ?_, mem_language_many1_one.mp hnumber, hcovers.trans hcovers', ?_⟩
  · obtain ⟨_, rfl, letters, hletters, rfl⟩ := mem_language_all_cons.mp hlanguage
    exact mem_language_dc.mp hletters
  · rw [hdigits.groups_eq rfl, hdc.groups_eq rfl, hcovers'.2, hcovers.2]

theorem IsNumber.head {ds : List Char} (h : IsNumber ds) (tail : List Char) :
    ∀ x ∈ (ds ++ tail).head?, isDecimalDigit x = true :=
  forall_head?_append h.1 h.2 tail

theorem isDecimalDigit_of_isBlank {x : Char} (h : isBlank x = true) : isDecimalDigit x = false :=
  Bool.eq_false_iff.mpr fun hdigit =>
    Bool.false_ne_true ((isBlank_of_isDecimalDigit hdigit).symm.trans h)

/-- The letters DC end where the number begins. -/
theorem IsDC.unique {dc dc' ds ds' tail tail' : List Char} (hdc : IsDC dc) (hdc' : IsDC dc')
    (hds : IsNumber ds) (hds' : IsNumber ds') (h : dc ++ (ds ++ tail) = dc' ++ (ds' ++ tail')) :
    dc = dc' ∧ ds ++ tail = ds' ++ tail' := by
  obtain ⟨d, c, blank, rfl, -, -, hblank⟩ := hdc
  obtain ⟨d', c', blank', rfl, -, -, hblank'⟩ := hdc'
  simp only [List.cons_append, List.cons.injEq] at h
  obtain ⟨rfl, rfl, h⟩ := h
  obtain ⟨rfl, hrest⟩ := append_inj_of_all h hblank hblank'
    (fun x hx => isBlank_of_isDecimalDigit (hds.head tail x hx))
    fun x hx => isBlank_of_isDecimalDigit (hds'.head tail' x hx)
  exact ⟨rfl, hrest⟩

/-! ## The number first -/

/-- A text that begins with a number and names an ability behind it. -/
structure NumberFirst (rest dc ds blank stat behind : List Char) : Prop where
  split : rest = dc ++ (ds ++ (blank ++ (stat ++ behind)))
  dc : IsDC dc
  number : IsNumber ds
  blank_ne_nil : blank ≠ []
  blank : ∀ x ∈ blank, isBlank x = true
  stat : stat ∈ statWord.language
  behind : ∀ x ∈ behind.head?, isWordChar x = false

theorem NumberFirst.behind_number {rest dc ds blank stat behind : List Char}
    (h : NumberFirst rest dc ds blank stat behind) :
    ∀ x ∈ (blank ++ (stat ++ behind)).head?, isDecimalDigit x = false := fun x hx =>
  isDecimalDigit_of_isBlank (forall_head?_append h.blank_ne_nil h.blank _ x hx)

theorem NumberFirst.unique {rest dc ds blank stat behind dc' ds' blank' stat' behind' : List Char}
    (h : NumberFirst rest dc ds blank stat behind)
    (h' : NumberFirst rest dc' ds' blank' stat' behind') :
    dc = dc' ∧ ds = ds' ∧ blank = blank' ∧ stat = stat' := by
  have hword {stat : List Char} (hstat : stat ∈ statWord.language) (behind : List Char) :
      (∀ x ∈ stat, isWordChar x = true) ∧ ∀ x ∈ (stat ++ behind).head?, isBlank x = false := by
    have hletters := isLetter_of_statWord hstat
    exact ⟨fun x hx => isWordChar_of_isLetter (hletters x hx),
      forall_head?_append (ne_nil_of_statWord hstat)
        (fun x hx => isBlank_of_isLetter (hletters x hx)) behind⟩
  obtain ⟨hletters, hstart⟩ := hword h.stat behind
  obtain ⟨hletters', hstart'⟩ := hword h'.stat behind'
  obtain ⟨hdc, hrest⟩ := h.dc.unique h'.dc h.number h'.number (h.split.symm.trans h'.split)
  obtain ⟨hds, hrest⟩ :=
    append_inj_of_all hrest h.number.2 h'.number.2 h.behind_number h'.behind_number
  obtain ⟨hblank, hrest⟩ := append_inj_of_all hrest h.blank h'.blank hstart hstart'
  exact ⟨hdc, hds, hblank, (append_inj_of_all hrest hletters hletters' h.behind h'.behind).1⟩

theorem exists_numberFirst {tail : List Pattern} (htail : (all tail).groups = [])
    {past rest : List Char} {d : Cursor}
    (h : Matches (all (dcToken :: gap :: statToken :: tail)) (.between past rest) d) :
    ∃ dc ds blank stat behind, NumberFirst rest dc ds blank stat behind ∧
      d.groups = [(statGroup, ⟨(past ++ (dc ++ (ds ++ blank))).length,
          (past ++ (dc ++ (ds ++ blank)) ++ stat).length⟩),
        (dcGroup, ⟨(past ++ dc).length, (past ++ dc ++ ds).length⟩)] := by
  simp only [matches_all_cons_iff] at h
  obtain ⟨a, hnumber, b, hgap, e, hstat, htailed⟩ := h
  obtain ⟨dc, ds, hdc, hds, hcovers, hgroups⟩ := exists_number_of_matches hnumber
  obtain ⟨blank, hblank, hcovers'⟩ := hgap.covers
  obtain ⟨hne, hblank⟩ := mem_language_many1_one.mp hblank
  have hsplit : rest = dc ++ (ds ++ (blank ++ b.rest)) := by
    rw [← hcovers'.1, ← List.append_assoc]
    exact hcovers.1
  obtain ⟨stat, hlanguage, hcovers'', hgroups', hbehind⟩ := exists_stat_of_matches hstat
  refine ⟨dc, ds, blank, stat, e.rest, ⟨?_, hdc, hds, hne, hblank, hlanguage, hbehind⟩, ?_⟩
  · rw [hsplit, hcovers''.1]
  · have hoffset : b.offset = (past ++ (dc ++ (ds ++ blank))).length := by
      rw [hcovers'.2, hcovers.2]
      simp [Cursor.between, Nat.add_assoc]
    rw [htailed.groups_eq htail, hgroups', hgap.groups_eq rfl, hgroups, hoffset]
    simp [Cursor.between, Nat.add_assoc]

/-! ## The ability first -/

/-- A text that begins with an ability and goes on to a number. -/
structure AbilityFirst (rest stat middle dc ds behind : List Char) : Prop where
  split : rest = stat ++ (middle ++ (dc ++ (ds ++ behind)))
  stat : stat ∈ statWord.language
  edge : ∀ x ∈ (middle ++ (dc ++ (ds ++ behind))).head?, isWordChar x = false
  middle : ∀ x ∈ middle, x ∉ ['d', 'D']
  dc : IsDC dc
  number : IsNumber ds

theorem mem_of_foldLetter {x : Char} (h : foldLetter x = 'd') : x ∈ ['d', 'D'] := by
  have hall : letters.all (fun x => foldLetter x ≠ 'd' || ['d', 'D'].contains x) = true := by
    decide
  simpa [h] using forall_letter hall (isLetter_of_foldLetter h (by decide))

theorem AbilityFirst.unique
    {rest stat middle dc ds behind stat' middle' dc' ds' behind' : List Char}
    (h : AbilityFirst rest stat middle dc ds behind)
    (h' : AbilityFirst rest stat' middle' dc' ds' behind') :
    stat = stat' ∧ middle = middle' ∧ dc = dc' ∧ ds ++ behind = ds' ++ behind' := by
  have hword {stat : List Char} (hstat : stat ∈ statWord.language) :
      ∀ x ∈ stat, isWordChar x = true := fun x hx =>
    isWordChar_of_isLetter (isLetter_of_statWord hstat x hx)
  -- the next d behind the ability is that of DC
  let between (x : Char) : Bool := decide (x ∉ ['d', 'D'])
  have hstart {dc tail : List Char} (hdc : IsDC dc) :
      ∀ x ∈ (dc ++ tail).head?, between x = false := by
    obtain ⟨d, c, blank, rfl, hd, -, -⟩ := hdc
    intro x hx
    cases hx
    exact decide_eq_false (not_not.mpr (mem_of_foldLetter hd))
  obtain ⟨rfl, hbehind⟩ := append_inj_of_all (h.split.symm.trans h'.split)
    (hword h.stat) (hword h'.stat) h.edge h'.edge
  obtain ⟨rfl, hmarked⟩ := append_inj_of_all (p := between) hbehind
    (fun x hx => decide_eq_true (h.middle x hx)) (fun x hx => decide_eq_true (h'.middle x hx))
    (hstart h.dc) (hstart h'.dc)
  obtain ⟨rfl, hnumber⟩ := h.dc.unique h'.dc h.number h'.number hmarked
  exact ⟨rfl, rfl, rfl, hnumber⟩

theorem exists_abilityFirst {mid tail : List Pattern} (hmid : (all mid).groups = [])
    (htail : (all tail).groups = []) (hsmall : (all mid).takes 'd' = false)
    (hcapital : (all mid).takes 'D' = false) {past rest : List Char} {b e d : Cursor}
    (hability : Matches (all (statToken :: mid)) (.between past rest) b)
    (hnumber : Matches dcToken b e) (htailed : Matches (all tail) e d) :
    ∃ stat middle dc ds, AbilityFirst rest stat middle dc ds e.rest ∧
      d.groups = [(dcGroup, ⟨(past ++ (stat ++ (middle ++ dc))).length,
          (past ++ (stat ++ (middle ++ dc)) ++ ds).length⟩),
        (statGroup, ⟨past.length, (past ++ stat).length⟩)] := by
  obtain ⟨a, hstat, hmiddle⟩ := matches_all_cons_iff.mp hability
  obtain ⟨stat, hlanguage, hcovers, hgroups, hedge⟩ := exists_stat_of_matches hstat
  obtain ⟨middle, htaken, hcovers'⟩ := hmiddle.covers
  obtain ⟨dc, ds, hdc, hds, hcovers'', hgroups'⟩ := exists_number_of_matches hnumber
  have ha : a.rest = middle ++ (dc ++ (ds ++ e.rest)) := by
    rw [hcovers'.1, hcovers''.1, List.append_assoc]
  refine ⟨stat, middle, dc, ds, ⟨?_, hlanguage, ha ▸ hedge, fun x hx hd => ?_, hdc, hds⟩, ?_⟩
  · rw [← ha]
    exact hcovers.1
  · have htakes := takes_of_mem_language htaken x hx
    simp only [List.mem_cons, List.not_mem_nil, or_false] at hd
    rcases hd with rfl | rfl
    · exact Bool.false_ne_true (hsmall.symm.trans htakes)
    · exact Bool.false_ne_true (hcapital.symm.trans htakes)
  · have hoffset : b.offset = (past ++ (stat ++ middle)).length := by
      rw [hcovers'.2, hcovers.2]
      simp [Cursor.between, Nat.add_assoc]
    rw [htailed.groups_eq htail, hgroups', hmiddle.groups_eq hmid, hgroups, hoffset]
    simp [Cursor.between, Nat.add_assoc]

/-! ## The preferred way takes all digits -/

/-- What follows a number goes on with no digit, or never fails. -/
def EndsNumber (p : Pattern) : Prop :=
  (∀ c, p.run c ≠ []) ∨ p.takesSome = true ∧ ∀ x, isDecimalDigit x = true → p.begins x = false

theorem exists_parts_of_matches {mid tail : List Pattern} {c d : Cursor}
    (h : Matches (all (statToken :: (mid ++ dcToken :: tail))) c d) :
    ∃ b e, Matches (all (statToken :: mid)) c b ∧ Matches dcToken b e ∧ Matches (all tail) e d := by
  rw [← List.cons_append, matches_all_append_iff] at h
  obtain ⟨b, hability, hrest⟩ := h
  obtain ⟨e, hnumber, htail⟩ := matches_all_cons_iff.mp hrest
  exact ⟨b, e, hability, hnumber, htail⟩

theorem exists_parts_of_head {mid tail : List Pattern} (htail : EndsNumber (all tail))
    {c d : Cursor} (h : ((all (statToken :: (mid ++ dcToken :: tail))).run c).head? = some d) :
    ∃ b e, Matches (all (statToken :: mid)) c b ∧ Matches dcToken b e ∧ Matches (all tail) e d ∧
      ∀ x ∈ e.rest.head?, isDecimalDigit x = false := by
  rw [← List.cons_append] at h
  obtain ⟨b, hability, hrest⟩ := exists_of_head_all_append h
  rcases htail with htotal | ⟨hsome, hbegins⟩
  · obtain ⟨e, hnumber, hd⟩ := head_of_head_seq htotal hrest
    refine ⟨b, e, hability, matches_of_mem_run (List.mem_of_head? hnumber),
      matches_of_mem_run (List.mem_of_head? hd), ?_⟩
    have hsplit : dcToken = all ([wordEdge, text "dc", blanks] ++ [group dcGroup digits]) := rfl
    rw [hsplit] at hnumber
    obtain ⟨a, -, hdigits⟩ := exists_of_head_all_append hnumber
    have hempty : ∀ e, empty.run e ≠ [] := fun _ => List.cons_ne_nil _ _
    obtain ⟨e', hcaptured, he⟩ := head_of_head_seq hempty hdigits
    obtain rfl := Option.some.inj he
    have hmap : ((digits.run a).map fun d =>
        { d with groups := (dcGroup, ⟨a.offset, d.offset⟩) :: d.groups }).head? = some e' :=
      hcaptured
    rw [List.head?_map] at hmap
    obtain ⟨e, hpreferred, rfl⟩ := Option.map_eq_some_iff.mp hmap
    have hstop : ∀ x ∈ e.rest.head?, isDecimalDigit x = false :=
      not_accepted_of_head_many1 hpreferred
    exact hstop
  · obtain ⟨e, hnumber, hd⟩ := exists_of_head_seq hrest
    have hmatches := matches_of_mem_run (List.mem_of_head? hd)
    refine ⟨b, e, hability, hnumber, hmatches, fun x hx => Bool.eq_false_iff.mpr fun hdigit => ?_⟩
    obtain ⟨y, after, hrest, hy⟩ := hmatches.begins hsome
    rw [hrest] at hx
    cases hx
    exact Bool.false_ne_true ((hbegins x hdigit).symm.trans hy)

/-! ## What an order names -/

/-- However the pattern is matched at the place, it names this ability and a number that begins
here. -/
structure Names (p : Pattern) (past rest : List Char) (number : Nat) (ability : Span) : Prop where
  number : ∀ d, Matches p (.between past rest) d →
    ∃ stop, d.groups.lookup dcGroup = some ⟨number, stop⟩
  ability : ∀ d, Matches p (.between past rest) d → d.groups.lookup statGroup = some ability

/-- A whole run of digits behind the letters DC. -/
def WholeNumber (cs : List Char) (s : Span) : Prop :=
  ∃ before dc ds after, cs = before ++ (dc ++ (ds ++ after)) ∧ IsDC dc ∧ IsNumber ds ∧
    (∀ x ∈ after.head?, isDecimalDigit x = false) ∧
    s = ⟨(before ++ dc).length, (before ++ dc ++ ds).length⟩

/-- A way to match an order at a place that takes a whole number. -/
structure NamesWhole (p : Pattern) (past rest : List Char) (d : Cursor) (number ability : Span) :
    Prop where
  dc : d.groups.lookup dcGroup = some number
  stat : d.groups.lookup statGroup = some ability
  names : Names p past rest number.start ability
  whole : WholeNumber (past ++ rest) number
  word : slice ability.start ability.stop (past ++ rest) ∈ statWord.language

theorem namesWhole_numberFirst {tail : List Pattern} (htail : (all tail).groups = [])
    {past rest : List Char} {d : Cursor}
    (h : Matches (all (dcToken :: gap :: statToken :: tail)) (.between past rest) d) :
    ∃ number ability,
      NamesWhole (all (dcToken :: gap :: statToken :: tail)) past rest d number ability := by
  obtain ⟨dc, ds, blank, stat, behind, hfirst, hgroups⟩ := exists_numberFirst htail h
  refine ⟨⟨(past ++ dc).length, (past ++ dc ++ ds).length⟩,
    ⟨(past ++ (dc ++ (ds ++ blank))).length, (past ++ (dc ++ (ds ++ blank)) ++ stat).length⟩,
    ?dc, ?stat, ⟨fun d' h' => ?_, fun d' h' => ?_⟩, ?whole, ?word⟩
  case dc =>
    rw [hgroups]
    rfl
  case stat =>
    rw [hgroups]
    rfl
  case whole =>
    exact ⟨past, dc, ds, _, by rw [hfirst.split], hfirst.dc, hfirst.number, hfirst.behind_number,
      rfl⟩
  case word =>
    have hsplit : past ++ rest = past ++ (dc ++ (ds ++ blank)) ++ (stat ++ behind) := by
      simp [hfirst.split]
    rw [hsplit, slice_append]
    exact hfirst.stat
  all_goals
    obtain ⟨dc', ds', blank', stat', behind', hfirst', hgroups'⟩ := exists_numberFirst htail h'
    obtain ⟨rfl, rfl, rfl, rfl⟩ := hfirst.unique hfirst'
    rw [hgroups']
  · exact ⟨_, rfl⟩
  · rfl

theorem namesWhole_abilityFirst (mid tail : List Pattern) (hmid : (all mid).groups = [])
    (htail : (all tail).groups = []) (hsmall : (all mid).takes 'd' = false)
    (hcapital : (all mid).takes 'D' = false) (hends : EndsNumber (all tail))
    {past rest : List Char} {d : Cursor}
    (h : ((all (statToken :: (mid ++ dcToken :: tail))).run (.between past rest)).head? = some d) :
    ∃ number ability,
      NamesWhole (all (statToken :: (mid ++ dcToken :: tail))) past rest d number ability := by
  obtain ⟨b, e, hability, hnumber, htailed, hbehind⟩ := exists_parts_of_head hends h
  obtain ⟨stat, middle, dc, ds, hfirst, hgroups⟩ :=
    exists_abilityFirst hmid htail hsmall hcapital hability hnumber htailed
  refine ⟨⟨(past ++ (stat ++ (middle ++ dc))).length,
      (past ++ (stat ++ (middle ++ dc)) ++ ds).length⟩, ⟨past.length, (past ++ stat).length⟩,
    ?dc, ?stat, ⟨fun d' h' => ?_, fun d' h' => ?_⟩, ?whole, ?word⟩
  case dc =>
    rw [hgroups]
    rfl
  case stat =>
    rw [hgroups]
    rfl
  case whole =>
    refine ⟨past ++ (stat ++ middle), dc, ds, e.rest, ?_, hfirst.dc, hfirst.number, hbehind, ?_⟩
    · simp [hfirst.split]
    · simp
  case word =>
    have hsplit : past ++ rest = past ++ (stat ++ (middle ++ (dc ++ (ds ++ e.rest)))) := by
      simp [hfirst.split]
    rw [hsplit, slice_append]
    exact hfirst.stat
  all_goals
    obtain ⟨b', e', hability', hnumber', htailed'⟩ := exists_parts_of_matches h'
    obtain ⟨stat', middle', dc', ds', hfirst', hgroups'⟩ :=
      exists_abilityFirst hmid htail hsmall hcapital hability' hnumber' htailed'
    obtain ⟨rfl, rfl, rfl, -⟩ := hfirst.unique hfirst'
    rw [hgroups']
  · exact ⟨_, rfl⟩
  · rfl

/-- Where an order is matched, the preferred way names an ability and a whole number. -/
theorem exists_namesWhole {p : Pattern} (hp : p ∈ savePatterns) {past rest : List Char} {d : Cursor}
    (h : (p.run (.between past rest)).head? = some d) :
    ∃ number ability, NamesWhole p past rest d number ability := by
  have hmatches := matches_of_mem_run (List.mem_of_head? h)
  have hblank {ps : List Pattern} : EndsNumber (all (gap :: ps)) := by
    refine Or.inr ⟨rfl, fun x hx => ?_⟩
    have hbegins : (all (gap :: ps)).begins x = isBlank x := by
      simp [all, gap, many1, begins, takesSome]
    rw [hbegins, isBlank_of_isDecimalDigit hx]
  have hparen {p : Pattern} : EndsNumber (all [opt p]) :=
    Or.inl fun c => by simp [all, opt, run]
  have hnothing : EndsNumber (all []) := Or.inl fun c => List.cons_ne_nil _ _
  have hclose : EndsNumber (all [blanks, char ')']) := by
    refine Or.inr ⟨rfl, fun x hx => ?_⟩
    have hne : x ≠ ')' := by
      rintro rfl
      exact absurd hx (by decide)
    simp [all, blanks, char, begins, takesSome, isBlank_of_isDecimalDigit hx, hne]
  simp only [savePatterns, List.mem_cons, List.not_mem_nil, or_false] at hp
  rcases hp with rfl | rfl | rfl | rfl | rfl | rfl | rfl | rfl | rfl
  · exact namesWhole_numberFirst rfl hmatches
  · exact namesWhole_numberFirst rfl hmatches
  · exact namesWhole_abilityFirst [gap] _ rfl rfl rfl rfl hblank h
  · exact namesWhole_abilityFirst [gap] _ rfl rfl rfl rfl hblank h
  · exact namesWhole_abilityFirst [gap, savingThrow, beforeDC] _ rfl rfl rfl rfl hparen h
  · exact namesWhole_abilityFirst [gap, text "save", beforeDC] _ rfl rfl rfl rfl hparen h
  · exact namesWhole_numberFirst rfl hmatches
  · exact namesWhole_abilityFirst [gap] _ rfl rfl rfl rfl hnothing h
  · exact namesWhole_abilityFirst [blanks, char '(', blanks] _ rfl rfl rfl rfl hclose h

end Prose

end Spellwork
