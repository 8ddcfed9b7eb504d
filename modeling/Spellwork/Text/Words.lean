import Spellwork.Text.Class

/-!
# Trimming and words

Cutting a text at its blanks: trimmed at both ends, or taken apart into words.
-/

namespace Spellwork.Text

/-- Drops the characters of a class from both ends. -/
def trimBy (drop : Char → Bool) (cs : List Char) : List Char :=
  ((cs.dropWhile drop).reverse.dropWhile drop).reverse

/-- Drops the blanks at both ends. -/
def trim (cs : List Char) : List Char :=
  trimBy isBlank cs

/-- The words of a text, given the letters read so far of the word that is open, last one first. -/
def wordsFrom : (current : List Char) → List Char → List (List Char)
  | [], [] => []
  | current, [] => [current.reverse]
  | current, c :: rest =>
    if isBlank c then
      if current.isEmpty then wordsFrom [] rest else current.reverse :: wordsFrom [] rest
    else wordsFrom (c :: current) rest

/-- The maximal runs of characters that are not blank. -/
def words (cs : List Char) : List (List Char) :=
  wordsFrom [] cs

/-- The texts one after the other, with `separator` between neighbours. -/
def join (separator : List Char) : List (List Char) → List Char
  | [] => []
  | [cs] => cs
  | cs :: rest => cs ++ separator ++ join separator rest

/-- The pieces between the occurrences of a separator; there is always at least one. -/
def splitOn (separator : Char) : List Char → List (List Char)
  | [] => [[]]
  | c :: rest =>
    match splitOn separator rest with
    | [] => [[c]]
    | piece :: pieces => if c = separator then [] :: piece :: pieces else (c :: piece) :: pieces

/-- The parts before and after the first occurrence of a separator, if it occurs. -/
def cutAt (separator : Char) : List Char → Option (List Char × List Char)
  | [] => none
  | c :: rest =>
    if c = separator then some ([], rest)
    else (cutAt separator rest).map fun (before, after) => (c :: before, after)

/-- Whether `needle` occurs in the text. -/
def contains (needle : List Char) : List Char → Bool
  | [] => needle.isEmpty
  | c :: rest => needle.isPrefixOf (c :: rest) || contains needle rest

/-- The characters between two offsets. -/
def slice (start stop : Nat) (cs : List Char) : List Char :=
  (cs.drop start).take (stop - start)

theorem slice_append (past taken behind : List Char) :
    slice past.length (past ++ taken).length (past ++ (taken ++ behind)) = taken := by
  simp [slice]

theorem slice_isInfix (start stop : Nat) (cs : List Char) : slice start stop cs <:+: cs :=
  (List.take_prefix _ _).isInfix.trans (List.drop_suffix _ _).isInfix

/-! ## Laws of trimming -/

theorem dropWhile_append_of_all {p : Char → Bool} {cs ds : List Char} (h : ∀ c ∈ cs, p c = true) :
    (cs ++ ds).dropWhile p = ds.dropWhile p := by
  induction cs with
  | nil => rfl
  | cons c cs ih =>
    rw [List.cons_append, List.dropWhile_cons_of_pos (h c List.mem_cons_self)]
    exact ih fun d hd => h d (List.mem_cons_of_mem c hd)

theorem dropWhile_eq_self {p : Char → Bool} {cs : List Char} (h : ∀ c ∈ cs.head?, p c = false) :
    cs.dropWhile p = cs := by
  cases cs with
  | nil => rfl
  | cons c cs =>
    have hc : p c = false := h c rfl
    rw [List.dropWhile_cons_of_neg (by rw [hc]; exact Bool.false_ne_true)]

/-- A text whose ends are kept is left alone. -/
theorem trimBy_eq_self {p : Char → Bool} {cs : List Char} (first : ∀ c ∈ cs.head?, p c = false)
    (last : ∀ c ∈ cs.getLast?, p c = false) : trimBy p cs = cs := by
  unfold trimBy
  rw [dropWhile_eq_self first, dropWhile_eq_self, List.reverse_reverse]
  intro c hc
  rw [List.head?_reverse] at hc
  exact last c hc

/-- What is dropped may stand on both sides of what is kept. -/
theorem trimBy_append {p : Char → Bool} {before cs after : List Char}
    (hb : ∀ c ∈ before, p c = true) (ha : ∀ c ∈ after, p c = true)
    (first : ∀ c ∈ cs.head?, p c = false) (last : ∀ c ∈ cs.getLast?, p c = false) :
    trimBy p (before ++ cs ++ after) = cs := by
  have hr : ∀ c ∈ after.reverse, p c = true := fun c hc => ha c (List.mem_reverse.mp hc)
  have hlast : ∀ c ∈ cs.reverse.head?, p c = false := by
    intro c hc
    rw [List.head?_reverse] at hc
    exact last c hc
  unfold trimBy
  rw [List.append_assoc, dropWhile_append_of_all hb]
  cases cs with
  | nil =>
    have hnil : after.dropWhile p = [] := by
      have h := @dropWhile_append_of_all p after [] ha
      rwa [List.append_nil] at h
    rw [List.nil_append, hnil]
    rfl
  | cons c cs =>
    have hkeep : (c :: cs ++ after).dropWhile p = c :: cs ++ after := dropWhile_eq_self first
    rw [hkeep, List.reverse_append, dropWhile_append_of_all hr, dropWhile_eq_self hlast,
      List.reverse_reverse]

/-- What is left stands between characters that are dropped, and neither of its ends is one. -/
theorem exists_append_trimBy (p : Char → Bool) (cs : List Char) :
    ∃ before after, cs = before ++ trimBy p cs ++ after ∧ (∀ c ∈ before, p c = true) ∧
      (∀ c ∈ after, p c = true) ∧ (∀ c ∈ (trimBy p cs).head?, p c = false) ∧
      ∀ c ∈ (trimBy p cs).getLast?, p c = false := by
  have hkept : ∀ ds : List Char, ∀ c ∈ (ds.dropWhile p).head?, p c = false := by
    intro ds c hc
    have h := List.head?_dropWhile_not p ds
    rw [Option.mem_def.mp hc] at h
    exact h
  have hfirst : cs.dropWhile p = trimBy p cs ++ ((cs.dropWhile p).reverse.takeWhile p).reverse := by
    unfold trimBy
    rw [← List.reverse_append, List.takeWhile_append_dropWhile, List.reverse_reverse]
  refine ⟨cs.takeWhile p, ((cs.dropWhile p).reverse.takeWhile p).reverse, ?_, ?_, ?_, ?_, ?_⟩
  · rw [List.append_assoc, ← hfirst, List.takeWhile_append_dropWhile]
  · exact List.all_eq_true.mp List.all_takeWhile
  · intro c hc
    exact List.all_eq_true.mp List.all_takeWhile c (List.mem_reverse.mp hc)
  · intro c hc
    refine hkept cs c ?_
    rw [hfirst, List.head?_append, Option.mem_def.mp hc]
    rfl
  · intro c hc
    unfold trimBy at hc
    rw [List.getLast?_reverse] at hc
    exact hkept _ c hc

/-- What is dropped may be put back on both sides. -/
theorem trimBy_append_of_all {p : Char → Bool} {before after : List Char}
    (hb : ∀ c ∈ before, p c = true) (cs : List Char) (ha : ∀ c ∈ after, p c = true) :
    trimBy p (before ++ cs ++ after) = trimBy p cs := by
  obtain ⟨front, back, hcs, hfront, hback, hfirst, hlast⟩ := exists_append_trimBy p cs
  have hsplit : before ++ cs ++ after = (before ++ front) ++ trimBy p cs ++ (back ++ after) :=
    (congrArg (before ++ · ++ after) hcs).trans (by simp only [List.append_assoc])
  rw [hsplit]
  exact trimBy_append (List.forall_mem_append.mpr ⟨hb, hfront⟩)
    (List.forall_mem_append.mpr ⟨hback, ha⟩) hfirst hlast

theorem trim_isInfix (cs : List Char) : trim cs <:+: cs := by
  obtain ⟨before, after, hsplit, -⟩ := exists_append_trimBy isBlank cs
  exact ⟨before, after, hsplit.symm⟩

theorem trim_trim (cs : List Char) : trim (trim cs) = trim cs := by
  obtain ⟨-, -, -, -, -, hfirst, hlast⟩ := exists_append_trimBy isBlank cs
  exact trimBy_eq_self hfirst hlast

/-! ## Laws of cutting -/

theorem splitOn_ne_nil (separator : Char) (cs : List Char) : splitOn separator cs ≠ [] := by
  cases cs with
  | nil => exact List.cons_ne_nil _ _
  | cons c cs =>
    unfold splitOn
    split
    · exact List.cons_ne_nil _ _
    · split <;> exact List.cons_ne_nil _ _

theorem join_cons_cons (separator cs ds : List Char) (rest : List (List Char)) :
    join separator (cs :: ds :: rest) = cs ++ separator ++ join separator (ds :: rest) :=
  rfl

theorem join_cons_head (separator : List Char) (c : Char) (cs : List Char)
    (rest : List (List Char)) :
    join separator ((c :: cs) :: rest) = c :: join separator (cs :: rest) := by
  cases rest with
  | nil => rfl
  | cons ds rest => rw [join_cons_cons, join_cons_cons]; rfl

/-- The pieces with their separators are the whole text. -/
theorem join_splitOn (separator : Char) (cs : List Char) :
    join [separator] (splitOn separator cs) = cs := by
  induction cs with
  | nil => rfl
  | cons c cs ih =>
    obtain ⟨piece, pieces, hp⟩ := List.exists_cons_of_ne_nil (splitOn_ne_nil separator cs)
    rw [hp] at ih
    unfold splitOn
    rw [hp]
    show join [separator] (if c = separator then _ else _) = _
    split
    · rename_i hc
      rw [join_cons_cons, ih, hc]
      rfl
    · rw [join_cons_head, ih]

theorem not_mem_of_mem_splitOn {separator : Char} {cs piece : List Char}
    (h : piece ∈ splitOn separator cs) : separator ∉ piece := by
  induction cs generalizing piece with
  | nil =>
    rw [List.mem_singleton.mp h]
    exact List.not_mem_nil
  | cons c cs ih =>
    obtain ⟨first, rest, hp⟩ := List.exists_cons_of_ne_nil (splitOn_ne_nil separator cs)
    have hfirst : separator ∉ first := ih (hp ▸ List.mem_cons_self)
    have hrest : ∀ d ∈ rest, separator ∉ d := fun d hd => ih (hp ▸ List.mem_cons_of_mem first hd)
    unfold splitOn at h
    rw [hp] at h
    by_cases hc : c = separator
    · have h' : piece ∈ [] :: first :: rest := by simpa only [hc, if_true] using h
      rcases List.mem_cons.mp h' with rfl | h'
      · exact List.not_mem_nil
      · rcases List.mem_cons.mp h' with rfl | h'
        · exact hfirst
        · exact hrest piece h'
    · have h' : piece ∈ (c :: first) :: rest := by simpa only [if_neg hc] using h
      rcases List.mem_cons.mp h' with rfl | h'
      · intro hmem
        rcases List.mem_cons.mp hmem with heq | hmem
        · exact hc heq.symm
        · exact hfirst hmem
      · exact hrest piece h'

theorem splitOn_of_not_mem {separator : Char} {cs : List Char} (h : separator ∉ cs) :
    splitOn separator cs = [cs] := by
  induction cs with
  | nil => rfl
  | cons c cs ih =>
    have hc : c ≠ separator := fun heq => h (heq ▸ List.mem_cons_self)
    unfold splitOn
    rw [ih fun hm => h (List.mem_cons_of_mem c hm)]
    exact if_neg hc

theorem splitOn_append {separator : Char} {cs : List Char} (h : separator ∉ cs)
    (rest : List Char) :
    splitOn separator (cs ++ separator :: rest) = cs :: splitOn separator rest := by
  induction cs with
  | nil =>
    obtain ⟨piece, pieces, hp⟩ := List.exists_cons_of_ne_nil (splitOn_ne_nil separator rest)
    rw [List.nil_append, splitOn, hp]
    exact if_pos rfl
  | cons c cs ih =>
    have hc : c ≠ separator := fun heq => h (heq ▸ List.mem_cons_self)
    rw [List.cons_append, splitOn, ih fun hm => h (List.mem_cons_of_mem c hm)]
    exact if_neg hc

/-- Pieces without the separator are found again between its occurrences. -/
theorem splitOn_join {separator : Char} {pieces : List (List Char)} (hne : pieces ≠ [])
    (h : ∀ piece ∈ pieces, separator ∉ piece) :
    splitOn separator (join [separator] pieces) = pieces := by
  induction pieces with
  | nil => exact absurd rfl hne
  | cons piece pieces ih =>
    have hpiece := h piece List.mem_cons_self
    cases pieces with
    | nil => exact splitOn_of_not_mem hpiece
    | cons next rest =>
      have hrest := ih (List.cons_ne_nil next rest) fun p hp => h p (List.mem_cons_of_mem _ hp)
      rw [join_cons_cons, List.append_assoc, List.singleton_append, splitOn_append hpiece, hrest]

/-- A text is cut at the first separator and nowhere else. -/
theorem cutAt_eq_some_iff {separator : Char} {cs before after : List Char} :
    cutAt separator cs = some (before, after) ↔
      cs = before ++ separator :: after ∧ separator ∉ before := by
  induction cs generalizing before with
  | nil =>
    refine ⟨fun h => absurd h (by simp [cutAt]), fun h => ?_⟩
    exact absurd h.1 (by simp)
  | cons c cs ih =>
    unfold cutAt
    by_cases hc : c = separator
    · rw [if_pos hc]
      constructor
      · intro h
        obtain ⟨rfl, rfl⟩ := Prod.mk.inj (Option.some.inj h)
        exact ⟨by rw [hc]; rfl, List.not_mem_nil⟩
      · rintro ⟨h, hb⟩
        cases before with
        | nil => rw [(List.cons.inj h).2]
        | cons b before =>
          exact absurd (hc ▸ (List.cons.inj h).1 ▸ List.mem_cons_self) hb
    · rw [if_neg hc, Option.map_eq_some_iff]
      constructor
      · rintro ⟨⟨b, a⟩, h, heq⟩
        obtain ⟨rfl, rfl⟩ := Prod.mk.inj heq
        obtain ⟨rfl, hb⟩ := ih.mp h
        refine ⟨rfl, fun hmem => ?_⟩
        rcases List.mem_cons.mp hmem with heq | hmem
        · exact hc heq.symm
        · exact hb hmem
      · rintro ⟨h, hb⟩
        cases before with
        | nil => exact absurd (List.cons.inj h).1 hc
        | cons b before =>
          obtain ⟨rfl, hcs⟩ := List.cons.inj h
          have hb' : separator ∉ before := fun hm => hb (List.mem_cons_of_mem _ hm)
          exact ⟨(before, after), ih.mpr ⟨hcs, hb'⟩, rfl⟩

theorem cutAt_eq_none_iff {separator : Char} {cs : List Char} :
    cutAt separator cs = none ↔ separator ∉ cs := by
  constructor
  · intro h hmem
    obtain ⟨before, after, rfl, hb⟩ := List.eq_append_cons_of_mem hmem
    rw [cutAt_eq_some_iff.mpr ⟨rfl, hb⟩] at h
    cases h
  · intro h
    cases hcut : cutAt separator cs with
    | none => rfl
    | some parts =>
      obtain ⟨rfl, -⟩ := cutAt_eq_some_iff.mp hcut
      exact absurd (List.mem_append_right _ List.mem_cons_self) h

/-- Taking away what a text begins with leaves the rest. -/
theorem isPrefixOf?_append (cs ds : List Char) : cs.isPrefixOf? (cs ++ ds) = some ds := by
  induction cs with
  | nil => rfl
  | cons c cs ih =>
    show (if c == c then cs.isPrefixOf? (cs ++ ds) else none) = some ds
    rw [if_pos (beq_self_eq_true c), ih]

/-! ## Laws of words -/

theorem wordsFrom_nil (current : List Char) :
    wordsFrom current [] = if current.isEmpty then [] else [current.reverse] := by
  cases current <;> rfl

theorem wordsFrom_cons (current : List Char) (c : Char) (cs : List Char) :
    wordsFrom current (c :: cs) =
      if isBlank c then
        if current.isEmpty then wordsFrom [] cs else current.reverse :: wordsFrom [] cs
      else wordsFrom (c :: current) cs := by
  cases current <;> rfl

theorem wordsFrom_append_blank {c : Char} (hc : isBlank c = true)
    (current before after : List Char) :
    wordsFrom current (before ++ c :: after) = wordsFrom current before ++ words after := by
  induction before generalizing current with
  | nil =>
    rw [List.nil_append, wordsFrom_cons, if_pos hc, wordsFrom_nil]
    by_cases h : current.isEmpty = true
    · rw [if_pos h, if_pos h]
      rfl
    · rw [if_neg h, if_neg h]
      rfl
  | cons d before ih =>
    rw [List.cons_append, wordsFrom_cons, wordsFrom_cons, ih, ih]
    split
    · split <;> rfl
    · rfl

/-- A blank ends a word wherever it stands. -/
theorem words_append_blank {c : Char} (hc : isBlank c = true) (before after : List Char) :
    words (before ++ c :: after) = words before ++ words after :=
  wordsFrom_append_blank hc [] before after

theorem wordsFrom_of_no_blank {current cs : List Char} (h : ∀ c ∈ cs, isBlank c = false) :
    wordsFrom current cs =
      if (current.reverse ++ cs).isEmpty then [] else [current.reverse ++ cs] := by
  induction cs generalizing current with
  | nil =>
    rw [wordsFrom_nil, List.append_nil, List.isEmpty_reverse]
  | cons c cs ih =>
    have hc : isBlank c = false := h c List.mem_cons_self
    rw [wordsFrom_cons, if_neg (by rw [hc]; exact Bool.false_ne_true),
      ih fun d hd => h d (List.mem_cons_of_mem c hd), List.reverse_cons, List.append_assoc]
    rfl

/-- A text without blanks is one word. -/
theorem words_of_no_blank {cs : List Char} (hne : cs ≠ []) (h : ∀ c ∈ cs, isBlank c = false) :
    words cs = [cs] := by
  unfold words
  rw [wordsFrom_of_no_blank h, if_neg]
  · rfl
  · intro he
    exact hne (List.isEmpty_iff.mp he)

/-- What a word is. -/
def IsWord (cs : List Char) : Prop :=
  cs ≠ [] ∧ ∀ c ∈ cs, isBlank c = false

theorem isWord_of_mem_wordsFrom {current cs w : List Char}
    (hcur : ∀ c ∈ current, isBlank c = false) (h : w ∈ wordsFrom current cs) : IsWord w := by
  have hrev : current ≠ [] → IsWord current.reverse := fun hne =>
    ⟨fun h0 => hne (List.reverse_eq_nil_iff.mp h0), fun c hc => hcur c (List.mem_reverse.mp hc)⟩
  have hnil : ∀ c ∈ ([] : List Char), isBlank c = false := fun c hc => absurd hc List.not_mem_nil
  induction cs generalizing current with
  | nil =>
    rw [wordsFrom_nil] at h
    split at h
    · exact absurd h List.not_mem_nil
    · rename_i hne
      rw [List.mem_singleton.mp h]
      exact hrev fun h0 => hne (List.isEmpty_iff.mpr h0)
  | cons c cs ih =>
    have rest : w ∈ wordsFrom [] cs → IsWord w := fun hw =>
      ih hnil hw fun h0 => absurd rfl h0
    rw [wordsFrom_cons] at h
    split at h
    · split at h
      · exact rest h
      · rename_i hne
        rcases List.mem_cons.mp h with rfl | h
        · exact hrev fun h0 => hne (List.isEmpty_iff.mpr h0)
        · exact rest h
    · rename_i hc
      have hcur' : ∀ d ∈ c :: current, isBlank d = false := by
        intro d hd
        rcases List.mem_cons.mp hd with rfl | hd
        · exact Bool.eq_false_iff.mpr hc
        · exact hcur d hd
      refine ih hcur' h fun hne => ⟨fun h0 => hne (List.reverse_eq_nil_iff.mp h0), ?_⟩
      exact fun d hd => hcur' d (List.mem_reverse.mp hd)

theorem isWord_of_mem_words {cs w : List Char} (h : w ∈ words cs) : IsWord w :=
  isWord_of_mem_wordsFrom (fun _ hc => absurd hc List.not_mem_nil) h

/-- Words joined by a blank are read back. -/
theorem words_join {blank : Char} (hb : isBlank blank = true) {ws : List (List Char)}
    (h : ∀ w ∈ ws, IsWord w) : words (join [blank] ws) = ws := by
  induction ws with
  | nil => rfl
  | cons w ws ih =>
    obtain ⟨hne, hno⟩ := h w List.mem_cons_self
    cases ws with
    | nil => exact words_of_no_blank hne hno
    | cons v ws =>
      have hws := ih fun u hu => h u (List.mem_cons_of_mem w hu)
      rw [join_cons_cons, List.append_assoc, List.singleton_append, words_append_blank hb,
        words_of_no_blank hne hno, hws]
      rfl

end Spellwork.Text
