import Mathlib.Data.List.Pairwise
import Spellwork.Proofs.PatternParts

/-!
# Searches

Where a search finds a pattern. A place in a text is a way to cut the text in two
(`Cursor.between`). `Pattern.find` takes the leftmost place where the pattern matches at all
(`exists_place_of_find`). `Pattern.findAll` is a scan (`scan_findAll`): it finds matches that do not
overlap, each one the preferred way at its place, and passes over no place where the pattern matches
but those that a match before it covers. There is only one scan of a text (`Scan.mem_of_mem`).
-/

namespace Spellwork.Text

/-- The place between the two parts of a text. -/
def Cursor.between (past rest : List Char) : Cursor :=
  ⟨past.length, past.getLast?, rest, []⟩

namespace Pattern

/-! ## Occurrences -/

/-- The pattern matches at the place between two parts of a text. -/
def OccursAt (p : Pattern) (past rest : List Char) : Prop :=
  ∃ d, Matches p (.between past rest) d

/-- The pattern matches somewhere in a text. -/
def Occurs (p : Pattern) (cs : List Char) : Prop :=
  ∃ past rest, cs = past ++ rest ∧ p.OccursAt past rest

theorem matchAt_eq_none_iff {p : Pattern} (hp : p.isProductive = true) {c : Cursor} :
    p.matchAt c = none ↔ ¬ ∃ d, Matches p c d := by
  unfold matchAt
  rw [Option.map_eq_none_iff, List.head?_eq_none_iff, List.eq_nil_iff_forall_not_mem, not_exists]
  exact forall_congr' fun d => not_congr (mem_run_iff hp)

theorem span_start_of_matchAt {p : Pattern} {c : Cursor} {m : Match} (h : p.matchAt c = some m) :
    m.span.start = c.offset := by
  obtain ⟨d, -, rfl⟩ := Option.map_eq_some_iff.mp h
  rfl

/-! ## The leftmost match -/

theorem between_snoc (past : List Char) (x : Char) (rest : List Char) :
    Cursor.between (past ++ [x]) rest = ⟨past.length + 1, some x, rest, []⟩ := by
  simp [Cursor.between]

theorem firstFrom_eq_none_iff {p : Pattern} {past rest : List Char} :
    p.firstFrom past.length past.getLast? rest = none ↔
      ∀ ahead behind, rest = ahead ++ behind →
        p.matchAt (.between (past ++ ahead) behind) = none := by
  induction rest generalizing past with
  | nil =>
      constructor
      · intro h ahead behind hsplit
        obtain ⟨rfl, rfl⟩ := List.nil_eq_append_iff.mp hsplit
        rw [List.append_nil]
        exact h
      · intro h
        have hhere := h [] [] rfl
        rwa [List.append_nil] at hhere
  | cons x rest ih =>
      have hnext : p.firstFrom (past.length + 1) (some x) rest =
          p.firstFrom (past ++ [x]).length (past ++ [x]).getLast? rest := by simp
      unfold firstFrom
      cases hhere : p.matchAt ⟨past.length, past.getLast?, x :: rest, []⟩ with
      | some m =>
          refine iff_of_false (Option.some_ne_none m) fun h => ?_
          have hnone := h [] (x :: rest) rfl
          rw [List.append_nil, Cursor.between, hhere] at hnone
          cases hnone
      | none =>
          dsimp only
          rw [hnext, ih]
          constructor
          · intro h ahead behind hsplit
            cases ahead with
            | nil =>
                rw [List.append_nil, ← List.nil_append behind, ← hsplit]
                exact hhere
            | cons y ahead =>
                obtain ⟨rfl, hrest⟩ := List.cons.inj hsplit
                have hlater := h ahead behind hrest
                rwa [List.append_assoc] at hlater
          · intro h ahead behind hsplit
            have hlater := h (x :: ahead) behind (by rw [hsplit]; rfl)
            rwa [List.append_assoc]

theorem exists_place_of_firstFrom {p : Pattern} {past rest : List Char} {m : Match}
    (h : p.firstFrom past.length past.getLast? rest = some m) :
    ∃ ahead behind, rest = ahead ++ behind ∧ p.matchAt (.between (past ++ ahead) behind) = some m ∧
      ∀ ahead' behind', rest = ahead' ++ behind' → ahead'.length < ahead.length →
        p.matchAt (.between (past ++ ahead') behind') = none := by
  induction rest generalizing past with
  | nil =>
      refine ⟨[], [], rfl, ?_, fun _ _ _ hlt => absurd hlt (Nat.not_lt_zero _)⟩
      rw [List.append_nil]
      exact h
  | cons x rest ih =>
      have hnext : p.firstFrom (past.length + 1) (some x) rest =
          p.firstFrom (past ++ [x]).length (past ++ [x]).getLast? rest := by simp
      unfold firstFrom at h
      split at h
      · rename_i found hfound
        cases h
        refine ⟨[], x :: rest, rfl, ?_, fun _ _ _ hlt => absurd hlt (Nat.not_lt_zero _)⟩
        rw [List.append_nil]
        exact hfound
      · rename_i hnone
        obtain ⟨ahead, behind, rfl, hmatch, hbefore⟩ := ih (hnext ▸ h)
        refine ⟨x :: ahead, behind, rfl, by rwa [List.append_assoc] at hmatch, ?_⟩
        intro ahead' behind' hsplit hlt
        cases ahead' with
        | nil =>
            rw [List.append_nil, ← List.nil_append behind', ← hsplit]
            exact hnone
        | cons y ahead' =>
            obtain ⟨rfl, hrest⟩ := List.cons.inj hsplit
            have hearlier := hbefore ahead' behind' hrest (Nat.lt_of_succ_lt_succ hlt)
            rwa [List.append_assoc] at hearlier

/-- A search finds the preferred match at the first place where there is one. -/
theorem exists_place_of_find {p : Pattern} {cs : List Char} {m : Match} (h : p.find cs = some m) :
    ∃ past rest, cs = past ++ rest ∧ p.matchAt (.between past rest) = some m ∧
      ∀ past' rest', cs = past' ++ rest' → past'.length < past.length →
        p.matchAt (.between past' rest') = none :=
  @exists_place_of_firstFrom p [] cs m h

theorem find_eq_none_iff {p : Pattern} {cs : List Char} :
    p.find cs = none ↔ ∀ past rest, cs = past ++ rest → p.matchAt (.between past rest) = none :=
  @firstFrom_eq_none_iff p [] cs

theorem occursIn_iff {p : Pattern} (hp : p.isProductive = true) {cs : List Char} :
    p.occursIn cs = true ↔ p.Occurs cs := by
  unfold occursIn
  rw [← Option.ne_none_iff_isSome, ne_eq, find_eq_none_iff]
  simp only [matchAt_eq_none_iff hp]
  unfold Occurs OccursAt
  push Not
  rfl

/-- Where nothing matches before a place, the match at the place is the one that is found. -/
theorem find_append_eq_some {p : Pattern} {past rest : List Char} {m : Match}
    (hmatch : p.matchAt (.between past rest) = some m)
    (hbefore : ∀ past' rest', past ++ rest = past' ++ rest' → past'.length < past.length →
      p.matchAt (.between past' rest') = none) : p.find (past ++ rest) = some m := by
  cases hfind : p.find (past ++ rest) with
  | none =>
      rw [find_eq_none_iff.mp hfind past rest rfl] at hmatch
      cases hmatch
  | some found =>
      obtain ⟨past', rest', hsplit, hfound, hleft⟩ := exists_place_of_find hfind
      rcases Nat.lt_trichotomy past'.length past.length with hlt | heq | hgt
      · rw [hbefore past' rest' hsplit hlt] at hfound
        cases hfound
      · obtain ⟨rfl, rfl⟩ := List.append_inj hsplit heq.symm
        exact hfound.symm.trans hmatch
      · rw [hleft past rest rfl hgt] at hmatch
        cases hmatch

/-! ## Scans -/

/-- The matches of a search through a whole text: each one is the preferred way at its place, they
ascend without an overlap, and every place where the pattern matches is the start of one of them
or covered by one. -/
structure Scan (p : Pattern) (cs : List Char) (ms : List Match) : Prop where
  preferred : ∀ m ∈ ms, ∃ past rest, cs = past ++ rest ∧ p.matchAt (.between past rest) = some m
  ascending : ms.Pairwise fun m m' => m.span.start < m'.span.start ∧ m.span.stop ≤ m'.span.start
  complete : ∀ past rest, cs = past ++ rest → (p.matchAt (.between past rest)).isSome = true →
    ∃ m ∈ ms, m.span.start = past.length ∨
      m.span.start < past.length ∧ past.length < m.span.stop

/-- A match of the search through a whole text. -/
def Scanned (p : Pattern) (cs : List Char) (m : Match) : Prop :=
  ∃ ms, p.Scan cs ms ∧ m ∈ ms

/-- Of two matches one ends before the other begins. -/
theorem Scan.apart {p : Pattern} {cs : List Char} {ms : List Match} (h : p.Scan cs ms)
    {m m' : Match} (hm : m ∈ ms) (hm' : m' ∈ ms) (hne : m ≠ m') :
    (m.span.start < m'.span.start ∧ m.span.stop ≤ m'.span.start) ∨
      (m'.span.start < m.span.start ∧ m'.span.stop ≤ m.span.start) := by
  let Apart (m m' : Match) : Prop :=
    (m.span.start < m'.span.start ∧ m.span.stop ≤ m'.span.start) ∨
      (m'.span.start < m.span.start ∧ m'.span.stop ≤ m.span.start)
  have : Std.Symm Apart := ⟨fun _ _ hor => hor.symm⟩
  have happart : ms.Pairwise Apart := h.ascending.imp Or.inl
  exact happart.forall hm hm' hne

theorem Scanned.head {p : Pattern} {cs : List Char} {m : Match} (h : p.Scanned cs m)
    (hp : p.takesSome = true) : ∃ x, cs[m.span.start]? = some x ∧ p.begins x = true := by
  obtain ⟨ms, hscan, hm⟩ := h
  obtain ⟨past, rest, rfl, hmatch⟩ := hscan.preferred m hm
  obtain ⟨d, hd, -⟩ := exists_of_matchAt hmatch
  obtain ⟨x, behind, hrest, hx⟩ := hd.begins hp
  refine ⟨x, ?_, hx⟩
  rw [span_start_of_matchAt hmatch]
  obtain rfl : rest = x :: behind := hrest
  simp [Cursor.between]

theorem Scanned.isSome_group? {p : Pattern} {cs : List Char} {m : Match}
    (h : p.Scanned cs m) {label : Nat} (hlabel : label ∈ p.captures) :
    (m.group? label).isSome = true := by
  obtain ⟨ms, hscan, hm⟩ := h
  obtain ⟨past, rest, -, hmatch⟩ := hscan.preferred m hm
  exact group?_isSome_of_matchAt hmatch hlabel

theorem Scanned.text?_mem_language {p : Pattern} {cs text : List Char} {m : Match}
    (h : p.Scanned cs m) {label : Nat} (htext : m.text? label cs = some text) :
    ∃ body, (label, body) ∈ p.groups ∧ text ∈ body.language := by
  obtain ⟨ms, hscan, hm⟩ := h
  obtain ⟨past, rest, rfl, hmatch⟩ := hscan.preferred m hm
  obtain ⟨d, hd, hgroups⟩ := exists_of_matchAt hmatch
  exact hd.text?_mem_language List.drop_left rfl hgroups htext

/-- A scan has what any other scan of the text has: by induction on the place of a match, what
covers it in the other scan would be in both. -/
theorem Scan.mem_of_mem {p : Pattern} {cs : List Char} {ms ms' : List Match} (h : p.Scan cs ms)
    (h' : p.Scan cs ms') {m : Match} (hm : m ∈ ms) : m ∈ ms' := by
  induction hn : m.span.start using Nat.strongRecOn generalizing m ms ms' with
  | ind n ih =>
      obtain ⟨past, rest, hsplit, hmatch⟩ := h.preferred m hm
      have hstart : m.span.start = past.length := span_start_of_matchAt hmatch
      obtain ⟨m', hm', heq | ⟨hbefore, hcovers⟩⟩ :=
        h'.complete past rest hsplit (Option.isSome_iff_exists.mpr ⟨m, hmatch⟩)
      · obtain ⟨past', rest', hsplit', hmatch'⟩ := h'.preferred m' hm'
        have hstart' : m'.span.start = past'.length := span_start_of_matchAt hmatch'
        obtain ⟨rfl, rfl⟩ :=
          List.append_inj (hsplit.symm.trans hsplit') (heq.symm.trans hstart')
        obtain rfl : m = m' := Option.some.inj (hmatch.symm.trans hmatch')
        exact hm'
      · have hshared : m' ∈ ms := ih m'.span.start (by omega) h' h hm' rfl
        have hne : m' ≠ m := by
          rintro rfl
          omega
        rcases h.apart hshared hm hne with ⟨-, hle⟩ | ⟨hlt, -⟩
        · omega
        · omega

/-! ## Finding all -/

theorem matchesFrom_cons (p : Pattern) (resume : Nat) (past : List Char) (x : Char)
    (rest : List Char) :
    p.matchesFrom resume past.length past.getLast? (x :: rest) =
      if past.length < resume then
        p.matchesFrom resume (past ++ [x]).length (past ++ [x]).getLast? rest
      else
        match p.matchAt (.between past (x :: rest)) with
        | some m =>
          m :: p.matchesFrom (max m.span.stop (past.length + 1)) (past ++ [x]).length
            (past ++ [x]).getLast? rest
        | none => p.matchesFrom resume (past ++ [x]).length (past ++ [x]).getLast? rest := by
  have hlast : (past ++ [x]).getLast? = some x := by simp
  have hlength : (past ++ [x]).length = past.length + 1 := by simp
  rw [hlast, hlength]
  rfl

theorem place_of_mem_matchesFrom {p : Pattern} {past rest : List Char} {resume : Nat} {m : Match}
    (h : m ∈ p.matchesFrom resume past.length past.getLast? rest) :
    resume ≤ m.span.start ∧ ∃ ahead behind, rest = ahead ++ behind ∧
      p.matchAt (.between (past ++ ahead) behind) = some m := by
  induction rest generalizing past resume with
  | nil =>
      rw [matchesFrom] at h
      split at h
      · cases h
      · rename_i hresume
        have hmatch : p.matchAt (.between past []) = some m := Option.mem_toList.mp h
        refine ⟨?_, [], [], rfl, by rwa [List.append_nil]⟩
        rw [span_start_of_matchAt hmatch]
        exact Nat.not_lt.mp hresume
  | cons x rest ih =>
      have hlater : ∀ {resume' : Nat}, resume ≤ resume' →
          m ∈ p.matchesFrom resume' (past ++ [x]).length (past ++ [x]).getLast? rest →
          resume ≤ m.span.start ∧ ∃ ahead behind, x :: rest = ahead ++ behind ∧
            p.matchAt (.between (past ++ ahead) behind) = some m := by
        intro resume' hle hmem
        obtain ⟨hstart, ahead, behind, rfl, hmatch⟩ := ih hmem
        refine ⟨Nat.le_trans hle hstart, x :: ahead, behind, rfl, ?_⟩
        rwa [List.append_assoc] at hmatch
      rw [matchesFrom_cons] at h
      split at h
      · exact hlater (Nat.le_refl _) h
      · rename_i hresume
        split at h
        · rename_i found hfound
          rcases List.mem_cons.mp h with rfl | h
          · refine ⟨?_, [], x :: rest, rfl, by rwa [List.append_nil]⟩
            rw [span_start_of_matchAt hfound]
            exact Nat.not_lt.mp hresume
          · exact hlater (by omega) h
        · exact hlater (Nat.le_refl _) h

theorem ascending_matchesFrom (p : Pattern) (past rest : List Char) (resume : Nat) :
    (p.matchesFrom resume past.length past.getLast? rest).Pairwise
      fun m m' => m.span.start < m'.span.start ∧ m.span.stop ≤ m'.span.start := by
  induction rest generalizing past resume with
  | nil =>
      rw [matchesFrom]
      split
      · exact List.Pairwise.nil
      · cases p.matchAt ⟨past.length, past.getLast?, [], []⟩ with
        | none => exact List.Pairwise.nil
        | some m => exact List.pairwise_singleton _ _
  | cons x rest ih =>
      rw [matchesFrom_cons]
      split
      · exact ih _ _
      · split
        · rename_i m hm
          refine List.pairwise_cons.mpr ⟨fun m' hm' => ?_, ih _ _⟩
          have hstart : m.span.start = past.length := span_start_of_matchAt hm
          have hresume := (place_of_mem_matchesFrom hm').1
          omega
        · exact ih _ _

/-- No place from `resume` on is passed over. -/
theorem complete_matchesFrom {p : Pattern} {past ahead behind : List Char} {resume : Nat}
    (hresume : resume ≤ (past ++ ahead).length)
    (hmatch : (p.matchAt (.between (past ++ ahead) behind)).isSome = true) :
    ∃ m ∈ p.matchesFrom resume past.length past.getLast? (ahead ++ behind),
      m.span.start = (past ++ ahead).length ∨
        m.span.start < (past ++ ahead).length ∧ (past ++ ahead).length < m.span.stop := by
  induction ahead generalizing past resume with
  | nil =>
      rw [List.append_nil] at hresume hmatch ⊢
      obtain ⟨m, hm⟩ := Option.isSome_iff_exists.mp hmatch
      refine ⟨m, ?_, Or.inl (span_start_of_matchAt hm)⟩
      cases behind with
      | nil =>
          rw [List.append_nil, matchesFrom, if_neg (Nat.not_lt.mpr hresume)]
          exact Option.mem_toList.mpr hm
      | cons x behind =>
          rw [List.nil_append, matchesFrom_cons, if_neg (Nat.not_lt.mpr hresume), hm]
          exact List.mem_cons_self
  | cons x ahead ih =>
      have hplace : past ++ x :: ahead = past ++ [x] ++ ahead := by simp
      rw [hplace] at hresume hmatch ⊢
      rw [List.cons_append, matchesFrom_cons]
      split
      · exact ih hresume hmatch
      · split
        · rename_i m hm
          have hstart : m.span.start = past.length := span_start_of_matchAt hm
          by_cases hcovered : (past ++ [x] ++ ahead).length < m.span.stop
          · refine ⟨m, List.mem_cons_self, Or.inr ⟨?_, hcovered⟩⟩
            simp [hstart]
          · have hresume' : max m.span.stop (past.length + 1) ≤ (past ++ [x] ++ ahead).length := by
              simp at hcovered ⊢
              omega
            obtain ⟨m', hm', hat⟩ := ih hresume' hmatch
            exact ⟨m', List.mem_cons_of_mem m hm', hat⟩
        · exact ih hresume hmatch

/-- The search for all matches is a scan. -/
theorem scan_findAll (p : Pattern) (cs : List Char) : p.Scan cs (p.findAll cs) where
  preferred m hm := by
    obtain ⟨-, ahead, behind, hsplit, hmatch⟩ :=
      @place_of_mem_matchesFrom p [] cs 0 m hm
    exact ⟨ahead, behind, hsplit, hmatch⟩
  ascending := ascending_matchesFrom p [] cs 0
  complete past rest hsplit hmatch := by
    subst hsplit
    exact @complete_matchesFrom p [] past rest 0 (Nat.zero_le _) hmatch

theorem scanned_iff {p : Pattern} {cs : List Char} {m : Match} :
    p.Scanned cs m ↔ m ∈ p.findAll cs :=
  ⟨fun ⟨_, h, hm⟩ => h.mem_of_mem (p.scan_findAll cs) hm, fun hm => ⟨_, p.scan_findAll cs, hm⟩⟩

end Pattern

end Spellwork.Text
