import Spellwork.Text.Numeral
import Spellwork.Text.Words

/-!
# Outcomes

The outcome of an attack or of a saving throw under which an effect takes place. Outcomes have a
fixed order, in which every walk over a tree visits the effects below one effect, and a name.
-/

namespace Spellwork

/-- The outcome under which an effect takes place. -/
inductive Outcome where
  /-- Damage rolled once for a saving throw and shared by every target. -/
  | sharedRolls
  | hit
  | miss
  | criticalHit
  | failedSave
  | passedSave
  /-- The save failed by at least this margin. -/
  | failedSaveBy (margin : UInt32)
deriving DecidableEq, Repr

namespace Outcome

/-- An outcome of an attack. -/
def isAttack : Outcome → Bool
  | hit | miss | criticalHit => true
  | _ => false

/-- An outcome of a saving throw. -/
def isSave : Outcome → Bool
  | failedSave | passedSave | failedSaveBy _ => true
  | _ => false

/-- The margin of a graded failure. -/
def margin? : Outcome → Option UInt32
  | failedSaveBy margin => some margin
  | _ => none

/-- The place in the order: shared rolls, outcomes of an attack, outcomes of a save, and among the
graded failures the smaller margin first. -/
def rank : Outcome → Nat
  | sharedRolls => 0
  | hit => 1
  | miss => 2
  | criticalHit => 3
  | failedSave => 4
  | passedSave => 5
  | failedSaveBy margin => 6 + margin.toNat

/-- The outcomes without a margin, in order. -/
def plain : List Outcome :=
  [sharedRolls, hit, miss, criticalHit, failedSave, passedSave]

/-- The outcomes in order. -/
def sort (os : List Outcome) : List Outcome :=
  os.mergeSort fun a b => a.rank ≤ b.rank

/-- What the name of a graded failure begins with; the margin follows. -/
def gradedStem : String := "failedSaveBy"

/-- The name. -/
def name : Outcome → String
  | sharedRolls => "sharedRolls"
  | hit => "hit"
  | miss => "miss"
  | criticalHit => "criticalHit"
  | failedSave => "failedSave"
  | passedSave => "passedSave"
  | failedSaveBy margin => String.ofList (gradedStem.toList ++ Text.natText margin.toNat)

/-- The outcome of a name. The margin of a graded failure may have a plus sign and leading
zeros. -/
def ofName? (s : String) : Option Outcome :=
  match plain.find? fun o => o.name = s with
  | some o => some o
  | none =>
    match gradedStem.toList.isPrefixOf? s.toList with
    | some digits => (Text.uint32? digits).map failedSaveBy
    | none => none

/-- The message for a text that names no outcome. -/
def unknownMessage (s : String) : String :=
  "unknown outcome context `" ++ s ++ "`"

theorem rank_injective {a b : Outcome} (h : a.rank = b.rank) : a = b := by
  cases a <;> cases b <;> simp only [rank] at h <;> first | rfl | omega | skip
  exact congrArg failedSaveBy (UInt32.toNat_inj.mp (by omega))

/-! ## Names read back -/

theorem length_name_plain : ∀ o ∈ plain, o.name.toList.length < gradedStem.toList.length := by
  decide

theorem find?_plain : ∀ o ∈ plain, plain.find? (fun p => p.name = o.name) = some o := by
  decide

theorem mem_plain_or_graded (o : Outcome) : o ∈ plain ∨ ∃ margin, o = failedSaveBy margin := by
  cases o with
  | failedSaveBy margin => exact Or.inr ⟨margin, rfl⟩
  | _ => exact Or.inl (by decide)

theorem toList_name_failedSaveBy (margin : UInt32) :
    (failedSaveBy margin).name.toList = gradedStem.toList ++ Text.natText margin.toNat :=
  String.toList_ofList

/-- The stem of graded failures is longer than any other name. -/
theorem find?_plain_of_stem {s : String} {margin : List Char}
    (h : s.toList = gradedStem.toList ++ margin) : plain.find? (fun o => o.name = s) = none := by
  rw [List.find?_eq_none]
  intro o ho heq
  have hname : o.name = s := of_decide_eq_true heq
  have hlen := length_name_plain o ho
  rw [hname, h, List.length_append] at hlen
  omega

/-- A name is read back as the outcome that has it. -/
theorem ofName?_name (o : Outcome) : ofName? o.name = some o := by
  unfold ofName?
  rcases mem_plain_or_graded o with h | ⟨margin, rfl⟩
  · rw [find?_plain o h]
  · rw [find?_plain_of_stem (toList_name_failedSaveBy margin), toList_name_failedSaveBy,
      Text.isPrefixOf?_append]
    show (Text.uint32? (Text.natText margin.toNat)).map failedSaveBy = _
    rw [Text.uint32?_natText]
    rfl

end Outcome

end Spellwork
