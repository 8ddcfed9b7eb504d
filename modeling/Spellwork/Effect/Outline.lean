import Spellwork.Effect.Shorthand

/-!
# Outlines

A tree as people write it: every effect holds what stands below it, outcome by outcome, and any
effect may be given in shorthand instead. Effects without an id receive a fresh one when the outline
is planted; shorthand that does not stand for an effect is passed over.
-/

namespace Spellwork

/-- What stands below an effect, by outcome. Graded failures are kept under their margins as
written, in the order of the keys. -/
structure OutlineEdges (α : Type u) where
  hit : List α := []
  miss : List α := []
  criticalHit : List α := []
  failedSave : List α := []
  passedSave : List α := []
  failedSaveBy : List (String × List α) := []
deriving Repr, BEq

/-- Whether nothing stands below. -/
def OutlineEdges.isEmpty (on : OutlineEdges α) : Bool :=
  on.hit.isEmpty && on.miss.isEmpty && on.criticalHit.isEmpty && on.failedSave.isEmpty &&
    on.passedSave.isEmpty && on.failedSaveBy.all fun entry => entry.2.isEmpty

/-- An effect in an outline: in shorthand, or written out. -/
inductive Outline where
  | shorthand (text : String)
  | full (id : Option NodeId) (effect : Effect) (sharedRolls : List Outline)
      (on : OutlineEdges Outline)
deriving Repr, Inhabited

/-- An effect that may still be without an id. -/
structure Draft where
  id : Option NodeId
  outcome : Option Outcome
  effect : Effect
deriving DecidableEq, Repr

/-- The drafts under one graded failure, with the key that it was written under. -/
structure Graded where
  key : String
  margin : UInt32
  drafts : Forest Draft

namespace Graded

/-- The smaller margin comes first; keys that denote the same margin go by their text. -/
def notAfter (a b : Graded) : Bool :=
  a.margin < b.margin || (a.margin = b.margin && (a.key < b.key || a.key = b.key))

/-- Puts one in its place among others. -/
def place (g : Graded) : List Graded → List Graded
  | [] => [g]
  | h :: rest => if h.notAfter g then h :: place g rest else g :: h :: rest

/-- All drafts, in the order of margins. -/
def inOrder (gs : List Graded) : Forest Draft :=
  (gs.foldr place []).foldr (fun g rest => g.drafts ++ rest) .nil

end Graded

namespace Outline

/-! ## Drafts -/

/-- The margin that a key denotes. -/
def margin? (key : String) : Option UInt32 :=
  Text.uint32? (Text.trim key.toList)

mutual

/-- The drafts of an outline under an outcome: one tree, or none for useless shorthand. -/
def draft (o : Option Outcome) : Outline → Forest Draft
  | .shorthand text =>
    match Shorthand.effect? text with
    | some (id, effect) => .leaf ⟨id, o, effect⟩
    | none => .nil
  | .full id effect sharedRolls on =>
    .node ⟨id, o, effect⟩ (drafts (some .sharedRolls) sharedRolls ++ draftEdges on) .nil

/-- The drafts of outlines under the same outcome. -/
def drafts (o : Option Outcome) : List Outline → Forest Draft
  | [] => .nil
  | outline :: rest => outline.draft o ++ drafts o rest

/-- The drafts below an effect, in the order of outcomes. -/
def draftEdges : OutlineEdges Outline → Forest Draft
  | ⟨hit, miss, criticalHit, failedSave, passedSave, failedSaveBy⟩ =>
    drafts (some .hit) hit ++ (drafts (some .miss) miss ++
      (drafts (some .criticalHit) criticalHit ++ (drafts (some .failedSave) failedSave ++
        (drafts (some .passedSave) passedSave ++ Graded.inOrder (draftGraded failedSaveBy)))))

/-- The drafts under graded failures. A key that denotes no margin is passed over. -/
def draftGraded : List (String × List Outline) → List Graded
  | [] => []
  | (key, outlines) :: rest =>
    match margin? key with
    | some margin =>
      ⟨key, margin, drafts (some (.failedSaveBy margin)) outlines⟩ :: draftGraded rest
    | none => draftGraded rest

end

/-! ## Planting -/

/-- The place under a parent, or among the roots. -/
def slotOf (parent : Option NodeId) (outcome : Option Outcome) : Slot :=
  match parent, outcome with
  | some p, some o => some (p, o)
  | _, _ => none

/-- Adds drafts to a tree one after the other, each one before those below it, and mints the ids
that are missing. -/
def plantDrafts (parent : Option NodeId) : Forest Draft → Tree → Random.Mint →
    Except EditError (Tree × Random.Mint)
  | .nil, t, mint => .ok (t, mint)
  | .node d children rest, t, mint =>
    let (id, mint) := match d.id with
      | some id => (id, mint)
      | none => mint.next
    match t.insert (slotOf parent d.outcome) id d.effect with
    | .error e => .error e
    | .ok t =>
      match plantDrafts (some id) children t mint with
      | .error e => .error e
      | .ok (t, mint) => plantDrafts parent rest t mint

/-- The tree of an outline, with ids from a mint where they are missing. -/
def plant (outlines : List Outline) (mint : Random.Mint) :
    Except EditError (Tree × Random.Mint) :=
  plantDrafts none (drafts none outlines) .nil mint

end Outline

namespace Tree

/-! ## Rendering -/

/-- The outlines under one outcome. -/
def pick (o : Outcome) (branches : List (Option Outcome × Outline)) : List Outline :=
  (branches.filter fun b => b.1 = some o).map (·.2)

/-- The margins of the graded failures, each one once. -/
def margins (branches : List (Option Outcome × Outline)) : List UInt32 :=
  (branches.filterMap fun b => b.1.bind Outcome.margin?).eraseDups

/-- Sorts what stands below an effect by outcome. -/
def outlineEdges (branches : List (Option Outcome × Outline)) : OutlineEdges Outline where
  hit := pick .hit branches
  miss := pick .miss branches
  criticalHit := pick .criticalHit branches
  failedSave := pick .failedSave branches
  passedSave := pick .passedSave branches
  failedSaveBy := Json.inKeyOrder ((margins branches).map fun m =>
    (String.ofList (Text.natText m.toNat), pick (.failedSaveBy m) branches))

/-- The outlines of the trees of a forest, each one with its outcome. -/
def outlined : Tree → List (Option Outcome × Outline)
  | .nil => []
  | .node n children rest =>
    let below := outlined children
    (n.outcome, .full (some n.id) n.effect (pick .sharedRolls below) (outlineEdges below)) ::
      outlined rest

/-- The outline of a tree. Every effect is written out with its id. -/
def outline (t : Tree) : List Outline :=
  t.outlined.map (·.2)

end Tree

end Spellwork
