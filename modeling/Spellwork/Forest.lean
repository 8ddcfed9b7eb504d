/-!
# Forests

Ordered forests with a label at every node. A forest is empty, or it is a first tree, given by its
label and the forest of its children, followed by the rest. Recursion on this shape needs no
nesting, and the order of the labels from left to right, each one before those below it, is the
order of the text.
-/

namespace Spellwork

/-- An ordered forest. -/
inductive Forest (α : Type u) where
  | nil
  | node (label : α) (children rest : Forest α)
deriving DecidableEq, Repr, Inhabited

namespace Forest

variable {α : Type u} {β : Type v}

/-- A tree without children. -/
def leaf (a : α) : Forest α :=
  node a nil nil

/-- The number of nodes. -/
def size : Forest α → Nat
  | nil => 0
  | node _ children rest => children.size + rest.size + 1

/-- All labels, a label before those below it, and those before the labels to the right. -/
def labels : Forest α → List α
  | nil => []
  | node a children rest => a :: (children.labels ++ rest.labels)

/-- The labels of the roots. -/
def rootLabels : Forest α → List α
  | nil => []
  | node a _ rest => a :: rest.rootLabels

/-- The trees of one forest followed by those of another. -/
def append : Forest α → Forest α → Forest α
  | nil, other => other
  | node a children rest, other => node a children (rest.append other)

instance : Append (Forest α) := ⟨append⟩

/-- Relabels every node. -/
def map (f : α → β) : Forest α → Forest β
  | nil => nil
  | node a children rest => node (f a) (children.map f) (rest.map f)

/-- The forest below the first node, in the order of `labels`, that has a property. -/
def below? (p : α → Bool) : Forest α → Option (Forest α)
  | nil => none
  | node a children rest =>
    if p a then some children
    else
      match children.below? p with
      | some found => some found
      | none => rest.below? p

/-- Takes away every tree whose root has a property, wherever it stands. -/
def prune (p : α → Bool) : Forest α → Forest α
  | nil => nil
  | node a children rest =>
    if p a then rest.prune p else node a (children.prune p) (rest.prune p)

@[simp] theorem append_eq (f g : Forest α) : f.append g = f ++ g := rfl

@[simp] theorem nil_append (f : Forest α) : nil ++ f = f := rfl

@[simp] theorem node_append (a : α) (c r f : Forest α) : node a c r ++ f = node a c (r ++ f) := rfl

@[simp] theorem append_nil (f : Forest α) : f ++ nil = f := by
  induction f with
  | nil => rfl
  | node a c r _ ih => simp [ih]

theorem append_assoc (f g h : Forest α) : f ++ g ++ h = f ++ (g ++ h) := by
  induction f with
  | nil => rfl
  | node a c r _ ih => simp [ih]

@[simp] theorem labels_append (f g : Forest α) : (f ++ g).labels = f.labels ++ g.labels := by
  induction f with
  | nil => rfl
  | node a c r _ ih => simp [labels, ih]

@[simp] theorem labels_map (f : α → β) (t : Forest α) : (t.map f).labels = t.labels.map f := by
  induction t with
  | nil => rfl
  | node a c r ihc ihr => simp [labels, map, ihc, ihr]

theorem length_labels (t : Forest α) : t.labels.length = t.size := by
  induction t with
  | nil => rfl
  | node a c r ihc ihr => simp only [labels, size, List.length_cons, List.length_append, ihc, ihr]

@[simp] theorem map_append (f : α → β) (s t : Forest α) : (s ++ t).map f = s.map f ++ t.map f := by
  induction s with
  | nil => rfl
  | node a c r _ ih => simp [map, ih]

@[simp] theorem rootLabels_append (s t : Forest α) :
    (s ++ t).rootLabels = s.rootLabels ++ t.rootLabels := by
  induction s with
  | nil => rfl
  | node a c r _ ih => simp [rootLabels, ih]

@[simp] theorem rootLabels_map (f : α → β) (t : Forest α) :
    (t.map f).rootLabels = t.rootLabels.map f := by
  induction t with
  | nil => rfl
  | node a c r _ ih => simp [rootLabels, map, ih]

/-- The roots are among the labels, in the same order. -/
theorem rootLabels_sublist (t : Forest α) : t.rootLabels.Sublist t.labels := by
  induction t with
  | nil => exact List.Sublist.refl []
  | node a c r _ ih => exact (ih.trans (List.sublist_append_right c.labels r.labels)).cons_cons a

/-- Pruning takes labels away and leaves the others in their order. -/
theorem labels_prune_sublist (p : α → Bool) (t : Forest α) :
    (t.prune p).labels.Sublist t.labels := by
  induction t with
  | nil => exact List.Sublist.refl []
  | node a c r ihc ihr =>
    unfold prune
    split
    · exact (ihr.trans (List.sublist_append_right c.labels r.labels)).cons a
    · exact (ihc.append ihr).cons_cons a

end Forest

end Spellwork
