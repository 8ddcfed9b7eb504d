import Mathlib.Data.List.Nodup
import Spellwork.Forest

/-!
# Nodes and what stands below them

A forest as the list of its nodes, each with the forest of its children (`Forest.subtrees`). What
an operation does to a forest is said through that list, so that later proofs quantify over its
members instead of recursing on the shape. The round trips rest on `eq_of_children`: where the
labels below a node depend on nothing but its own label, the labels of the roots determine the
forest.
-/

namespace Spellwork

namespace Forest

variable {α : Type u} {β : Type v}

/-- Every label with the forest of its children, in the order of `labels`. -/
def subtrees : Forest α → List (α × Forest α)
  | nil => []
  | node a children rest => (a, children) :: (children.subtrees ++ rest.subtrees)

/-! ## Equations -/

@[simp] theorem labels_nil : (nil : Forest α).labels = [] := rfl

@[simp] theorem labels_node (a : α) (c r : Forest α) :
    (node a c r).labels = a :: (c.labels ++ r.labels) := rfl

@[simp] theorem rootLabels_nil : (nil : Forest α).rootLabels = [] := rfl

@[simp] theorem rootLabels_node (a : α) (c r : Forest α) :
    (node a c r).rootLabels = a :: r.rootLabels := rfl

@[simp] theorem subtrees_nil : (nil : Forest α).subtrees = [] := rfl

@[simp] theorem subtrees_node (a : α) (c r : Forest α) :
    (node a c r).subtrees = (a, c) :: (c.subtrees ++ r.subtrees) := rfl

@[simp] theorem subtrees_append (s t : Forest α) :
    (s ++ t).subtrees = s.subtrees ++ t.subtrees := by
  induction s with
  | nil => rfl
  | node a c r _ ih => simp [ih]

/-! ## Labels and subtrees -/

theorem map_fst_subtrees (t : Forest α) : t.subtrees.map Prod.fst = t.labels := by
  induction t with
  | nil => rfl
  | node a c r ihc ihr => simp [ihc, ihr]

theorem mem_labels_of_mem_subtrees {t : Forest α} {s : α × Forest α} (h : s ∈ t.subtrees) :
    s.1 ∈ t.labels := by
  rw [← map_fst_subtrees]
  exact List.mem_map_of_mem h

theorem exists_mem_subtrees {t : Forest α} {a : α} (h : a ∈ t.labels) :
    ∃ c, (a, c) ∈ t.subtrees := by
  rw [← map_fst_subtrees, List.mem_map] at h
  obtain ⟨⟨b, c⟩, hs, rfl⟩ := h
  exact ⟨c, hs⟩

theorem mem_labels_of_mem_rootLabels {t : Forest α} {a : α} (h : a ∈ t.rootLabels) :
    a ∈ t.labels :=
  t.rootLabels_sublist.subset h

theorem labels_subset_of_mem_subtrees {t : Forest α} {s : α × Forest α} (h : s ∈ t.subtrees) :
    s.2.labels ⊆ t.labels := by
  induction t with
  | nil => cases h
  | node a c r ihc ihr =>
      intro b hb
      simp only [subtrees_node, List.mem_cons, List.mem_append] at h
      rcases h with rfl | h | h
      · simp [hb]
      · simp [ihc h hb]
      · simp [ihr h hb]

/-- A label is that of a root, or it stands directly below some node. -/
theorem mem_labels_iff {t : Forest α} {b : α} :
    b ∈ t.labels ↔ b ∈ t.rootLabels ∨ ∃ s ∈ t.subtrees, b ∈ s.2.rootLabels := by
  constructor
  · intro h
    induction t with
    | nil => cases h
    | node a c r ihc ihr =>
        simp only [labels_node, List.mem_cons, List.mem_append] at h
        rcases h with rfl | h | h
        · exact Or.inl (List.mem_cons_self ..)
        · rcases ihc h with hroot | ⟨s, hs, hb⟩
          · exact Or.inr ⟨(a, c), by simp, hroot⟩
          · exact Or.inr ⟨s, by simp [hs], hb⟩
        · rcases ihr h with hroot | ⟨s, hs, hb⟩
          · exact Or.inl (List.mem_cons_of_mem _ hroot)
          · exact Or.inr ⟨s, by simp [hs], hb⟩
  · rintro (h | ⟨s, hs, hb⟩)
    · exact mem_labels_of_mem_rootLabels h
    · exact labels_subset_of_mem_subtrees hs (mem_labels_of_mem_rootLabels hb)

/-- Where the labels below a node are given by its own label, the labels of the roots determine the
forest. -/
theorem eq_of_children {below : α → List α} {s t : Forest α}
    (hs : ∀ x ∈ s.subtrees, x.2.rootLabels = below x.1)
    (ht : ∀ x ∈ t.subtrees, x.2.rootLabels = below x.1)
    (hroots : s.rootLabels = t.rootLabels) : s = t := by
  induction s generalizing t with
  | nil =>
      cases t with
      | nil => rfl
      | node b d q => cases hroots
  | node a c r ihc ihr =>
      cases t with
      | nil => cases hroots
      | node b d q =>
          obtain ⟨rfl, hrest⟩ := List.cons.inj hroots
          have hcd : c.rootLabels = d.rootLabels :=
            (hs (a, c) (by simp)).trans (ht (a, d) (by simp)).symm
          rw [ihc (fun x hx => hs x (by simp [hx])) (fun x hx => ht x (by simp [hx])) hcd,
            ihr (fun x hx => hs x (by simp [hx])) (fun x hx => ht x (by simp [hx])) hrest]

/-! ## Relabelling and pruning -/

@[simp] theorem map_nil (f : α → β) : (nil : Forest α).map f = nil := rfl

@[simp] theorem map_node (f : α → β) (a : α) (c r : Forest α) :
    (node a c r).map f = node (f a) (c.map f) (r.map f) := rfl

theorem map_map {γ : Type w} (g : β → γ) (f : α → β) (t : Forest α) :
    (t.map f).map g = t.map fun a => g (f a) := by
  induction t with
  | nil => rfl
  | node a c r ihc ihr => simp [ihc, ihr]

theorem map_congr {f g : α → β} {t : Forest α} (h : ∀ a ∈ t.labels, f a = g a) :
    t.map f = t.map g := by
  induction t with
  | nil => rfl
  | node a c r ihc ihr =>
      rw [map_node, map_node, h a (by simp), ihc fun b hb => h b (by simp [hb]),
        ihr fun b hb => h b (by simp [hb])]

theorem map_id (t : Forest α) : t.map (fun a => a) = t := by
  induction t with
  | nil => rfl
  | node a c r ihc ihr => simp [ihc, ihr]

theorem subtrees_map (f : α → β) (t : Forest α) :
    (t.map f).subtrees = t.subtrees.map fun s => (f s.1, s.2.map f) := by
  induction t with
  | nil => rfl
  | node a c r ihc ihr => simp [map, ihc, ihr]

/-- What is said of nodes and the roots below them, said after a relabelling. -/
theorem forall_subtrees_map {f : α → β} {t : Forest α} {P : β → List β → Prop} :
    (∀ s ∈ (t.map f).subtrees, P s.1 s.2.rootLabels) ↔
      ∀ s ∈ t.subtrees, P (f s.1) (s.2.rootLabels.map f) := by
  simp only [subtrees_map, List.forall_mem_map, rootLabels_map]

theorem rootLabels_prune (p : α → Bool) (t : Forest α) :
    (t.prune p).rootLabels = t.rootLabels.filter fun a => !p a := by
  induction t with
  | nil => rfl
  | node a c r _ ih =>
      unfold prune
      by_cases ha : p a
      · simp [ha, ih]
      · simp [ha, ih]

theorem exists_of_mem_subtrees_prune {p : α → Bool} {t : Forest α} {s : α × Forest α}
    (h : s ∈ (t.prune p).subtrees) : ∃ c, (s.1, c) ∈ t.subtrees ∧ s.2 = c.prune p := by
  induction t with
  | nil => cases h
  | node a c r ihc ihr =>
      unfold prune at h
      by_cases ha : p a
      · rw [if_pos ha] at h
        obtain ⟨d, hd, heq⟩ := ihr h
        exact ⟨d, by simp [hd], heq⟩
      · rw [if_neg ha] at h
        simp only [subtrees_node, List.mem_cons, List.mem_append] at h
        rcases h with rfl | h | h
        · exact ⟨c, by simp, rfl⟩
        · obtain ⟨d, hd, heq⟩ := ihc h
          exact ⟨d, by simp [hd], heq⟩
        · obtain ⟨d, hd, heq⟩ := ihr h
          exact ⟨d, by simp [hd], heq⟩

/-! ## Looking below a node -/

theorem below?_eq_none_iff {p : α → Bool} {t : Forest α} :
    t.below? p = none ↔ ∀ a ∈ t.labels, p a = false := by
  induction t with
  | nil => simp [below?]
  | node a c r ihc ihr =>
      unfold below?
      by_cases ha : p a
      · simp [ha]
      · cases hc : c.below? p with
        | none =>
            have hnone := ihc.mp hc
            simp only [ha, Bool.false_eq_true, if_false, ihr, labels_node, List.mem_cons,
              List.mem_append]
            constructor
            · rintro h b (rfl | hb | hb)
              · simpa using ha
              · exact hnone b hb
              · exact h b hb
            · exact fun h b hb => h b (Or.inr (Or.inr hb))
        | some d =>
            have hsome : ¬ ∀ b ∈ c.labels, p b = false := fun h => by
              rw [ihc.mpr h] at hc
              cases hc
            simp only [ha, Bool.false_eq_true, if_false, reduceCtorEq, labels_node, List.mem_cons,
              List.mem_append, false_iff]
            exact fun h => hsome fun b hb => h b (Or.inr (Or.inl hb))

theorem mem_subtrees_of_below? {p : α → Bool} {t c : Forest α} (h : t.below? p = some c) :
    ∃ a, (a, c) ∈ t.subtrees ∧ p a = true := by
  induction t with
  | nil => cases h
  | node a d r ihc ihr =>
      unfold below? at h
      by_cases ha : p a
      · rw [if_pos ha] at h
        cases h
        exact ⟨a, by simp, ha⟩
      · rw [if_neg ha] at h
        cases hd : d.below? p with
        | some e =>
            rw [hd] at h
            cases h
            obtain ⟨b, hb, hpb⟩ := ihc hd
            exact ⟨b, by simp [hb], hpb⟩
        | none =>
            rw [hd] at h
            obtain ⟨b, hb, hpb⟩ := ihr h
            exact ⟨b, by simp [hb], hpb⟩

/-! ## Trees of single nodes -/

/-- Labels as roots without children. -/
def leaves (l : List α) : Forest α :=
  l.foldr (fun a rest => node a nil rest) nil

@[simp] theorem leaves_nil : leaves ([] : List α) = nil := rfl

@[simp] theorem leaves_cons (a : α) (l : List α) : leaves (a :: l) = node a nil (leaves l) := rfl

theorem leaves_append (l m : List α) : leaves (l ++ m) = leaves l ++ leaves m := by
  induction l with
  | nil => rfl
  | cons a l ih => simp [ih]

theorem map_leaves (f : α → β) (l : List α) : (leaves l).map f = leaves (l.map f) := by
  induction l with
  | nil => rfl
  | cons a l ih => simp [ih]

theorem labels_leaves (l : List α) : (leaves l).labels = l := by
  induction l with
  | nil => rfl
  | cons a l ih => simp [ih]

theorem rootLabels_leaves (l : List α) : (leaves l).rootLabels = l := by
  induction l with
  | nil => rfl
  | cons a l ih => simp [ih]

theorem size_leaves (l : List α) : (leaves l).size = l.length := by
  rw [← length_labels, labels_leaves]

end Forest

end Spellwork
