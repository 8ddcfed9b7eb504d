import Spellwork.Proofs.OutlineText
import Spellwork.Proofs.Planting
import Spellwork.Proofs.RoundTrip

/-!
# Rendering a tree and planting it again

The outline of a tree writes every effect out with its id, so planting it mints nothing. A tree that
operations build comes back as it was, and so it does through the text of its outline, unless that
nests too deep to be read at all.
-/

namespace Spellwork

namespace Tree

open Forest

theorem Valid.outcome_ne_none {t : Tree} (h : Valid t) :
    ∀ s ∈ t.subtrees, ∀ n ∈ s.2.rootLabels, n.outcome ≠ none := by
  intro s hs n hn
  obtain ⟨o, ho, -⟩ := h.admits s hs n hn
  rw [ho]
  exact Option.some_ne_none o

theorem Valid.plant_of_rootsBare {t : Tree} (h : Valid t) (hbare : RootsBare t)
    (mint : Random.Mint) : Outline.plant t.outline mint = .ok (t, mint) := by
  have hfresh : (ids .nil ++ t.ids).Nodup := h.ids_nodup
  rw [Outline.plant, Outline.drafts_outline hbare h.ordered h.outcome_ne_none,
    Outline.plantDrafts_roots hfresh hbare h.root_kind h.orderly, nil_append]

theorem Valid.tidy_outline {t : Tree} (h : Valid t) : ∀ o ∈ t.outline, Outline.Tidy o := by
  intro o ho
  obtain ⟨b, hb, rfl⟩ := List.mem_map.mp ho
  exact Outline.tidy_outlined h.ordered b hb

/-- Rendering a tree that operations have built and planting the outline gives the tree back and
mints no id. Through text it is the same, or the text is refused: that is where more than 127 arrays
and objects stand inside one another. -/
theorem Built.plant_outline {t : Tree} (h : Built t) (mint : Random.Mint) :
    Outline.plant t.outline mint = .ok (t, mint) ∧
      (Outline.readList? (Outline.writeList t.outline)).map (Outline.plant · mint) =
        if (Json.array (Outline.toJsons t.outline)).depth ≤ 127 then some (.ok (t, mint))
        else none := by
  have hvalid := h.reachable.valid
  have hplant := hvalid.plant_of_rootsBare h.rootsBare mint
  refine ⟨hplant, ?_⟩
  rw [Outline.readList?_writeList_of_tidy hvalid.tidy_outline, Json.maxDepth]
  by_cases hdepth : (Json.array (Outline.toJsons t.outline)).depth ≤ 127
  · rw [if_pos hdepth, if_pos hdepth, Option.map_some, hplant]
  · rw [if_neg hdepth, if_neg hdepth, Option.map_none]

theorem plant_outline_gradedFailures :
    Outline.plant gradedFailures.outline (.ofSeed 1) = .ok (gradedFailures, .ofSeed 1) ∧
      (Outline.readList? (Outline.writeList gradedFailures.outline)).map
        (Outline.plant · (.ofSeed 1)) = some (.ok (gradedFailures, .ofSeed 1)) := by
  obtain ⟨hplant, htext⟩ := Built.plant_outline built_gradedFailures (.ofSeed 1)
  have hdepth : (Json.array (Outline.toJsons gradedFailures.outline)).depth ≤ 127 := by
    decide
  exact ⟨hplant, htext.trans (if_pos hdepth)⟩

end Tree

end Spellwork
