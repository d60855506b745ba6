import Mathlib.Logic.Relation
import ScenarioFsp.Relation

/-!
# The closure of a relation

The closure is found by a search from every symbol that is related to something.
What the search finds is what a chain of pairs leads to: the closure is the
transitive closure of the pairs, and nothing in it depends on how they are stored.
-/

namespace ScenarioFsp

namespace Relation

/-- `a` is related to `b`. -/
def Relates (r : Relation) (a b : Symbol) : Prop := (a, b) ∈ r.pairs

variable {r : Relation} {a b : Symbol}

theorem relates_union_iff {s : Relation} :
    (r.union s).Relates a b ↔ r.Relates a b ∨ s.Relates a b :=
  OrderedSet.mem_union

theorem relates_ofPairs_iff {l : List (Symbol × Symbol)} :
    (ofPairs l).Relates a b ↔ (a, b) ∈ l :=
  OrderedSet.mem_ofList

theorem mem_image_iff : b ∈ r.image a ↔ r.Relates a b := by
  simp only [image, List.mem_map, List.mem_filter, decide_eq_true_eq]
  refine ⟨fun h => ?_, fun h => ?_⟩
  · obtain ⟨⟨x, y⟩, ⟨hmem, rfl⟩, rfl⟩ := h
    exact hmem
  · exact ⟨(a, b), ⟨h, rfl⟩, rfl⟩

theorem mem_targets (h : r.Relates a b) : b ∈ r.targets := by
  unfold targets
  rw [OrderedSet.mem_ofList]
  exact List.mem_map.mpr ⟨(a, b), h, rfl⟩

theorem mem_sources (h : r.Relates a b) : a ∈ r.sources := by
  unfold sources
  rw [OrderedSet.mem_ofList]
  exact List.mem_map.mpr ⟨(a, b), h, rfl⟩

/-- The search from the image of `a` finds what is reached in one step or more. -/
theorem mem_reached_iff : b ∈ r.reached a ↔ Relation.TransGen r.Relates a b := by
  unfold reached
  rw [mem_reachable_iff]
  refine ⟨fun h => ?_, fun h => ?_⟩
  · induction h with
    | start hb _ => exact .single (mem_image_iff.mp hb)
    | step _ hb _ ih => exact ih.tail (mem_image_iff.mp hb)
  · induction h with
    | single hab => exact .start (mem_image_iff.mpr hab) (mem_targets hab)
    | tail _ hbc ih => exact .step ih (mem_image_iff.mpr hbc) (mem_targets hbc)

/-- **The closure relates what a chain of pairs leads to.** -/
theorem relates_closure_iff : r.closure.Relates a b ↔ Relation.TransGen r.Relates a b := by
  unfold closure
  rw [relates_ofPairs_iff]
  simp only [List.mem_flatMap, List.mem_map, Prod.mk.injEq]
  refine ⟨fun h => ?_, fun h => ?_⟩
  · obtain ⟨x, -, y, hy, rfl, rfl⟩ := h
    exact mem_reached_iff.mp hy
  · refine ⟨a, ?_, b, mem_reached_iff.mpr h, rfl, rfl⟩
    obtain ⟨c, hac, -⟩ := Relation.TransGen.head'_iff.mp h
    exact mem_sources hac

end Relation

end ScenarioFsp
