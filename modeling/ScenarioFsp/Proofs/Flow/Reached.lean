import Mathlib.Data.Finset.Card
import Mathlib.Data.List.Dedup
import ScenarioFsp.Document.Loader
import ScenarioFsp.Proofs.References
import ScenarioFsp.Proofs.Search

/-!
# Searching with a queue

A search that goes in breadth takes a node from the front of a queue, and the successors
that it has not met before go to the end of the queue, each of them once. The nodes where
it starts count as met. So a node may lie on a cycle, lead to itself, or be met from many
sides: it enters the queue when it is met first and never again.

That is why the search ends (`acc_sweep`). In the end every node that has been met has had
its turn, so that exactly the nodes that can be reached have been met (`sweeps`). For the
scenarios of a specification this is what `reachableScenarios` answers
(`Closed.mem_reachableScenarios_iff`).
-/

namespace ScenarioFsp

namespace Search

variable {α : Type} {succ : α → List α} {start : List α}

/-- One round of a search in breadth. Here `visited` are the nodes met so far. -/
inductive Sweep (succ : α → List α) : Search α → Search α → Prop where
  | round {visited rest new : List α} {a : α} :
      new.Nodup → (∀ b, b ∈ new ↔ b ∈ succ a ∧ b ∉ visited) →
      Sweep succ ⟨visited, a :: rest⟩ ⟨visited ++ new, rest ++ new⟩

/-- Every search in breadth from `start` ends, with the queue empty, and has met what is `found`. -/
structure Sweeps (succ : α → List α) (start : List α) (found : α → Prop) : Prop where
  /-- There is no infinite sequence of rounds. -/
  ends : Acc (fun after before => Sweep succ before after) ⟨start, start⟩
  found_iff : ∀ s, Relation.ReflTransGen (Sweep succ) ⟨start, start⟩ s →
    (∀ t, ¬Sweep succ s t) → s.todo = [] ∧ ∀ b, b ∈ s.visited ↔ found b

/-! ## The search ends -/

/-- There is a next round as long as the queue is not empty. -/
theorem todo_eq_nil_of_not_sweep [DecidableEq α] {s : Search α} (h : ∀ t, ¬Sweep succ s t) :
    s.todo = [] := by
  obtain ⟨visited, todo⟩ := s
  cases todo with
  | nil => rfl
  | cons a rest =>
      have hnodup : ((succ a).filter fun b => decide (b ∉ visited)).dedup.Nodup :=
        List.nodup_dedup _
      refine absurd (Sweep.round hnodup fun b => ?_) (h _)
      rw [List.mem_dedup, List.mem_filter, decide_eq_true_iff]

/-- How many of the nodes have not been met, and how many are in the queue. -/
def waiting [DecidableEq α] (nodes : Finset α) (s : Search α) : Nat :=
  (nodes.filter fun a => a ∉ s.visited).card + s.todo.length

/-- What goes to the end of the queue has not been met before, so that a round only takes away the
front of the queue. -/
theorem Sweep.waiting_lt [DecidableEq α] {nodes : Finset α} {s t : Search α}
    (hnodes : ∀ a, ∀ b ∈ succ a, b ∈ nodes) (h : Sweep succ s t) :
    t.waiting nodes < s.waiting nodes := by
  cases h with
  | @round visited rest new a hnodup hnew =>
      have hsub : new.toFinset ⊆ nodes.filter fun b => b ∉ visited := by
        intro b hb
        obtain ⟨hsucc, hfresh⟩ := (hnew b).mp (List.mem_toFinset.mp hb)
        exact Finset.mem_filter.mpr ⟨hnodes a b hsucc, hfresh⟩
      have hleft : (nodes.filter fun b => b ∉ visited ++ new) =
          (nodes.filter fun b => b ∉ visited) \ new.toFinset := by
        ext b
        simp only [Finset.mem_filter, Finset.mem_sdiff, List.mem_append, List.mem_toFinset, not_or,
          and_assoc]
      have hcard := Finset.card_sdiff_add_card_eq_card hsub
      rw [List.toFinset_card_of_nodup hnodup] at hcard
      show (nodes.filter fun b => b ∉ visited ++ new).card + (rest ++ new).length <
        (nodes.filter fun b => b ∉ visited).card + (a :: rest).length
      rw [hleft, List.length_append, List.length_cons]
      omega

/-- Among finitely many nodes every search in breadth ends. -/
theorem acc_sweep [DecidableEq α] {nodes : Finset α} (hnodes : ∀ a, ∀ b ∈ succ a, b ∈ nodes)
    (s : Search α) : Acc (fun after before => Sweep succ before after) s :=
  Subrelation.accessible (fun hround => hround.waiting_lt hnodes)
    ((measure fun s : Search α => s.waiting nodes).wf.apply s)

/-! ## What it meets -/

/-- What holds between two rounds: only what can be reached has been met, only what has been met
is in the queue, and what has left the queue has no successors that have not been met. -/
structure Spreads (succ : α → List α) (start : List α) (s : Search α) : Prop where
  visited : ∀ b ∈ s.visited, Reached (fun _ => True) succ start b
  todo : ∀ b ∈ s.todo, b ∈ s.visited
  start : ∀ b ∈ start, b ∈ s.visited
  done : ∀ a ∈ s.visited, a ∉ s.todo → ∀ b ∈ succ a, b ∈ s.visited

theorem spreads_start : Spreads succ start ⟨start, start⟩ where
  visited b hb := ⟨b, hb, trivial, .refl⟩
  todo _ hb := hb
  start _ hb := hb
  done _ ha hnot := absurd ha hnot

theorem Spreads.sweep {s t : Search α} (h : Spreads succ start s) (hround : Sweep succ s t) :
    Spreads succ start t := by
  cases hround with
  | @round visited rest new a hnodup hnew =>
      have ha : a ∈ visited := h.todo a List.mem_cons_self
      refine ⟨fun b hb => ?_, fun b hb => ?_, fun b hb => List.mem_append_left new (h.start b hb),
        fun c hc hnot b hb => ?_⟩
      · rcases List.mem_append.mp hb with hold | hmet
        · exact h.visited b hold
        · obtain ⟨first, hfirst, -, hpath⟩ := h.visited a ha
          exact ⟨first, hfirst, trivial, hpath.tail ⟨((hnew b).mp hmet).1, trivial⟩⟩
      · rcases List.mem_append.mp hb with hrest | hmet
        · exact List.mem_append_left new (h.todo b (List.mem_cons_of_mem a hrest))
        · exact List.mem_append_right visited hmet
      · obtain ⟨hrest, hlate⟩ := not_or.mp (mt List.mem_append.mpr hnot)
        have hold : c ∈ visited := (List.mem_append.mp hc).resolve_right hlate
        by_cases hmet : b ∈ visited
        · exact List.mem_append_left new hmet
        · by_cases hca : c = a
          · subst hca
            exact List.mem_append_right visited ((hnew b).mpr ⟨hb, hmet⟩)
          · -- a node behind the front had its turn before
            have hturn : c ∉ a :: rest := fun hmem => (List.mem_cons.mp hmem).elim hca hrest
            exact absurd (h.done c hold hturn b hb) hmet

theorem Spreads.sweeps {s t : Search α} (h : Spreads succ start s)
    (hrounds : Relation.ReflTransGen (Sweep succ) s t) : Spreads succ start t := by
  induction hrounds with
  | refl => exact h
  | tail _ hround ih => exact ih.sweep hround

/-- With an empty queue nothing is missing. -/
theorem Spreads.mem_visited_iff {s : Search α} (h : Spreads succ start s) (hend : s.todo = [])
    {b : α} : b ∈ s.visited ↔ Reached (fun _ => True) succ start b := by
  refine ⟨h.visited b, fun hb => ?_⟩
  obtain ⟨first, hfirst, -, hpath⟩ := hb
  induction hpath with
  | refl => exact h.start first hfirst
  | @tail x y _ hstep ih =>
      have hturn : x ∉ s.todo := by
        rw [hend]
        exact List.not_mem_nil
      exact h.done x ih hturn y hstep.1

/-- **A search in breadth among finitely many nodes ends, and meets exactly what can be
reached.** -/
theorem sweeps [DecidableEq α] {nodes : Finset α} (hnodes : ∀ a, ∀ b ∈ succ a, b ∈ nodes) :
    Sweeps succ start (Reached (fun _ => True) succ start) where
  ends := acc_sweep hnodes _
  found_iff _ hrounds hstuck :=
    have hend := todo_eq_nil_of_not_sweep hstuck
    ⟨hend, fun _ => (spreads_start.sweeps hrounds).mem_visited_iff hend⟩

end Search

/-! ## The scenarios of a specification -/

namespace Specification

variable {spec : Specification} {id s t : ScenarioId}

/-- Continuation edges lead from an initial scenario to this one. -/
def Reached (spec : Specification) (id : ScenarioId) : Prop :=
  ∃ first ∈ spec.initial, Relation.ReflTransGen (fun s t => ⟨s, t⟩ ∈ spec.edges) first id

theorem mem_continuations_iff : t ∈ spec.continuations s ↔ ⟨s, t⟩ ∈ spec.edges := by
  unfold continuations
  simp only [List.mem_map, List.mem_filter, decide_eq_true_eq]
  refine ⟨fun h => ?_, fun h => ⟨⟨s, t⟩, ⟨h, rfl⟩, rfl⟩⟩
  obtain ⟨⟨s', t'⟩, ⟨he, rfl⟩, rfl⟩ := h
  exact he

theorem reached_continuations_iff :
    Search.Reached (fun _ => True) spec.continuations spec.initial id ↔ spec.Reached id := by
  unfold Search.Reached Reached
  simp only [mem_continuations_iff, and_true, true_and]

/-- **Every search in breadth from the initial scenarios meets exactly what is reached.** -/
theorem sweeps_reached (spec : Specification) :
    Search.Sweeps spec.continuations spec.initial spec.Reached := by
  have hnodes : ∀ s, ∀ t ∈ spec.continuations s, t ∈ (spec.edges.map Edge.target).toFinset := by
    intro s t ht
    exact List.mem_toFinset.mpr (List.mem_map_of_mem (mem_continuations_iff.mp ht))
  have hfound : Search.Reached (fun _ => True) spec.continuations spec.initial = spec.Reached :=
    funext fun _ => propext reached_continuations_iff
  exact hfound ▸ Search.sweeps hnodes

/-- Where nothing dangles, no edge leads out of the declared scenarios. -/
theorem Closed.mem_reachableScenarios_iff (h : spec.Closed) :
    id ∈ spec.reachableScenarios ↔ spec.Reached id := by
  unfold reachableScenarios
  rw [mem_reachable_iff]
  refine ⟨fun hreaches => ?_, fun hreached => ?_⟩
  · induction hreaches with
    | start hinitial _ => exact ⟨_, hinitial, .refl⟩
    | step _ hnext _ ih =>
        obtain ⟨first, hfirst, hpath⟩ := ih
        exact ⟨first, hfirst, hpath.tail (mem_continuations_iff.mp hnext)⟩
  · obtain ⟨first, hfirst, hpath⟩ := hreached
    induction hpath with
    | refl => exact .start hfirst (mem_scenarioIds_iff.mpr (h _ (.initial hfirst)))
    | tail _ hedge ih =>
        exact .step ih (mem_continuations_iff.mpr hedge)
          (mem_scenarioIds_iff.mpr (h _ (.target hedge)))

end Specification

end ScenarioFsp
