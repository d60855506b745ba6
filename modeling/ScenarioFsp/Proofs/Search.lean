import Mathlib.Data.Finset.Card
import Mathlib.Logic.Relation
import ScenarioFsp.Reachability

/-!
# Searching with a stack

A search takes a node from the top of a stack. A node seen for the first time is visited
and its successors go onto the stack, in any order and as often as they come; any other
node is dropped. Nodes that do not count are dropped as well. So the stack may grow in
every round, and nodes lie on it many times.

The search ends all the same: a visit uses up one of finitely many nodes, and between two
visits the stack shrinks (`acc_round`). When it has ended, every node that has been
visited can be reached and the successors of every visited node have been visited, so
that exactly the nodes that can be reached are visited, in whatever order that happened
(`finds`).
-/

namespace ScenarioFsp

/-- A search under way: the nodes visited so far, and the stack of those to be looked at. -/
structure Search (α : Type) where
  visited : List α
  todo : List α

namespace Search

variable {α : Type} {counts : α → Prop} {succ : α → List α} {start : List α}

/-- One round of a search among the nodes that count. -/
inductive Round (counts : α → Prop) (succ : α → List α) : Search α → Search α → Prop where
  | visit {visited rest more : List α} {a : α} :
      counts a → a ∉ visited → more.Perm (succ a) →
      Round counts succ ⟨visited, a :: rest⟩ ⟨a :: visited, more ++ rest⟩
  | drop {visited rest : List α} {a : α} :
      (counts a → a ∈ visited) → Round counts succ ⟨visited, a :: rest⟩ ⟨visited, rest⟩

/-- `b` can be reached from the nodes of `start` by way of nodes that count. -/
def Reached (counts : α → Prop) (succ : α → List α) (start : List α) (b : α) : Prop :=
  ∃ a ∈ start, counts a ∧ Relation.ReflTransGen (fun x y => y ∈ succ x ∧ counts y) a b

/-- Every search from `start` ends, with the stack empty, and has visited what is `found`. -/
structure Finds (counts : α → Prop) (succ : α → List α) (start : List α) (found : α → Prop) :
    Prop where
  /-- There is no infinite sequence of rounds. -/
  ends : Acc (fun after before => Round counts succ before after) ⟨[], start⟩
  found_iff : ∀ s, Relation.ReflTransGen (Round counts succ) ⟨[], start⟩ s →
    (∀ t, ¬Round counts succ s t) → s.todo = [] ∧ ∀ b, b ∈ s.visited ↔ found b

/-! ## The search ends -/

/-- There is a next round as long as the stack is not empty. -/
theorem todo_eq_nil {s : Search α} (h : ∀ t, ¬Round counts succ s t) : s.todo = [] := by
  obtain ⟨visited, todo⟩ := s
  cases todo with
  | nil => rfl
  | cons a rest =>
      by_cases hnew : counts a ∧ a ∉ visited
      · exact absurd (.visit hnew.1 hnew.2 (List.Perm.refl _)) (h _)
      · refine absurd (.drop fun hcounts => ?_) (h ⟨visited, rest⟩)
        exact Classical.byContradiction fun hmem => hnew ⟨hcounts, hmem⟩

/-- Among finitely many nodes every search ends. -/
theorem acc_round [DecidableEq α] {nodes : Finset α}
    (hclosed : ∀ a ∈ nodes, ∀ b ∈ succ a, counts b → b ∈ nodes) {visited todo : List α}
    (htodo : ∀ a ∈ todo, counts a → a ∈ nodes) :
    Acc (fun after before => Round counts succ before after) ⟨visited, todo⟩ := by
  -- a visit leaves fewer nodes to be visited; for the rounds up to then the stack shrinks
  induction hfresh : nodes.filter (fun a => a ∉ visited) using Finset.strongInduction
    generalizing visited todo with
  | _ fresh ih =>
      induction todo with
      | nil => exact .intro _ fun _ hround => nomatch hround
      | cons a rest ihrest =>
          refine .intro _ fun t hround => ?_
          cases hround with
          | @visit _ _ more _ hcounts hnew hmore =>
              have hnode : a ∈ nodes := htodo a List.mem_cons_self hcounts
              refine ih _ ?_ (fun b hb hbcounts => ?_) rfl
              · rw [← hfresh, Finset.ssubset_iff_of_subset]
                · exact ⟨a, Finset.mem_filter.mpr ⟨hnode, hnew⟩, by simp⟩
                · intro b hb
                  obtain ⟨hbnode, hbnew⟩ := Finset.mem_filter.mp hb
                  exact Finset.mem_filter.mpr
                    ⟨hbnode, fun hmem => hbnew (List.mem_cons_of_mem a hmem)⟩
              · rcases List.mem_append.mp hb with hsucc | hrest
                · exact hclosed a hnode b (hmore.mem_iff.mp hsucc) hbcounts
                · exact htodo b (List.mem_cons_of_mem a hrest) hbcounts
          | drop _ => exact ihrest fun b hb => htodo b (List.mem_cons_of_mem a hb)

/-! ## What it finds -/

/-- What holds between two rounds: only what can be reached has been visited or will be, and
nothing is lost, since what is not visited yet is on the stack. -/
structure Keeps (counts : α → Prop) (succ : α → List α) (start : List α) (s : Search α) :
    Prop where
  visited : ∀ b ∈ s.visited, Reached counts succ start b
  todo : ∀ b ∈ s.todo, counts b → Reached counts succ start b
  start : ∀ b ∈ start, counts b → b ∈ s.visited ∨ b ∈ s.todo
  successors : ∀ a ∈ s.visited, ∀ b ∈ succ a, counts b → b ∈ s.visited ∨ b ∈ s.todo

theorem keeps_start : Keeps counts succ start ⟨[], start⟩ where
  visited _ hb := absurd hb List.not_mem_nil
  todo b hb hcounts := ⟨b, hb, hcounts, .refl⟩
  start _ hb _ := Or.inr hb
  successors _ ha := absurd ha List.not_mem_nil

theorem Keeps.round {s t : Search α} (h : Keeps counts succ start s)
    (hround : Round counts succ s t) : Keeps counts succ start t := by
  cases hround with
  | @visit visited rest more a hcounts hnew hmore =>
      have hreached := h.todo a List.mem_cons_self hcounts
      -- a node that is not lost before the visit is not lost by it
      have hstays : ∀ b, b ∈ visited ∨ b ∈ a :: rest → b ∈ a :: visited ∨ b ∈ more ++ rest := by
        intro b hb
        rcases hb with hb | hb
        · exact Or.inl (List.mem_cons_of_mem a hb)
        · rcases List.mem_cons.mp hb with rfl | hb
          · exact Or.inl List.mem_cons_self
          · exact Or.inr (List.mem_append_right more hb)
      refine ⟨fun b hb => ?_, fun b hb hbcounts => ?_, fun b hb hbcounts =>
        hstays b (h.start b hb hbcounts), fun c hc b hb hbcounts => ?_⟩
      · rcases List.mem_cons.mp hb with rfl | hb
        · exact hreached
        · exact h.visited b hb
      · rcases List.mem_append.mp hb with hb | hb
        · obtain ⟨c, hc, hccounts, hpath⟩ := hreached
          exact ⟨c, hc, hccounts, hpath.tail ⟨hmore.mem_iff.mp hb, hbcounts⟩⟩
        · exact h.todo b (List.mem_cons_of_mem a hb) hbcounts
      · rcases List.mem_cons.mp hc with rfl | hc
        · exact Or.inr (List.mem_append_left rest (hmore.mem_iff.mpr hb))
        · exact hstays b (h.successors c hc b hb hbcounts)
  | @drop visited rest a hold =>
      have hstays : ∀ b, counts b → b ∈ visited ∨ b ∈ a :: rest → b ∈ visited ∨ b ∈ rest := by
        intro b hcounts hb
        rcases hb with hb | hb
        · exact Or.inl hb
        · rcases List.mem_cons.mp hb with rfl | hb
          · exact Or.inl (hold hcounts)
          · exact Or.inr hb
      exact ⟨h.visited, fun b hb => h.todo b (List.mem_cons_of_mem a hb),
        fun b hb hcounts => hstays b hcounts (h.start b hb hcounts),
        fun c hc b hb hcounts => hstays b hcounts (h.successors c hc b hb hcounts)⟩

theorem Keeps.rounds {s t : Search α} (h : Keeps counts succ start s)
    (hrounds : Relation.ReflTransGen (Round counts succ) s t) : Keeps counts succ start t := by
  induction hrounds with
  | refl => exact h
  | tail _ hround ih => exact ih.round hround

/-- With an empty stack nothing is missing. -/
theorem Keeps.mem_visited_iff {s : Search α} (h : Keeps counts succ start s) (hend : s.todo = [])
    {b : α} : b ∈ s.visited ↔ Reached counts succ start b := by
  refine ⟨h.visited b, fun hb => ?_⟩
  obtain ⟨a, ha, hcounts, hpath⟩ := hb
  have hnone : ∀ c, c ∈ s.visited ∨ c ∈ s.todo → c ∈ s.visited := by
    intro c hc
    rw [hend] at hc
    exact hc.resolve_right List.not_mem_nil
  induction hpath with
  | refl => exact hnone a (h.start a ha hcounts)
  | tail _ hstep ih => exact hnone _ (h.successors _ ih _ hstep.1 hstep.2)

/-- **A search among finitely many nodes ends, and finds exactly what can be reached.** -/
theorem finds [DecidableEq α] {nodes : Finset α}
    (hclosed : ∀ a ∈ nodes, ∀ b ∈ succ a, counts b → b ∈ nodes)
    (hstart : ∀ a ∈ start, counts a → a ∈ nodes) :
    Finds counts succ start (Reached counts succ start) where
  ends := acc_round hclosed hstart
  found_iff _ hrounds hstuck :=
    have hend := todo_eq_nil hstuck
    ⟨hend, fun _ => (keeps_start.rounds hrounds).mem_visited_iff hend⟩

end Search

end ScenarioFsp
