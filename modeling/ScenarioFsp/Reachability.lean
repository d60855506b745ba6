/-!
# What a search reaches

One search serves the whole library: the closure of a relation, the rules a
grammar uses, the rules it reaches silently, and the scenarios a flow graph
reaches. `explore` visits a node at most once, because a visited node leaves the
stock of fresh ones; that is also why it ends on cyclic graphs.

Main statement: `mem_reachable_iff`, the search finds exactly what steps lead to.
-/

namespace ScenarioFsp

variable {α : Type}

/-- How many successors the nodes of a list have together. -/
def outgoing (succ : α → List α) : List α → Nat
  | [] => 0
  | a :: as => (succ a).length + outgoing succ as

theorem outgoing_erase [DecidableEq α] (succ : α → List α) {a : α} {l : List α} (h : a ∈ l) :
    outgoing succ (l.erase a) + (succ a).length = outgoing succ l := by
  induction l with
  | nil => exact absurd h (by simp)
  | cons b bs ih =>
    by_cases hb : b = a
    · subst hb
      rw [List.erase_cons_head]
      exact Nat.add_comm ..
    · have hmem : a ∈ bs := (List.mem_cons.mp h).resolve_left (Ne.symm hb)
      rw [List.erase_cons_tail (by simpa using hb)]
      have := ih hmem
      simp only [outgoing]
      omega

/--
The nodes visited from `todo`, in the order of the visits: a fresh node is
visited and its successors are put in front of the work that is left; a node
that is not fresh is passed over. What is left to do, together with what the
fresh nodes may still add to it, shrinks in every step.
-/
def explore [DecidableEq α] (succ : α → List α) (fresh : List α) (todo : List α) : List α :=
  match todo with
  | [] => []
  | a :: rest =>
    if a ∈ fresh then a :: explore succ (fresh.erase a) (succ a ++ rest)
    else explore succ fresh rest
termination_by todo.length + outgoing succ fresh
decreasing_by
  · rename_i h
    have := outgoing_erase succ h
    simp only [List.length_append, List.length_cons]
    omega
  · simp only [List.length_cons]
    omega

/-- Those of `nodes` that can be reached from `start` by way of `nodes`, in the order of `nodes`. -/
def reachable [DecidableEq α] (succ : α → List α) (nodes start : List α) : List α :=
  let visited := explore succ nodes start
  nodes.filter fun a => decide (a ∈ visited)

/-! ## Reaching a node by steps -/

/-- A node is reached if it is among `start`, or one step behind a node that is; both by way of
`nodes` only. -/
inductive Reaches (succ : α → List α) (nodes start : List α) : α → Prop where
  | start {a : α} : a ∈ start → a ∈ nodes → Reaches succ nodes start a
  | step {a b : α} :
      Reaches succ nodes start a → b ∈ succ a → b ∈ nodes → Reaches succ nodes start b

variable {succ : α → List α}

theorem Reaches.mem {nodes start : List α} {a : α} (h : Reaches succ nodes start a) :
    a ∈ nodes := by
  cases h with
  | start _ h => exact h
  | step _ _ h => exact h

theorem not_reaches_nil {nodes : List α} {x : α} : ¬Reaches succ nodes [] x := by
  intro h
  induction h with
  | start h => exact absurd h (by simp)
  | step _ _ _ ih => exact ih

/-- What starts at a node outside of `nodes` goes nowhere. -/
theorem reaches_cons_of_not_mem {nodes start : List α} {a x : α} (ha : a ∉ nodes) :
    Reaches succ nodes (a :: start) x ↔ Reaches succ nodes start x := by
  constructor
  · intro h
    induction h with
    | start h hn =>
      rcases List.mem_cons.mp h with rfl | h
      · exact absurd hn ha
      · exact .start h hn
    | step _ hs hn ih => exact .step ih hs hn
  · intro h
    induction h with
    | start h hn => exact .start (List.mem_cons_of_mem _ h) hn
    | step _ hs hn ih => exact .step ih hs hn

/-- Once a node has been visited, its successors do for it. -/
theorem reaches_cons_of_mem [DecidableEq α] {nodes start : List α} {a x : α} (ha : a ∈ nodes) :
    Reaches succ nodes (a :: start) x ↔
      x = a ∨ Reaches succ (nodes.erase a) (succ a ++ start) x := by
  constructor
  · intro h
    induction h with
    | @start b h hn =>
      by_cases hb : b = a
      · exact .inl hb
      · refine .inr (.start (List.mem_append_right _ ?_) ((List.mem_erase_of_ne hb).mpr hn))
        exact (List.mem_cons.mp h).resolve_left hb
    | @step b c _ hs hn ih =>
      by_cases hc : c = a
      · exact .inl hc
      · have hn' : c ∈ nodes.erase a := (List.mem_erase_of_ne hc).mpr hn
        rcases ih with rfl | ih
        · exact .inr (.start (List.mem_append_left _ hs) hn')
        · exact .inr (.step ih hs hn')
  · rintro (rfl | h)
    · exact .start (List.mem_cons_self ..) ha
    · have hfirst : Reaches succ nodes (a :: start) a := .start (List.mem_cons_self ..) ha
      induction h with
      | start h hn =>
        rcases List.mem_append.mp h with h | h
        · exact .step hfirst h (List.mem_of_mem_erase hn)
        · exact .start (List.mem_cons_of_mem _ h) (List.mem_of_mem_erase hn)
      | step _ hs hn ih => exact .step ih hs (List.mem_of_mem_erase hn)

theorem mem_explore_iff [DecidableEq α] (fresh todo : List α) (x : α) :
    x ∈ explore succ fresh todo ↔ Reaches succ fresh todo x := by
  fun_induction explore succ fresh todo with
  | case1 => simp [not_reaches_nil]
  | case2 fresh a rest ha ih => rw [reaches_cons_of_mem ha, List.mem_cons, ih]
  | case3 fresh a rest ha ih => rw [reaches_cons_of_not_mem ha, ih]

/-- The search finds exactly what steps lead to. -/
theorem mem_reachable_iff [DecidableEq α] {nodes start : List α} {x : α} :
    x ∈ reachable succ nodes start ↔ Reaches succ nodes start x := by
  simp only [reachable, List.mem_filter, decide_eq_true_eq, mem_explore_iff]
  exact ⟨fun h => h.2, fun h => ⟨h.mem, h⟩⟩

end ScenarioFsp
