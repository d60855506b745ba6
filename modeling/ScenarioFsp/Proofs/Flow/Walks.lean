import Mathlib.Data.List.Chain
import ScenarioFsp.Continuation
import ScenarioFsp.Proofs.Flow.Lifelines

/-!
# Walks through the flow graph

A walk starts at an initial scenario and goes from each scenario to one that may
follow it. What a component is seen to do on a walk are its messages in the
scenarios of the walk, `_tau` left out; a scenario in which it takes no part adds
nothing. This is what a grammar of the component is measured against, and it does
not mention symbols or productions.
-/

namespace ScenarioFsp

namespace Specification

/-- Every scenario to which the flow graph or the component refers is declared. -/
structure Resolves (spec : Specification) (c : Component) : Prop where
  sources : ∀ e ∈ spec.edges, spec.declares e.source = true
  targets : ∀ e ∈ spec.edges, spec.declares e.target = true
  initial : ∀ id ∈ spec.initial, spec.declares id = true
  finals : ∀ id ∈ spec.finals, spec.declares id = true
  lifelines : ∀ id ∈ c.lifelines.keys, spec.declares id = true

/-- The first scenario is initial, and each may follow the one before it. -/
def Walk (spec : Specification) (ids : List ScenarioId) : Prop :=
  (∀ id ∈ ids.head?, id ∈ spec.initial) ∧
    ids.IsChain fun s t => (⟨s, t⟩ : Edge) ∈ spec.edges

end Specification

/-- What a component is seen to do in the given scenarios. -/
def Component.spoken (c : Component) (ids : List ScenarioId) : List String :=
  (ids.flatMap fun id => (c.lifeline id).messages).filter fun a => decide (a ≠ Symbol.tau)

theorem Component.spoken_append (c : Component) (ids ids' : List ScenarioId) :
    c.spoken (ids ++ ids') = c.spoken ids ++ c.spoken ids' := by
  unfold spoken
  rw [List.flatMap_append, List.filter_append]

theorem Component.spoken_singleton (c : Component) (id : ScenarioId) :
    c.spoken [id] = (c.lifeline id).spoken := by
  unfold spoken Lifeline.spoken
  rw [List.flatMap_singleton]

/-- A component is silent where it takes no part. -/
theorem Component.spoken_eq_nil {c : Component} {ids : List ScenarioId}
    (h : ∀ id ∈ ids, c.lifeline id = []) : c.spoken ids = [] := by
  unfold spoken
  have hnone : (ids.flatMap fun id => (c.lifeline id).messages) = [] := by
    rw [List.flatMap_eq_nil_iff]
    intro id hid
    rw [h id hid]
    rfl
  rw [hnone]
  rfl

/-- What holds of nothing and of every lifeline a component has, holds in every scenario. -/
theorem Component.forall_lifeline {c : Component} {P : Lifeline → Prop} (hnil : P [])
    (h : ∀ entry ∈ c.lifelines.entries, P entry.2) (id : ScenarioId) : P (c.lifeline id) := by
  unfold lifeline
  cases hget : c.lifelines.get? id with
  | none => exact hnil
  | some events => exact h (id, events) (OrderedMap.get?_eq_some_iff.mp hget)

namespace Specification

variable {spec : Specification} {c : Component}

theorem walk_nil (spec : Specification) : spec.Walk [] :=
  ⟨fun _ h => absurd h (by simp), List.isChain_nil⟩

/-- A walk without its last scenario is a walk. -/
theorem Walk.init {walk : List ScenarioId} {s : ScenarioId} (h : spec.Walk (walk ++ [s])) :
    spec.Walk walk := by
  refine ⟨fun id hid => h.1 id ?_, (List.isChain_append.mp h.2).1⟩
  rw [List.head?_append]
  rw [hid]
  rfl

/-- The last scenario follows the one before it. -/
theorem Walk.edge {walk : List ScenarioId} {u s : ScenarioId}
    (h : spec.Walk (walk ++ [u] ++ [s])) : (⟨u, s⟩ : Edge) ∈ spec.edges := by
  refine (List.isChain_append.mp h.2).2.2 u ?_ s ?_
  · rw [List.getLast?_concat]
    exact rfl
  · exact rfl

theorem Walk.initial {s : ScenarioId} (h : spec.Walk [s]) : s ∈ spec.initial := h.1 s rfl

/-- Every scenario of a walk is declared. -/
theorem Walk.declared {walk : List ScenarioId} (h : spec.Walk walk) (hres : spec.Resolves c) :
    ∀ s ∈ walk, spec.declares s = true := by
  induction walk using List.reverseRecOn with
  | nil => exact fun s hs => absurd hs List.not_mem_nil
  | append_singleton walk u ih =>
      intro s hs
      rcases List.mem_append.mp hs with hmem | hlast
      · exact ih h.init s hmem
      · rw [List.mem_singleton.mp hlast]
        -- declared as an initial scenario or as the target of an edge
        cases hw : walk.getLast? with
        | none =>
            rw [List.getLast?_eq_none_iff.mp hw] at h
            exact hres.initial u (Walk.initial h)
        | some v =>
            exact hres.targets ⟨v, u⟩ ((List.isChain_append.mp h.2).2.2 v hw u rfl)

/-- A walk may be prolonged by scenarios that follow its end, or from nothing by initial ones. -/
theorem Walk.append {walk route : List ScenarioId} (h : spec.Walk walk)
    (hroute : route.IsChain fun s t => (⟨s, t⟩ : Edge) ∈ spec.edges)
    (hfirst : walk = [] → ∀ id ∈ route.head?, id ∈ spec.initial)
    (hnext : ∀ u ∈ walk.getLast?, ∀ id ∈ route.head?, (⟨u, id⟩ : Edge) ∈ spec.edges) :
    spec.Walk (walk ++ route) := by
  refine ⟨fun id hid => ?_, List.isChain_append.mpr ⟨h.2, hroute, hnext⟩⟩
  cases walk with
  | nil => exact hfirst rfl id hid
  | cons s rest => exact h.1 id hid

/-! ## Names -/

theorem scenario?_of_declares {id : ScenarioId} (h : spec.declares id = true) :
    spec.scenario? id = some (spec.nameOf id) := by
  have hlt : id.index < spec.scenarios.length := of_decide_eq_true h
  unfold nameOf scenario?
  rw [List.getElem?_eq_getElem hlt]
  rfl

/-- Declared scenarios are told apart by their names. -/
theorem nameOf_inj {s t : ScenarioId} (hs : spec.declares s = true) (ht : spec.declares t = true)
    (h : spec.nameOf s = spec.nameOf t) : s = t := by
  have hlt : s.index < spec.scenarios.length := of_decide_eq_true hs
  have heq : spec.scenarios[s.index]? = spec.scenarios[t.index]? := by
    have hs' := scenario?_of_declares hs
    have ht' := scenario?_of_declares ht
    unfold scenario? at hs' ht'
    rw [hs', ht', h]
  have hindex := (List.getElem?_inj hlt spec.scenarios_nodup).mp heq
  cases s with
  | mk i =>
      cases t with
      | mk j => exact congrArg ScenarioId.mk hindex

theorem mem_lifelinesOf_iff {name : String} {events : Lifeline} :
    (name, events) ∈ spec.lifelinesOf c ↔
      ∃ id, spec.declares id = true ∧ name = spec.nameOf id ∧ events = c.lifeline id := by
  unfold lifelinesOf scenarioIds
  simp only [List.mem_filterMap, List.mem_map, List.mem_range]
  refine ⟨fun h => ?_, fun h => ?_⟩
  · obtain ⟨id, ⟨i, hi, rfl⟩, hname⟩ := h
    have hdecl : spec.declares ⟨i⟩ = true := decide_eq_true hi
    rw [scenario?_of_declares hdecl, Option.map_some] at hname
    obtain ⟨rfl, rfl⟩ := Prod.mk.inj (Option.some.inj hname)
    exact ⟨⟨i⟩, hdecl, rfl, rfl⟩
  · obtain ⟨id, hdecl, rfl, rfl⟩ := h
    refine ⟨id, ⟨id.index, of_decide_eq_true hdecl, rfl⟩, ?_⟩
    rw [scenario?_of_declares hdecl]
    rfl

theorem mem_scenarios_iff {name : String} :
    name ∈ spec.scenarios ↔ ∃ id, spec.declares id = true ∧ name = spec.nameOf id := by
  refine ⟨fun h => ?_, fun h => ?_⟩
  · obtain ⟨i, hi, rfl⟩ := List.mem_iff_getElem.mp h
    have hdecl : spec.declares ⟨i⟩ = true := decide_eq_true hi
    refine ⟨⟨i⟩, hdecl, ?_⟩
    have hname := scenario?_of_declares hdecl
    unfold scenario? at hname
    rw [List.getElem?_eq_getElem hi] at hname
    exact Option.some.inj hname
  · obtain ⟨id, hdecl, rfl⟩ := h
    have hname := scenario?_of_declares hdecl
    unfold scenario? at hname
    exact List.mem_of_getElem? hname

end Specification

/-! ## An example -/

/-- Logs in and, whenever idle scenarios have passed, asks for something and gets it. -/
def user : Component where
  name := "User"
  lifelines :=
    ⟨[(⟨0⟩, [.message "login", .condition "Ready"]),
      (⟨2⟩, [.condition "Ready", .message "ask", .condition "Wait", .message "get",
        .condition "Final"])], by decide⟩

/-- Answers without conditions, and works out the answer unobserved. -/
def server : Component where
  name := "Server"
  lifelines := ⟨[(⟨0⟩, [.message "login"]), (⟨2⟩, [.message "_tau", .message "get"])], by decide⟩

/-- Nobody takes part in the idle scenario, which may be repeated. -/
def session : Specification where
  scenarios := ["Login", "Idle", "Work"]
  components := [user, server]
  edges := [⟨⟨0⟩, ⟨1⟩⟩, ⟨⟨1⟩, ⟨1⟩⟩, ⟨⟨1⟩, ⟨2⟩⟩]
  initial := [⟨0⟩]
  finals := [⟨2⟩]
  scenarios_nodup := by decide
  components_nodup := by decide
  edges_nodup := by decide
  edges_sorted := by decide
  initial_nodup := by decide
  finals_nodup := by decide

theorem walk_session : session.Walk [⟨0⟩, ⟨1⟩, ⟨1⟩, ⟨2⟩] := ⟨by decide, by decide⟩

/-- The user of the session where the scenarios have other numbers. -/
def renumberedUser : Component where
  name := "User"
  lifelines :=
    ⟨[(⟨0⟩, [.condition "Ready", .message "ask", .condition "Wait", .message "get",
        .condition "Final"]),
      (⟨1⟩, []), (⟨2⟩, [.message "login", .condition "Ready"])], by decide⟩

/-- A component that the session does not have. -/
def printer : Component where
  name := "Printer"
  lifelines := ⟨[(⟨1⟩, [.message "print"])], by decide⟩

/-- The session declared from its end, with another component in place of the server. -/
def renumbered : Specification where
  scenarios := ["Work", "Idle", "Login"]
  components := [printer, renumberedUser]
  edges := [⟨⟨1⟩, ⟨0⟩⟩, ⟨⟨1⟩, ⟨1⟩⟩, ⟨⟨2⟩, ⟨1⟩⟩]
  initial := [⟨2⟩]
  finals := [⟨0⟩]
  scenarios_nodup := by decide
  components_nodup := by decide
  edges_nodup := by decide
  edges_sorted := by decide
  initial_nodup := by decide
  finals_nodup := by decide

end ScenarioFsp
