import ScenarioFsp.Distinct
import ScenarioFsp.Event
import ScenarioFsp.Failure
import ScenarioFsp.OrderedMap

/-!
# Specifications

A specification holds scenarios, components with their lifelines, and the flow
graph over the scenarios: continuation edges, and marks for the scenarios that
may come first or last. Scenario names and component names are distinct, an edge
or a mark is recorded once, and the edges are listed by their source and then in
order of addition; these facts are part of the type. Edges, marks and lifelines
may refer to scenarios that are not declared (yet).
-/

namespace ScenarioFsp

/-- A component with its lifeline in each scenario it takes part in. -/
structure Component where
  name : String
  lifelines : OrderedMap ScenarioId Lifeline
deriving DecidableEq

/-- The lifeline of a component, empty where it takes no part. -/
def Component.lifeline (c : Component) (id : ScenarioId) : Lifeline :=
  (c.lifelines.get? id).getD []

/-- Says that `target` may follow `source`. -/
structure Edge where
  source : ScenarioId
  target : ScenarioId
deriving DecidableEq, Repr

/-- Scenarios, components, and the flow graph. -/
structure Specification where
  scenarios : List String
  components : List Component
  edges : List Edge
  initial : List ScenarioId
  finals : List ScenarioId
  scenarios_nodup : scenarios.Nodup
  components_nodup : (components.map Component.name).Nodup
  edges_nodup : edges.Nodup
  edges_sorted : edges.Pairwise fun e f => e.source.index ≤ f.source.index
  initial_nodup : initial.Nodup
  finals_nodup : finals.Nodup
deriving DecidableEq

/-! ## Inserting an edge -/

namespace Edge

/-- Puts an edge behind those with the same source or a smaller one. -/
def insertInto (e : Edge) : List Edge → List Edge
  | [] => [e]
  | f :: fs => if e.source.index < f.source.index then e :: f :: fs else f :: insertInto e fs

theorem mem_insertInto {e f : Edge} {l : List Edge} : f ∈ insertInto e l ↔ f = e ∨ f ∈ l := by
  induction l with
  | nil => simp [insertInto]
  | cons g gs ih =>
    simp only [insertInto]
    split
    · simp
    · simp only [List.mem_cons, ih]
      exact or_left_comm

theorem nodup_insertInto {e : Edge} {l : List Edge} (he : e ∉ l) (h : l.Nodup) :
    (insertInto e l).Nodup := by
  induction l with
  | nil => simp [insertInto]
  | cons g gs ih =>
    simp only [List.mem_cons, not_or] at he
    simp only [insertInto]
    obtain ⟨hg, hgs⟩ := List.nodup_cons.mp h
    split
    · refine List.nodup_cons.mpr ⟨?_, h⟩
      simp only [List.mem_cons, not_or]
      exact he
    · refine List.nodup_cons.mpr ⟨?_, ih he.2 hgs⟩
      rw [mem_insertInto]
      rintro (rfl | hmem)
      · exact he.1 rfl
      · exact hg hmem

theorem sorted_insertInto (e : Edge) {l : List Edge}
    (h : l.Pairwise fun e f => e.source.index ≤ f.source.index) :
    (insertInto e l).Pairwise fun e f => e.source.index ≤ f.source.index := by
  induction l with
  | nil => simp [insertInto]
  | cons g gs ih =>
    obtain ⟨hg, hgs⟩ := List.pairwise_cons.mp h
    simp only [insertInto]
    split
    · rename_i hlt
      refine List.pairwise_cons.mpr ⟨fun f hf => ?_, h⟩
      rcases List.mem_cons.mp hf with rfl | hf
      · omega
      · exact Nat.le_trans (Nat.le_of_lt hlt) (hg f hf)
    · rename_i hlt
      refine List.pairwise_cons.mpr ⟨fun f hf => ?_, ih hgs⟩
      rcases mem_insertInto.mp hf with rfl | hf
      · omega
      · exact hg f hf

end Edge

namespace Specification

/-- The specification without any declaration. -/
def empty : Specification where
  scenarios := []
  components := []
  edges := []
  initial := []
  finals := []
  scenarios_nodup := .nil
  components_nodup := .nil
  edges_nodup := .nil
  edges_sorted := .nil
  initial_nodup := .nil
  finals_nodup := .nil

/-! ## Looking things up -/

/-- The name of the scenario with a number, if it is declared. -/
def scenario? (spec : Specification) (id : ScenarioId) : Option String :=
  spec.scenarios[id.index]?

/-- The component with a number, if it is declared. -/
def component? (spec : Specification) (id : ComponentId) : Option Component :=
  spec.components[id.index]?

/-- Whether the scenario is declared. -/
def declares (spec : Specification) (id : ScenarioId) : Bool :=
  decide (id.index < spec.scenarios.length)

/-- The numbers of the declared scenarios, in order. -/
def scenarioIds (spec : Specification) : List ScenarioId :=
  (List.range spec.scenarios.length).map ScenarioId.mk

/-- The numbers of the declared components, in order. -/
def componentIds (spec : Specification) : List ComponentId :=
  (List.range spec.components.length).map ComponentId.mk

/-- The number of the scenario of that name. -/
def scenarioNamed? (spec : Specification) (name : String) : Option ScenarioId :=
  (spec.scenarios.findIdx? fun n => decide (n = name)).map ScenarioId.mk

/-- The number of the component of that name. -/
def componentNamed? (spec : Specification) (name : String) : Option ComponentId :=
  (spec.components.findIdx? fun c => decide (c.name = name)).map ComponentId.mk

/-- The scenarios that may directly follow `id`, in order of addition. -/
def continuations (spec : Specification) (id : ScenarioId) : List ScenarioId :=
  (spec.edges.filter fun e => decide (e.source = id)).map Edge.target

/-- Whether the scenario is marked as initial. -/
def isInitial (spec : Specification) (id : ScenarioId) : Bool := decide (id ∈ spec.initial)

/-- Every declared scenario with the component's lifeline in it, in order of declaration. -/
def lifelinesOf (spec : Specification) (c : Component) : List (String × Lifeline) :=
  spec.scenarioIds.filterMap fun id => (spec.scenario? id).map fun name => (name, c.lifeline id)

/-! ## Declarations -/

/-- Declares a scenario under a name that is not taken. -/
def addScenario (spec : Specification) (name : String) (h : name ∉ spec.scenarios) :
    Specification :=
  { spec with
    scenarios := spec.scenarios ++ [name]
    scenarios_nodup := by
      refine List.nodup_append.mpr ⟨spec.scenarios_nodup, by simp, ?_⟩
      rintro a ha b hb rfl
      exact h (List.mem_singleton.mp hb ▸ ha) }

/-- Declares a component under a name that is not taken. -/
def addComponent (spec : Specification) (name : String)
    (h : name ∉ spec.components.map Component.name) : Specification :=
  { spec with
    components := spec.components ++ [⟨name, .empty⟩]
    components_nodup := by
      rw [List.map_append]
      refine List.nodup_append.mpr ⟨spec.components_nodup, by simp, ?_⟩
      rintro a ha b hb rfl
      simp only [List.map_cons, List.map_nil, List.mem_singleton] at hb
      exact h (hb ▸ ha) }

/-- Declares a scenario; a name that is taken is a fault. -/
def declareScenario (spec : Specification) (name : String) :
    Except Failure (ScenarioId × Specification) :=
  if h : name ∈ spec.scenarios then .error (.fault (.scenarioDeclared name))
  else .ok (⟨spec.scenarios.length⟩, spec.addScenario name h)

/-- Declares a component; a name that is taken is a fault. -/
def declareComponent (spec : Specification) (name : String) :
    Except Failure (ComponentId × Specification) :=
  if h : name ∈ spec.components.map Component.name then .error (.fault (.componentDeclared name))
  else .ok (⟨spec.components.length⟩, spec.addComponent name h)

/-! ## Lifelines -/

/-- The components with a lifeline of the one at `index` set. -/
def placeInto (index : Nat) (scenario : ScenarioId) (events : Lifeline) (l : List Component) :
    List Component :=
  l.modify index fun c => { c with lifelines := c.lifelines.insert scenario events }

theorem names_placeInto (index : Nat) (scenario : ScenarioId) (events : Lifeline)
    (l : List Component) :
    (placeInto index scenario events l).map Component.name = l.map Component.name := by
  induction l generalizing index with
  | nil => cases index <;> rfl
  | cons c cs ih =>
    cases index with
    | zero => rfl
    | succ i =>
      have := ih i
      simp only [placeInto] at this
      simp [placeInto, this]

/-- Sets (or replaces) the lifeline of a declared component. -/
def placeLifeline (spec : Specification) (component : ComponentId) (scenario : ScenarioId)
    (events : Lifeline) : Specification :=
  { spec with
    components := placeInto component.index scenario events spec.components
    components_nodup := by
      rw [names_placeInto]
      exact spec.components_nodup }

/-- Sets (or replaces) a lifeline; a component that is not declared is a fault. -/
def setLifeline (spec : Specification) (component : ComponentId) (scenario : ScenarioId)
    (events : Lifeline) : Except Failure Specification :=
  if component.index < spec.components.length then
    .ok (spec.placeLifeline component scenario events)
  else .error (.fault (.outOfRange spec.components.length component.index))

/-! ## The flow graph -/

/-- Records that `target` may follow `source`; a repeated edge changes nothing. -/
def addEdge (spec : Specification) (source target : ScenarioId) : Specification :=
  if h : ⟨source, target⟩ ∈ spec.edges then spec
  else
    { spec with
      edges := Edge.insertInto ⟨source, target⟩ spec.edges
      edges_nodup := Edge.nodup_insertInto h spec.edges_nodup
      edges_sorted := Edge.sorted_insertInto _ spec.edges_sorted }

/-- Marks a scenario as initial, whether it is declared or not. -/
def addInitial (spec : Specification) (id : ScenarioId) : Specification :=
  { spec with
    initial := addOnce id spec.initial
    initial_nodup := nodup_addOnce id spec.initial_nodup }

/-- Marks a scenario as final, whether it is declared or not. -/
def addFinal (spec : Specification) (id : ScenarioId) : Specification :=
  { spec with
    finals := addOnce id spec.finals
    finals_nodup := nodup_addOnce id spec.finals_nodup }

/-! ## Access by number -/

/-- The name of a scenario; one that is not declared is a fault. -/
def scenarioAt (spec : Specification) (id : ScenarioId) : Except Failure String :=
  match spec.scenario? id with
  | some name => .ok name
  | none => .error (.fault (.outOfRange spec.scenarios.length id.index))

/-- The component of a number; one that is not declared is a fault. -/
def componentAt (spec : Specification) (id : ComponentId) : Except Failure Component :=
  match spec.component? id with
  | some c => .ok c
  | none => .error (.fault (.outOfRange spec.components.length id.index))

end Specification

end ScenarioFsp
