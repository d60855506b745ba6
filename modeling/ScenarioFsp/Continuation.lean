import ScenarioFsp.Relation
import ScenarioFsp.Specification

/-!
# Where a component may go on

The flow graph says which scenario may follow which. For a component this turns
into a relation between points: what starts at the beginning of a scenario may
start at the end of each scenario before it, and at `Init` if the scenario may
come first; `Final` is reached at the end of a scenario that may come last.

This much is common to all components. One component adds its own view: a
leading condition and the beginning of its scenario are the same point, likewise
a trailing condition and the end, and a scenario in which the component takes no
part ends where it begins.
-/

namespace ScenarioFsp

open ScenarioFsp.Symbol (beginOf endOf)

namespace Specification

/-- The name of a scenario, empty if it is not declared. -/
def nameOf (spec : Specification) (id : ScenarioId) : String := (spec.scenario? id).getD ""

/--
The scenarios that the flow graph refers to, each with the words for the place
where it does, in the order in which they are looked up.
-/
def references (spec : Specification) : List (ScenarioId × String) :=
  (spec.edges.flatMap fun e =>
    [(e.source, "continuation graph"), (e.target, s!"continuation of {spec.nameOf e.source}")]) ++
  (spec.initial.map fun id => (id, "initial scenarios")) ++
  (spec.finals.map fun id => (id, "final scenarios"))

/-- The first reference that leads nowhere. -/
def dangling? (spec : Specification) : Option (ScenarioId × String) :=
  spec.references.find? fun r => !spec.declares r.1

/-- What the flow graph relates, provided that no reference dangles. -/
def commonPairs (spec : Specification) : List (Symbol × Symbol) :=
  (spec.scenarios.flatMap fun b => [(beginOf b, beginOf b), (endOf b, endOf b)]) ++
  (spec.edges.map fun e => (beginOf (spec.nameOf e.target), endOf (spec.nameOf e.source))) ++
  (spec.initial.map fun id => (beginOf (spec.nameOf id), Symbol.init)) ++
  (spec.finals.map fun id => (Symbol.final, endOf (spec.nameOf id))) ++
  [(Symbol.init, Symbol.init)]

/-- The relation shared by all components. -/
def commonRelation (spec : Specification) : Except Failure Relation :=
  match spec.dangling? with
  | some (id, context) => .error (.unknownScenario id context)
  | none => .ok (.ofPairs spec.commonPairs)

end Specification

namespace Lifeline

/-- The points that a lifeline identifies with the ends of its scenario. -/
def aliases (scenario : String) (events : Lifeline) : List (Symbol × Symbol) :=
  if events.isEmpty then [(endOf scenario, beginOf scenario)]
  else
    (match events.opening? with
      | some point => [(point, beginOf scenario), (beginOf scenario, point)]
      | none => []) ++
    (match events.closing? with
      | some point => [(endOf scenario, point), (point, endOf scenario)]
      | none => [])

end Lifeline

/-- The common relation with the aliases of one component, closed. -/
def componentRelation (common : Relation) (lifelines : List (String × Lifeline)) : Relation :=
  (common.union (.ofPairs (lifelines.flatMap fun p => p.2.aliases p.1))).closure

end ScenarioFsp
