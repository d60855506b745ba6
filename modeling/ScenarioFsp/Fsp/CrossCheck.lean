import ScenarioFsp.Specification

/-!
# The cross-check of the flow graph

The flow graph itself becomes a deterministic process whose actions name the
scenario that is left. It is projected onto the scenarios in which a component
does something, and the composition of the projections can then be checked
against the graph. References to scenarios that are not declared are passed over.
-/

namespace ScenarioFsp

namespace Fsp

/-- What the cross-check states of a specification. -/
structure CrossCheck where
  /-- The scenarios that may come first. -/
  initial : List String
  /-- Every scenario with those that may follow it. -/
  graph : List (String × List String)
  /-- Every component with the scenarios in which it does something. -/
  projections : List (String × List String)
deriving DecidableEq, Repr

namespace CrossCheck

/-- The scenarios in which a component does something, in order of declaration. -/
def activeScenarios (spec : Specification) (c : Component) : List String :=
  (c.lifelines.entries.filter fun entry => !entry.2.isEmpty).filterMap fun entry =>
    spec.scenario? entry.1

/-- The cross-check of a specification; what is not declared is left out. -/
def ofSpecification (spec : Specification) : CrossCheck where
  initial := spec.initial.filterMap spec.scenario?
  graph := spec.scenarioIds.filterMap fun id =>
    (spec.scenario? id).map fun name => (name, (spec.continuations id).filterMap spec.scenario?)
  projections := spec.components.map fun c => (c.name, activeScenarios spec c)

/-- A process that chooses between the targets, doing `action` first. -/
def renderChoice (name action : String) (targets : List String) : String :=
  if targets.isEmpty then s!"{name} = STOP"
  else
    name ++ " = (" ++
      " | ".intercalate (targets.map fun target => action ++ " -> " ++ target) ++ ")"

/-- The action of leaving a scenario. -/
def leaving (scenario : String) : String := "_" ++ scenario

/-- The projection of a component: the graph, reduced to leaving its scenarios. -/
def renderProjection (projection : String × List String) : String :=
  "deterministic ||Det" ++ projection.1 ++ " = DetHMSC@\x7b" ++
    ", ".intercalate (projection.2.map leaving) ++ "\x7d.\n"

/-- The text of the cross-check. -/
def render (c : CrossCheck) : String :=
  let processes := ("deterministic " ++ renderChoice "DetHMSC" "init" c.initial) ::
    c.graph.map fun node => renderChoice node.1 (leaving node.1) node.2
  let composed := " || ".intercalate (c.projections.map fun projection => "Det" ++ projection.1)
  ",\n".intercalate processes ++ ".\n" ++
    "property ||HSMC = DetHMSC\\\x7binit\x7d.\n" ++
    String.join (c.projections.map renderProjection) ++
    s!"deterministic ||ComposedHMSC = ({composed}).\n" ++
    "||Check = (HSMC || ComposedHMSC).\n"

end CrossCheck

end Fsp

end ScenarioFsp
