import ScenarioFsp.Continuation
import ScenarioFsp.Extraction
import ScenarioFsp.Grammar.Simplify
import ScenarioFsp.Rerooting
import ScenarioFsp.Schedule

/-!
# Synthesis

A component's grammar is derived from its lifelines in four steps: productions
are extracted, copied to every point where the flow graph lets them start,
grouped into rules, and simplified. Synthesis fails only if the specification
refers to something that is not declared. The components may be taken in turn or
at the same time; that makes no difference (`synthesiseOn_eq`).
-/

namespace ScenarioFsp

/-- The grammar of a component before it is simplified, with the steps that led to it. -/
structure Derivation where
  component : String
  lifelines : List (String × Lifeline)
  productions : OrderedSet Production
  rooted : OrderedSet Production
  grammar : Grammar
deriving DecidableEq

/-- A component with its simplified grammar. -/
structure SynthesisedComponent where
  derivation : Derivation
  grammar : Grammar
  statistics : Statistics
deriving DecidableEq

namespace SynthesisedComponent

/-- The name of the component, as the derivation has it. -/
def name (c : SynthesisedComponent) : String := c.derivation.component

end SynthesisedComponent

namespace Derivation

/-- Derives a grammar from the lifelines of a component. -/
def ofLifelines (common : Relation) (component : String) (lifelines : List (String × Lifeline)) :
    Except Failure Derivation :=
  let productions := extract lifelines
  let rooted := reroot (componentRelation common lifelines) productions
  (Grammar.ofRules (groupByStart rooted.toList)).bind fun grammar =>
    grammar.check.map fun _ => ⟨component, lifelines, productions, rooted, grammar⟩

/-- Simplifies the derived grammar. -/
def simplified (d : Derivation) : Except Failure SynthesisedComponent :=
  d.grammar.simplify.bind fun result =>
    result.1.check.map fun _ => ⟨d, result.1, result.2⟩

end Derivation

namespace Specification

/-- The first scenario, by number, that a component has a lifeline in and that is not declared. -/
def strayLifeline? (spec : Specification) (c : Component) : Option ScenarioId :=
  c.lifelines.keys.find? fun id => !spec.declares id

/-- Derives the grammar of a component. -/
def deriveComponent (spec : Specification) (common : Relation) (id : ComponentId) :
    Except Failure Derivation :=
  match spec.component? id with
  | none => .error (.unknownComponent id)
  | some c =>
    match spec.strayLifeline? c with
    | some stray => .error (.unknownScenario stray s!"instance of component {c.name}")
    | none => Derivation.ofLifelines common c.name (spec.lifelinesOf c)

/-- Derives and simplifies the grammar of a component. -/
def synthesiseComponent (spec : Specification) (common : Relation) (id : ComponentId) :
    Except Failure SynthesisedComponent :=
  (spec.deriveComponent common id).bind Derivation.simplified

/-- Synthesises all components in order of declaration. -/
def synthesise (spec : Specification) : Except Failure (List SynthesisedComponent) :=
  spec.commonRelation.bind fun common =>
    spec.componentIds.mapM fun id => spec.synthesiseComponent common id

/-- Synthesises all components at the same time, and merges the results in order of declaration. -/
def synthesiseOn (schedule : Schedule) (spec : Specification) :
    Except Failure (List SynthesisedComponent) :=
  spec.commonRelation.bind fun common =>
    (schedule.collect (spec.synthesiseComponent common) spec.componentIds).mapM id

/-- **The schedule makes no difference**, neither for the components nor for the failure. -/
theorem synthesiseOn_eq (schedule : Schedule) (spec : Specification) :
    spec.synthesiseOn schedule = spec.synthesise := by
  unfold synthesiseOn synthesise
  refine congrArg _ (funext fun common => ?_)
  rw [schedule.collect_eq_map, List.mapM_map]
  rfl

end Specification

end ScenarioFsp
