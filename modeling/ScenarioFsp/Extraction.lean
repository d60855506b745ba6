import ScenarioFsp.Event
import ScenarioFsp.OrderedSet
import ScenarioFsp.Production

/-!
# From lifelines to productions

A lifeline is cut at its conditions. Each piece becomes a production from the
point before it, through its messages, to the point after it. A lifeline that
does not open with a condition starts at the beginning of its scenario, and one
that does not close with a condition ends at the end of it. Between two adjacent
conditions the component acts silently, so that every production has an action.
-/

namespace ScenarioFsp

namespace Lifeline

/-- The production of one piece; a piece without messages acts silently. -/
def piece (start : Symbol) (actions : List Symbol) (stop : Symbol) : Production :=
  ⟨start :: (if actions.isEmpty then [Symbol.tau] else actions) ++ [stop]⟩

/-- Cuts the rest of a lifeline, having done `actions` since `start`. -/
def cut (scenario : String) (start : Symbol) (actions : List Symbol) : Lifeline → List Production
  | [] => if actions.isEmpty then [] else [piece start actions (Symbol.endOf scenario)]
  | .message label :: rest => cut scenario start (actions ++ [label]) rest
  | .condition label :: rest =>
    piece start actions (Symbol.ofCondition label) ::
      cut scenario (Symbol.ofCondition label) [] rest

/-- The productions of a lifeline, in order. -/
def productions (scenario : String) : Lifeline → List Production
  | .condition label :: rest => cut scenario (Symbol.ofCondition label) [] rest
  | events => cut scenario (Symbol.beginOf scenario) [] events

end Lifeline

/-- The productions of a component, given its lifeline in each scenario. -/
def extract (lifelines : List (String × Lifeline)) : OrderedSet Production :=
  .ofList (lifelines.flatMap fun p => p.2.productions p.1)

/-- How many productions each lifeline adds to those before it. -/
def extractionCounts (lifelines : List (String × Lifeline)) : List Nat :=
  (List.range lifelines.length).map fun i =>
    (extract (lifelines.take (i + 1))).size - (extract (lifelines.take i)).size

end ScenarioFsp
