import ScenarioFsp.Order

/-!
# Identifiers and failures

Scenarios and components are numbered from zero in the order of their
declaration. The pipeline fails in two ways. A reference may lead nowhere, or a
grammar may be malformed: these are reported to the user. A `Fault` is a request
that has no answer at all, such as the end of a production without symbols.
-/

namespace ScenarioFsp

/-- The number of a scenario, in order of declaration. -/
structure ScenarioId where
  index : Nat
deriving DecidableEq, Repr

/-- The number of a component, in order of declaration. -/
structure ComponentId where
  index : Nat
deriving DecidableEq, Repr

instance : Ordered ScenarioId :=
  Ordered.byKey ScenarioId.index fun {a b} h => by cases a; cases b; simp_all

/-- A request without an answer. -/
inductive Fault where
  /-- A production was asked for without a start symbol. -/
  | noStartSymbol
  /-- The start of a production without symbols. -/
  | noFirst
  /-- The end of a production without symbols. -/
  | noLast
  /-- What follows the start of a production without symbols. -/
  | noTail
  /-- A scenario name that is taken. -/
  | scenarioDeclared (name : String)
  /-- A component name that is taken. -/
  | componentDeclared (name : String)
  /-- A place in a list that is not that long. -/
  | outOfRange (length index : Nat)
  /-- The offset behind the last one. -/
  | noNextOffset
deriving DecidableEq, Repr

namespace Fault

/-- What is said about an index that is too large. -/
def outOfRangeText (length index : Nat) : String :=
  s!"index out of bounds: the len is {length} but the index is {index}"

/-- What is said about a fault. -/
def message : Fault → String
  | noStartSymbol => "a production needs a start symbol"
  | noFirst => outOfRangeText 0 0
  | noLast => "attempt to subtract with overflow"
  | noTail => "range start index 1 out of range for slice of length 0"
  | scenarioDeclared name => s!"we already have a bMSC named {name}!"
  | componentDeclared name => s!"we already have a component named {name}!"
  | outOfRange length index => outOfRangeText length index
  | noNextOffset => "attempt to add with overflow"

end Fault

/-- Why an operation has no result. -/
inductive Failure where
  /-- A place of the specification refers to a scenario that is not declared. -/
  | unknownScenario (scenario : ScenarioId) (context : String)
  | unknownComponent (component : ComponentId)
  /-- An alternative that does not start with the symbol of its rule. -/
  | misplacedAlternative (rule alternative : String)
  /-- A rule that is kept under another symbol than its own. -/
  | misplacedRule (rule key : String)
  /-- The result could not be written. -/
  | output (text : String)
  | fault (cause : Fault)
deriving DecidableEq, Repr

namespace Failure

/-- What is said about a failure. -/
def message : Failure → String
  | unknownScenario scenario context =>
    s!"inconsistent specification: {context} references unknown bMSC bmsc{scenario.index}"
  | unknownComponent component =>
    s!"inconsistent specification: unknown component component{component.index}"
  | misplacedAlternative rule alternative =>
    s!"internal invariant violated: alternative `{alternative}` does not start with the symbol of rule `{rule}`"
  | misplacedRule rule key =>
    s!"internal invariant violated: rule `{rule}` is stored under symbol `{key}`"
  | output text => s!"failed to write output: {text}"
  | fault cause => cause.message

end Failure

end ScenarioFsp
