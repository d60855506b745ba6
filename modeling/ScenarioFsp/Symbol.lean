/-!
# Grammar symbols

A symbol names a rule or an action. Rules stand for the points at which a
component may pass from one scenario to the next: the beginning and the end of a
scenario, and the conditions written in it. The letter in front of the name keeps
the three kinds apart; `Init` and `Final` are conditions that keep their name.
-/

namespace ScenarioFsp

/-- The name of a rule or of an action. -/
abbrev Symbol := String

namespace Symbol

/-- Where every component starts. -/
def init : Symbol := "Init"

/-- Where a component has ended successfully. -/
def final : Symbol := "Final"

/-- The action that nobody observes. -/
def tau : Symbol := "_tau"

/-- The beginning of a scenario. -/
def beginOf (scenario : String) : Symbol := "B_" ++ scenario

/-- The end of a scenario. -/
def endOf (scenario : String) : Symbol := "E_" ++ scenario

/-- The point named by a condition. -/
def ofCondition (label : String) : Symbol :=
  if label = init ∨ label = final then label else "C_" ++ label

end Symbol

end ScenarioFsp
