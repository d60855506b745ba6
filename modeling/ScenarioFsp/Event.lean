import ScenarioFsp.Symbol

/-!
# Events and lifelines

A lifeline is what one component does in one scenario: the messages it sends or
receives, in order, and the conditions at which scenarios may be joined.
-/

namespace ScenarioFsp

/-- A single step of a lifeline. -/
inductive Event where
  /-- Sending or receiving a message; its label becomes an action. -/
  | message (label : String)
  /-- A point shared between scenarios. -/
  | condition (label : String)
deriving DecidableEq, Repr

/-- The point that a condition stands for; a message stands for none. -/
def Event.point? : Event → Option Symbol
  | .message _ => none
  | .condition label => some (Symbol.ofCondition label)

/-- One component's part in one scenario. -/
abbrev Lifeline := List Event

namespace Lifeline

/-- The point of a leading condition. -/
def opening? (events : Lifeline) : Option Symbol := events.head?.bind Event.point?

/-- The point of a trailing condition. -/
def closing? (events : Lifeline) : Option Symbol := events.getLast?.bind Event.point?

/-- The message labels, in order. -/
def messages (events : Lifeline) : List String :=
  events.filterMap fun
    | .message label => some label
    | .condition _ => none

end Lifeline

end ScenarioFsp
