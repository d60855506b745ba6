import ScenarioFsp.Document.Cursor

/-!
# Where a reader got stuck

A text that is no document is reported at the furthest place where some construct
was tried in vain, with the constructs that would have done there. A construct
takes the place of what its own parts have noted at the same place, unless that
is a single entry, which says more than the construct would.
-/

namespace ScenarioFsp

/-- What can be expected at a place. -/
inductive Construct where
  | endOfText
  | identifier
  | label
  | components
  | message
  | condition
  | lifeline
  | scenario
  | arrows
  | flow
  | document
deriving DecidableEq, Repr

namespace Construct

/-- The constructs in the order in which they are reported. -/
def all : List Construct :=
  [endOfText, identifier, label, components, message, condition, lifeline, scenario, arrows, flow,
    document]

/-- How a construct is called in a report. -/
def text : Construct → String
  | endOfText => "EOI"
  | identifier => "ident"
  | label => "label"
  | components => "components"
  | message => "message"
  | condition => "condition"
  | lifeline => "instance"
  | scenario => "bmsc"
  | arrows => "edge"
  | flow => "hmsc"
  | document => "file"

end Construct

/-- The furthest place of a vain attempt, with the constructs noted there. -/
structure Attempts where
  offset : Nat
  constructs : List Construct
deriving DecidableEq, Repr

namespace Attempts

/-- Nothing has been attempted yet. -/
def none : Attempts := ⟨0, []⟩

/-- How many constructs are noted at a place. -/
def countAt (a : Attempts) (offset : Nat) : Nat :=
  if a.offset = offset then a.constructs.length else 0

/--
Notes that `construct` was tried in vain at `offset`, where `before` was noted when
the attempt began and `a` when it had failed.
-/
def note (construct : Construct) (offset : Nat) (before a : Attempts) : Attempts :=
  let known := before.countAt offset
  if a.countAt offset = known + 1 then a
  else if offset = a.offset then ⟨offset, a.constructs.take known ++ [construct]⟩
  else if a.offset < offset then ⟨offset, [construct]⟩
  else a

/-- Alternatives in words. -/
def enumerate : List String → String
  | [] => ""
  | [a] => a
  | [a, b] => a ++ " or " ++ b
  | as => ", ".intercalate as.dropLast ++ ", or " ++ as.getLastD ""

/-- The constructs noted, each once, in words. -/
def expected (a : Attempts) : String :=
  enumerate ((Construct.all.filter fun c => decide (c ∈ a.constructs)).map Construct.text)

end Attempts

end ScenarioFsp
