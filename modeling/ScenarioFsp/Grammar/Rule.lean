import ScenarioFsp.Distinct
import ScenarioFsp.OrderedSet
import ScenarioFsp.Production

/-!
# Rules

A rule is a symbol with its alternatives, in order. In a well placed rule every
alternative starts with the symbol.
-/

namespace ScenarioFsp

/-- A symbol with its alternatives. -/
@[ext]
structure Rule where
  symbol : Symbol
  alternatives : List Production
deriving DecidableEq, Repr

namespace Rule

/-- The rule without alternatives. -/
def none (symbol : Symbol) : Rule := ⟨symbol, []⟩

/-- Whether the rule has no alternatives, so that nothing can be derived from its symbol. -/
def isEmpty (r : Rule) : Bool := r.alternatives.isEmpty

/-- Whether the rule has this alternative. -/
def has (r : Rule) (p : Production) : Bool := decide (p ∈ r.alternatives)

/-- Stops at the first alternative that does not start with the symbol of the rule. -/
def check (r : Rule) : Except Failure Unit :=
  match r.alternatives.find? fun p => decide (p.first? ≠ some r.symbol) with
  | .none => .ok ()
  | some p =>
    if p.isEmpty then .error (.fault .noFirst)
    else .error (.misplacedAlternative r.symbol p.render)

/-- Adds an alternative unless the rule has it. -/
def add (r : Rule) (p : Production) : Except Failure Rule :=
  match p.first? with
  | .none => .error (.fault .noFirst)
  | some start =>
    if start = r.symbol then .ok { r with alternatives := addOnce p r.alternatives }
    else .error (.misplacedAlternative r.symbol p.render)

/-- Adds alternatives one after the other. -/
def addAll (r : Rule) : List Production → Except Failure Rule
  | [] => .ok r
  | p :: ps => r.add p >>= fun r => addAll r ps

end Rule

/--
The rules made of the given productions, in the order of their symbols: a rule
holds the productions that start with its symbol, each once, in the given order.
-/
def groupByStart (ps : List Production) : List Rule :=
  (OrderedSet.ofList (ps.filterMap Production.first?)).toList.map fun symbol =>
    ⟨symbol, distinct (ps.filter fun p => decide (p.first? = some symbol))⟩

end ScenarioFsp
