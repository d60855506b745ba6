import ScenarioFsp.Grammar.Basic
import ScenarioFsp.Reachability

/-!
# Rules in use

A rule is in use if it can be reached from `Init` by following the symbols after
the start of each alternative, actions included when they name a rule.
Unused rules can be dropped.
-/

namespace ScenarioFsp

/-- A grammar after a reduction, with the number of changes that it took. -/
structure Change where
  grammar : Grammar
  count : Nat
deriving DecidableEq

namespace Grammar

/-- The symbols after the start of the alternatives of a rule. -/
def uses (g : Grammar) (symbol : Symbol) : List Symbol :=
  (g.alternativesOf symbol).flatMap Production.tail

/-- The rules in use, in order. -/
def usedSymbols (g : Grammar) : List Symbol := reachable g.uses g.symbols [start]

/-- The alternatives of the rules in use. -/
def usedAlternatives (g : Grammar) : List Production := g.usedSymbols.flatMap g.alternativesOf

/-- The rules in use; an alternative without a tail among them is a fault. -/
def reachableSymbols (g : Grammar) : Except Failure (List Symbol) :=
  (Production.needSymbols .noTail g.usedAlternatives).map fun _ => g.usedSymbols

/-- The grammar with the rules in use only. -/
def restricted (g : Grammar) : Grammar := g.keepRules fun key => decide (key ∈ g.usedSymbols)

/-- Drops the rules that are not in use, and counts them. -/
def dropUnused (g : Grammar) : Except Failure Change :=
  (Production.needSymbols .noTail g.usedAlternatives).map fun _ =>
    ⟨g.restricted, g.numRules - g.restricted.numRules⟩

end Grammar

end ScenarioFsp
