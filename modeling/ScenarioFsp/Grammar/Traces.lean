import ScenarioFsp.Grammar.Basic
import ScenarioFsp.Reachability

/-!
# What can be observed of a grammar

A run takes an alternative of `Init`, then one of the rule in which that ends,
and so on. Observed are its actions in order, `_tau` left out, up to any point.

The runs are followed all at once. A `Move` is what is left of an alternative:
actions that are still to be seen, and the symbol where the run then goes on. In
front of an observation stands the list of the moves that are possible now; an
action leads to the moves possible after it. Alternatives without anything to
see are passed through by a search, so silent cycles do no harm.
-/

namespace ScenarioFsp

/-- A sequence of observed actions. -/
abbrev Trace := List Symbol

/-- Actions that are still to be seen, and where the run then goes on. -/
structure Move where
  actions : List Symbol
  target : Symbol
deriving DecidableEq, Repr

namespace Grammar

/-- What can be seen of the alternatives of the rules of `symbol`. -/
def moves (g : Grammar) (symbol : Symbol) : List Move :=
  (g.ruleList.filter fun r => decide (r.symbol = symbol)).flatMap fun r =>
    r.alternatives.filterMap fun p => p.last?.map fun stop => ⟨p.visible, stop⟩

/-- The symbols to which a run may go on from `symbol` without being seen. -/
def silentSteps (g : Grammar) (symbol : Symbol) : List Symbol :=
  ((g.moves symbol).filter fun m => m.actions.isEmpty).map Move.target

/-- The moves with something to see that a run at `symbol` may come to. -/
def openMoves (g : Grammar) (symbol : Symbol) : List Move :=
  let places := reachable g.silentSteps (distinct (symbol :: g.ruleList.map Rule.symbol)) [symbol]
  (places.flatMap g.moves).filter fun m => !m.actions.isEmpty

/-- The moves possible after `action`. -/
def advance (g : Grammar) (action : Symbol) (pending : List Move) : List Move :=
  distinct (pending.flatMap fun m =>
    match m.actions with
    | [] => []
    | [a] => if a = action then g.openMoves m.target else []
    | a :: b :: rest => if a = action then [⟨b :: rest, m.target⟩] else [])

/-- The actions that may be seen next. -/
def nextActions (pending : List Move) : OrderedSet Symbol :=
  .ofList (pending.filterMap fun m => m.actions.head?)

/-- The traces of at most `n` actions, given the moves possible now. -/
def tracesFrom (g : Grammar) : Nat → List Move → List Trace
  | 0, _ => [[]]
  | n + 1, pending =>
    [] :: (nextActions pending).toList.flatMap fun action =>
      (tracesFrom g n (g.advance action pending)).map fun trace => action :: trace

/-- The traces of at most `n` actions. -/
def traces (g : Grammar) (n : Nat) : OrderedSet Trace :=
  .ofList (g.tracesFrom n (g.openMoves start))

/-- The traces of at most `n` actions; an alternative without an end is a fault. -/
def observableTraces (g : Grammar) (n : Nat) : Except Failure (OrderedSet Trace) :=
  (Production.needSymbols .noLast g.alternatives).map fun _ => g.traces n

end Grammar

end ScenarioFsp
