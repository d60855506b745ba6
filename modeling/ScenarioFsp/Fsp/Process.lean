import ScenarioFsp.Grammar.Basic

/-!
# Component processes

A component becomes an FSP process. Each rule of its grammar is a local process:
a choice between alternatives, each of which performs actions and goes on as
another local process, or `STOP` if there is nothing to choose. `Init` comes
first. Runs that end in `Final` share a clause for it unless the grammar has a
rule of that name, and `_tau` is hidden where it occurs.
-/

namespace ScenarioFsp

namespace Fsp

/-- A local process: its name, and for each choice the actions and the name to go on with. -/
structure LocalProcess where
  name : Symbol
  choices : List (List Symbol)
deriving DecidableEq, Repr

/-- How the text of a process closes. -/
inductive Closing where
  /-- With the clause for `Final`, which hides `_tau`. -/
  | sharedFinal
  /-- With `_tau` hidden. -/
  | hidden
  | plain
deriving DecidableEq, Repr

/-- The process of one component. -/
structure Process where
  deterministic : Bool
  name : String
  locals : List LocalProcess
  closing : Closing
deriving DecidableEq, Repr

namespace LocalProcess

/-- The process of a rule has a choice for each alternative. -/
def ofRule (r : Rule) : LocalProcess := ⟨r.symbol, r.alternatives.map Production.tail⟩

/-- The actions of a choice one after the other, and then the process that goes on. -/
def renderChoice (choice : List Symbol) : String := " -> ".intercalate choice

/-- The text of a local process; without choices it stops. -/
def render (p : LocalProcess) : String :=
  if p.choices.isEmpty then s!"{p.name} = STOP"
  else p.name ++ " = (" ++ " | ".intercalate (p.choices.map renderChoice) ++ ")"

end LocalProcess

/-- Hides `_tau` in the process that it follows. -/
def hideTau : String := "\\\x7b" ++ Symbol.tau ++ "\x7d"

/-- The text of an ending, up to the end of the line. -/
def Closing.render : Closing → String
  | sharedFinal => s!",\n{Symbol.final} = ({Symbol.tau}->STOP){hideTau}.\n"
  | hidden => s!"{hideTau}.\n"
  | plain => ".\n"

namespace Process

/-- The rules in the order of their local processes: the start first. -/
def orderedRules (g : Grammar) : List Rule :=
  (g.rule? Grammar.start).toList ++
    g.ruleList.filter fun r => decide (r.symbol ≠ Grammar.start)

/-- Whether a run can end in `Final` and no rule of that name takes over. -/
def needsFinal (g : Grammar) : Bool :=
  !g.hasRule Symbol.final && g.alternatives.any fun p => decide (p.last? = some Symbol.final)

/-- Whether some alternative performs `_tau`. -/
def performsTau (g : Grammar) : Bool :=
  g.alternatives.any fun p => p.actions.any fun a => decide (a = Symbol.tau)

/-- The ending that the process of a grammar needs. -/
def closingOf (g : Grammar) : Closing :=
  if needsFinal g then .sharedFinal else if performsTau g then .hidden else .plain

/-- The process of the component `name`. -/
def ofGrammar (deterministic : Bool) (name : String) (g : Grammar) : Process :=
  ⟨deterministic, name, (orderedRules g).map LocalProcess.ofRule, closingOf g⟩

/-- The text of a process, with an empty line behind it. -/
def render (p : Process) : String :=
  (if p.deterministic then "deterministic " else "") ++
    s!"minimal {p.name} = {Grammar.start}" ++
    String.join (p.locals.map fun l => ",\n" ++ l.render) ++
    p.closing.render ++ "\n"

end Process

/-- The text of a rule; an alternative without a tail is a fault. -/
def renderRule (r : Rule) : Except Failure String :=
  (Production.needSymbols .noTail r.alternatives).map fun _ => (LocalProcess.ofRule r).render

/-- The alternatives that are looked at before one is found that ends in `Final`. -/
def searchedForFinal (g : Grammar) : List Production :=
  if g.hasRule Symbol.final then []
  else g.alternatives.takeWhile fun p => decide (p.last? ≠ some Symbol.final)

/--
The text of a component's process. It is a fault if an alternative that is
printed has no tail, or if one that is searched for `Final` has no end.
-/
def renderComponent (deterministic : Bool) (name : String) (g : Grammar) :
    Except Failure String :=
  (Production.needSymbols .noTail
    ((Process.orderedRules g).flatMap Rule.alternatives)).bind fun _ =>
      (Production.needSymbols .noLast (searchedForFinal g)).map fun _ =>
        (Process.ofGrammar deterministic name g).render

end Fsp

end ScenarioFsp
