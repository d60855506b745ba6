import ScenarioFsp.Grammar.Usage

/-!
# Silent alternatives

A silent alternative does nothing but `_tau` and goes on at a symbol that has a
rule. Folding gives a rule what the rules offer that it reaches silently, in
place of its silent alternatives. An alternative that silently comes back to its
own rule can simply be dropped.
-/

namespace ScenarioFsp

namespace Grammar

/-- Whether an alternative only moves on to another rule without being seen. -/
def isSilentStep (g : Grammar) (p : Production) : Bool :=
  p.isSilent && p.last?.any g.hasRule

/-- The rules to which a rule moves on silently in one step. -/
def silentTargets (g : Grammar) (symbol : Symbol) : List Symbol :=
  ((g.alternativesOf symbol).filter g.isSilentStep).filterMap Production.last?

/-- The other rules to which a rule moves on silently in any number of steps, in order. -/
def silentlyReached (g : Grammar) (symbol : Symbol) : List Symbol :=
  (reachable g.silentTargets g.symbols (g.silentTargets symbol)).filter fun s => decide (s ≠ symbol)

/-- The alternatives of a rule that are not silent. -/
def soundAlternatives (g : Grammar) (symbol : Symbol) : List Production :=
  (g.alternativesOf symbol).filter fun p => !g.isSilentStep p

/-- What the rules offer that `symbol` reaches silently. -/
def inherited (g : Grammar) (symbol : Symbol) : List Production :=
  (g.silentlyReached symbol).flatMap g.soundAlternatives

/-- Whether a rule has a silent alternative. -/
def movesSilently (g : Grammar) (r : Rule) : Bool := r.alternatives.any g.isSilentStep

/-- A rule with its silent alternatives folded. -/
def foldRule (g : Grammar) (key : Symbol) (r : Rule) : Rule :=
  if g.movesSilently r then
    { r with
      alternatives :=
        (r.alternatives.filter fun p => !g.isSilentStep p) ++
          (g.inherited key).map fun p => p.startingAt key }
  else r

/-- The grammar with all silent alternatives folded. -/
def folded (g : Grammar) : Grammar := g.mapRules g.foldRule

/-- What is copied to another rule when silent alternatives are folded. -/
def copiedAlternatives (g : Grammar) : List Production :=
  (g.rules.entries.filter fun entry => g.movesSilently entry.2).flatMap fun entry =>
    g.inherited entry.1

/-- Folds the silent alternatives, and counts them. -/
def foldSilent (g : Grammar) : Except Failure Change :=
  (Production.needSymbols .noFirst g.copiedAlternatives).map fun _ =>
    ⟨g.folded, g.alternatives.countP g.isSilentStep⟩

/-- Whether an alternative comes back to its own rule without being seen. -/
def isSilentLoop (p : Production) : Bool := p.isSilent && decide (p.first? = p.last?)

/-- Drops the silent loops, and counts them. -/
def dropSilentLoops (g : Grammar) : Change :=
  ⟨g.mapAlternatives fun ps => ps.filter fun p => !isSilentLoop p,
    g.alternatives.countP isSilentLoop⟩

end Grammar

end ScenarioFsp
