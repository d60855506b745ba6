import ScenarioFsp.Grammar.Usage

/-!
# Rules with a single alternative

A rule other than `Init` whose only alternative leads to another symbol can be
replaced by that alternative wherever it is used. The rules are taken in the
order of their keys; each sees what the replacements before it have made.
-/

namespace ScenarioFsp

namespace Grammar

/-- The alternative that can stand for the rule of `symbol`. -/
def replacement? (g : Grammar) (symbol : Symbol) : Except Failure (Option Production) :=
  if symbol = start then .ok none
  else
    match g.alternativesOf symbol with
    | [p] => p.last.map fun stop => if stop = symbol then none else some p
    | _ => .ok none

/-- The grammar without the rule of `symbol`, `p` standing for it wherever it was used. -/
def inlined (g : Grammar) (symbol : Symbol) (p : Production) : Grammar :=
  (g.keepRules fun key => decide (key ≠ symbol)).mapAlternatives fun ps =>
    ps.map fun q => if q.last? = some symbol then q.splice p else q

/-- Inlines the rule of `symbol` if it has a single alternative to another symbol. -/
def inlineRule (g : Grammar) (symbol : Symbol) : Except Failure Change :=
  (g.replacement? symbol).bind fun
    | none => .ok ⟨g, 0⟩
    | some p =>
      (Production.needSymbols .noLast
        (g.keepRules fun key => decide (key ≠ symbol)).alternatives).map fun _ =>
          ⟨g.inlined symbol p, 1⟩

/-- Inlines the rules of `symbols` one after the other. -/
def inlineRules (g : Grammar) : List Symbol → Except Failure Change
  | [] => .ok ⟨g, 0⟩
  | symbol :: symbols =>
    (g.inlineRule symbol).bind fun now =>
      (inlineRules now.grammar symbols).map fun later => ⟨later.grammar, now.count + later.count⟩

/-- Inlines every rule that can be, and counts them. -/
def inlineSingles (g : Grammar) : Except Failure Change := g.inlineRules g.symbols

end Grammar

end ScenarioFsp
