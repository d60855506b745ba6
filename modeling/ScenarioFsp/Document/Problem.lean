import ScenarioFsp.Diagnostic.Basic

/-!
# What can be wrong with a document

Every problem is blamed on a name. Warnings do not keep a document from being
loaded: they point out scenarios that no run reaches.
-/

namespace ScenarioFsp

namespace Document

/-- Why a name is blamed. -/
inductive Cause where
  | repeatedComponent
  /-- A scenario called as one of the two outer nodes of the flow graph. -/
  | reservedName
  | repeatedScenario
  | undeclaredComponent
  | repeatedLifeline (scenario : String)
  | initToFinal
  | intoInit
  | outOfFinal
  | unknownScenario
deriving DecidableEq, Repr

/-- A name that is blamed. -/
structure Problem where
  cause : Cause
  blamed : Name
deriving DecidableEq, Repr

namespace Problem

/-- What is said about a problem. The name that is blamed is quoted. -/
def message (p : Problem) : String :=
  match p.cause with
  | .repeatedComponent => s!"component `{p.blamed.text}` is declared more than once"
  | .reservedName => s!"`{p.blamed.text}` is reserved for the hMSC"
  | .repeatedScenario => s!"bMSC `{p.blamed.text}` is defined more than once"
  | .undeclaredComponent => s!"undeclared component `{p.blamed.text}`"
  | .repeatedLifeline scenario =>
    s!"component `{p.blamed.text}` has more than one instance in bMSC `{scenario}`"
  | .initToFinal => "`init` cannot be followed by `final` directly"
  | .intoInit => "`init` cannot have predecessors"
  | .outOfFinal => "`final` cannot have successors"
  | .unknownScenario => s!"unknown bMSC `{p.blamed.text}`"

/-- The error about a problem in a file. -/
def diagnostic (file : Nat) (p : Problem) : Diagnostic :=
  ⟨.error, p.message, some ⟨file, p.blamed.span⟩⟩

end Problem

/-- What is suspicious about the flow graph. -/
inductive Warning where
  | noInitialScenario
  | unreachable (scenario : Name)
deriving DecidableEq, Repr

namespace Warning

/-- The diagnostic of a warning; that nothing is initial is a matter of the whole document. -/
def diagnostic (file : Nat) : Warning → Diagnostic
  | noInitialScenario => ⟨.warning, "the hMSC has no `init` edge", none⟩
  | unreachable scenario =>
    ⟨.warning, s!"bMSC `{scenario.text}` is unreachable from `init`", some ⟨file, scenario.span⟩⟩

end Warning

end Document

end ScenarioFsp
