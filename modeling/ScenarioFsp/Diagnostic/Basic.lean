import ScenarioFsp.Document.Syntax

/-!
# Diagnostics

A diagnostic is an error or a warning, either about a place in a file or about
the input as a whole.
-/

namespace ScenarioFsp

/-- How serious a diagnostic is. Only errors keep a document from being accepted. -/
inductive Level where
  | error
  | warning
deriving DecidableEq, Repr

/-- A place in one of the known files. -/
structure Place where
  file : Nat
  span : Span
deriving DecidableEq, Repr

/-- A message about the input, and the place that it is about if there is one. -/
structure Diagnostic where
  level : Level
  message : String
  place : Option Place
deriving DecidableEq, Repr

/-- A file that diagnostics can point into. -/
structure SourceFile where
  name : String
  text : String
deriving DecidableEq, Repr

end ScenarioFsp
