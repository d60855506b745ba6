import ScenarioFsp.Diagnostic.Journal
import ScenarioFsp.Document.Loader
import ScenarioFsp.Document.Reader

/-!
# Loading a text

A text is read, loaded, and reported to a journal. It is accepted if it is a
document and loading it brings no error that the journal has not counted before.
-/

namespace ScenarioFsp

/-- What is reported about a loaded document: first the errors, then the warnings. -/
def Document.Loader.diagnostics (file : Nat) (l : Document.Loader) : List Diagnostic :=
  l.problems.map (Document.Problem.diagnostic file) ++
    l.warnings.map (Document.Warning.diagnostic file)

/-- The error about a text that is no document. -/
def SyntaxError.diagnostic (file : Nat) (e : SyntaxError) : Diagnostic :=
  ⟨.error, e.message, some ⟨file, ⟨e.offset, e.offset⟩⟩⟩

/-- Why a text is not accepted. -/
inductive LoadFailure where
  | malformed (e : SyntaxError)
  | faulty (name : String) (errors : Nat)
deriving DecidableEq, Repr

/-- What is said about a text that is not accepted. -/
def LoadFailure.message : LoadFailure → String
  | malformed e => e.message
  | faulty name errors => s!"{name}: found {errors} error(s)"

/-- A journal after a text has been loaded, with the specification or the reason why there is none. -/
structure Loading where
  journal : Journal
  result : Except LoadFailure Specification

namespace Journal

/-- Loads a text as the file `name`. -/
def load (j : Journal) (name text : String) : Loading :=
  let file := j.files.length
  let known := j.addFile ⟨name, text⟩
  match Document.read text with
  | .error e => ⟨known.report (e.diagnostic file), .error (.malformed e)⟩
  | .ok d =>
    let loader := d.load
    let after := known.reportAll (loader.diagnostics file)
    let errors := after.errors - j.errors
    ⟨after, if errors = 0 then .ok loader.spec else .error (.faulty name errors)⟩

end Journal

end ScenarioFsp
