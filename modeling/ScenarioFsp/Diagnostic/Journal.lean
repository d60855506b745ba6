import ScenarioFsp.Diagnostic.Snippet
import ScenarioFsp.Failure

/-!
# The journal of diagnostics

A journal takes diagnostics one after the other. Warnings are left out unless
they are asked for; two diagnostics of one level about the same place count once,
whatever they say. Every error that is taken is counted, also one about a file
that is not known, which prints nothing.
-/

namespace ScenarioFsp

/-- What has been reported so far. -/
structure Journal where
  colored : Bool
  warnings : Bool
  files : List SourceFile
  /-- The places reported so far, with the level. -/
  reported : List (Place × Level)
  /-- The texts printed so far, in order. -/
  printed : List String
  errors : Nat
deriving DecidableEq

namespace Journal

/-- The journal without any report. -/
def start (colored warnings : Bool) : Journal := ⟨colored, warnings, [], [], [], 0⟩

/-- Everything printed so far. -/
def text (j : Journal) : String := String.join j.printed

/-- The colours of what is printed. -/
def palette (j : Journal) : Palette := if j.colored then .colored else .plain

/-- Makes a file known; its number is the number of files before it. -/
def addFile (j : Journal) (file : SourceFile) : Journal := { j with files := j.files ++ [file] }

/-- Whether a diagnostic is passed over. -/
def ignores (j : Journal) (d : Diagnostic) : Bool :=
  (decide (d.level = .warning) && !j.warnings) ||
    d.place.any fun place => decide ((place, d.level) ∈ j.reported)

/-- The name of a level in front of a message that has no place. -/
def titleText : Level → String
  | .error => "Error"
  | .warning => "Warning"

/-- The text of a diagnostic, unless it is about a file that is not known. -/
def render? (j : Journal) (d : Diagnostic) : Option String :=
  match d.place with
  | none =>
    some (j.palette.title d.level ++ titleText d.level ++ j.palette.reset ++ ": " ++ d.message ++
      "\n")
  | some place =>
    j.files[place.file]?.map fun file => Snippet.render j.palette d.level d.message file place.span

/-- Takes a diagnostic. -/
def report (j : Journal) (d : Diagnostic) : Journal :=
  if j.ignores d then j
  else
    { j with
      reported := j.reported ++ (d.place.map fun place => (place, d.level)).toList
      printed := j.printed ++ (j.render? d).toList
      errors := j.errors + if d.level = .error then 1 else 0 }

/-- The last offset of all, a machine word of 64 bits. -/
def lastOffset : Nat := 0xFFFFFFFFFFFFFFFF

/-- Whether a place starts at the last offset within its line, so that no caret can end there. -/
def startsLast (j : Journal) (d : Diagnostic) : Bool :=
  d.place.any fun place =>
    j.files[place.file]?.any fun file =>
      decide (place.span.start - (Snippet.lineAt file.text place.span.start).start = lastOffset)

/-- Takes a diagnostic about any place, which need not lie in the file. -/
def tryReport (j : Journal) (d : Diagnostic) : Except Failure Journal :=
  if !j.ignores d && j.startsLast d then .error (.fault .noNextOffset) else .ok (j.report d)

/-- Takes diagnostics one after the other. -/
def reportAll (j : Journal) (ds : List Diagnostic) : Journal := ds.foldl report j

end Journal

end ScenarioFsp
