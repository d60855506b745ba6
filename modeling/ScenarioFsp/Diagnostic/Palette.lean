import ScenarioFsp.Diagnostic.Basic

/-!
# Colours

A palette holds the control sequences that go around the parts of a diagnostic.
In the plain palette they are all empty, so that there is one layout for both.
-/

namespace ScenarioFsp

/-- The control sequences around the parts of a diagnostic. -/
structure Palette where
  reset : String
  /-- Before the level of a diagnostic with a place. -/
  header : Level → String
  /-- Before the message in the header. -/
  headline : String
  /-- Before line numbers and the lines of the frame. -/
  frame : String
  /-- Before what is pointed at, and before the message beside it. -/
  label : Level → String
  /-- Before the level of a diagnostic without a place. -/
  title : Level → String

namespace Palette

/-- Without any control sequences. -/
def plain : Palette := ⟨"", fun _ => "", "", "", fun _ => "", fun _ => ""⟩

/-- A control sequence of a terminal. -/
def sequence (code : String) : String := "\x1b[" ++ code ++ "m"

/-- Back to the default style. -/
def resetSequence : String := sequence "0"

/-- A sequence that starts from the default style. -/
def style (codes : List String) : String := resetSequence ++ String.join (codes.map sequence)

/-- Red for errors and yellow for warnings. -/
def hue : Level → String
  | .error => "31"
  | .warning => "33"

/-- The same colours, as bright as they are in headers. -/
def brightHue : Level → String
  | .error => "38;5;9"
  | .warning => "38;5;11"

/-- Bold headers, a blue frame, and the colour of the level for what is pointed at. -/
def colored : Palette where
  reset := resetSequence
  header level := style ["1", brightHue level]
  headline := style ["1"]
  frame := style ["34"]
  label level := style [hue level]
  title level := style ["1", hue level]

end Palette

end ScenarioFsp
