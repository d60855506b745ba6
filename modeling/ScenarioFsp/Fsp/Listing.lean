import ScenarioFsp.Fsp.Process
import ScenarioFsp.Synthesis

/-!
# The complete listing

A listing has a header line, the process of each component, and their parallel
composition `||System`.
-/

namespace ScenarioFsp

namespace Fsp

/-- The first line of every listing. -/
def header : String := "// Automatically generated by mscsynth 0.1.0\n"

/-- The parallel composition of the components. -/
def renderSystem (components : List String) : String :=
  "||System = (" ++ " || ".intercalate components ++ ").\n"

/-- The processes of all components, one after the other. -/
def renderComponents (deterministic : Bool) (components : List SynthesisedComponent) :
    Except Failure String :=
  (components.mapM fun c => renderComponent deterministic c.name c.grammar).map String.join

/-- The listing of the synthesised components. -/
def renderListing (deterministic : Bool) (components : List SynthesisedComponent) :
    Except Failure String :=
  (renderComponents deterministic components).map fun processes =>
    header ++ processes ++ renderSystem (components.map SynthesisedComponent.name)

end Fsp

/-- What a synthesis run hands back: the messages about its progress, and the listing. -/
structure SynthesisRun where
  status : List String
  listing : Except Failure String

namespace SynthesisRun

/-- The message about the time that a run took. -/
def timeMessage (milliseconds : Nat) : String :=
  s!"Total synthesis time: {milliseconds} milliseconds."

/-- Renders the components that have been synthesised; the time is reported if that succeeds. -/
def ofComponents (deterministic : Bool) (milliseconds : Nat)
    (components : Except Failure (List SynthesisedComponent)) : SynthesisRun :=
  match components.bind (Fsp.renderListing deterministic) with
  | .ok listing => ⟨[timeMessage milliseconds], .ok listing⟩
  | .error failure => ⟨[], .error failure⟩

/-- The time that a synthesis takes is not part of the listing. -/
theorem listing_ofComponents (deterministic : Bool) (milliseconds : Nat)
    (components : Except Failure (List SynthesisedComponent)) :
    (ofComponents deterministic milliseconds components).listing =
      components.bind (Fsp.renderListing deterministic) := by
  unfold ofComponents
  cases components.bind (Fsp.renderListing deterministic) <;> rfl

/-- Synthesises the listing of a specification, one component after the other. -/
def ofSpecification (deterministic : Bool) (milliseconds : Nat) (spec : Specification) :
    SynthesisRun :=
  ofComponents deterministic milliseconds spec.synthesise

end SynthesisRun

end ScenarioFsp
