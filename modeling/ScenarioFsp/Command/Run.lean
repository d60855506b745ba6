import ScenarioFsp.Command.FileTree
import ScenarioFsp.Command.Log
import ScenarioFsp.Fsp.CrossCheck
import ScenarioFsp.Loading

/-!
# A run of the command

A run compiles the input file to a listing and delivers it: to the output file if
one is given, and to the standard output otherwise. Diagnostics, log messages and
the reason of a failure go to the standard error.

The output file is emptied when it is opened, and then the listing is written to it. So
there are two ways to fail: if it cannot be opened nothing has happened yet, and if it
takes only a part of the listing that part is what it holds. The same goes for the standard
output: since a listing ends in a line break, nothing of it is left in a buffer. Of what
goes to the standard error only the diagnostics have to be taken: a run that cannot be rid
of them breaks off at once.
-/

namespace ScenarioFsp

namespace Command

/-- The surroundings of a run: the files, and how much the standard output and the standard error
take. -/
structure System where
  files : FileTree
  stdout : Option Limit
  stderr : Option Limit

/-- What a run cannot foresee: how long a synthesis takes, and in which order components that are
synthesised at the same time get done. -/
structure Timing where
  milliseconds : Nat
  schedule : Schedule

/-! ## Compiling -/

/-- Why a run fails. -/
inductive RunFailure where
  | unreadable (path : String) (error : FileError)
  | notLoaded (failure : LoadFailure)
  | notSynthesised (failure : Failure)
  | unwritable (path : String) (error : FileError)
  /-- The standard output takes no more. -/
  | unprinted (error : FileError)
deriving DecidableEq, Repr

namespace RunFailure

/-- What was attempted, and what stood in its way. -/
def withCause (attempt : String) (cause : String) : String :=
  s!"{attempt}\n\nCaused by:\n    {cause}"

/-- What is said about a failure. -/
def message : RunFailure → String
  | unreadable path error => withCause s!"failed to load {path}" error.message
  | notLoaded failure => failure.message
  | notSynthesised failure => failure.message
  | unwritable path error => withCause s!"failed to write {path}" error.message
  | unprinted error => error.message

/-- The last lines that are told by a run that fails. -/
def render (f : RunFailure) : String := s!"Error: {f.message}\n"

end RunFailure

/-- What is to be delivered, with the diagnostics and the log messages that have come up. -/
structure Compiled where
  diagnostics : String
  messages : String
  result : Except RunFailure String

/-- Synthesises the listing, with components at the same time if that is asked for. -/
def synthesise (o : Options) (timing : Timing) (spec : Specification) : SynthesisRun :=
  .ofComponents o.deterministic timing.milliseconds
    (if o.parallel then spec.synthesiseOn timing.schedule else spec.synthesise)

/-- The schedule makes no difference to the listing either. -/
theorem listing_synthesise (o : Options) (timing : Timing) (spec : Specification) :
    (synthesise o timing spec).listing =
      spec.synthesise.bind (Fsp.renderListing o.deterministic) := by
  have hcomponents : (if o.parallel then spec.synthesiseOn timing.schedule else spec.synthesise) =
      spec.synthesise := by
    split
    · exact spec.synthesiseOn_eq timing.schedule
    · rfl
  unfold synthesise
  rw [hcomponents]
  exact SynthesisRun.listing_ofComponents ..

/-- The listing, with the cross-check if it is asked for. -/
def listing (o : Options) (timing : Timing) (spec : Specification) :
    List String × Except Failure String :=
  let run := synthesise o timing spec
  let check := if o.check then "\n" ++ (Fsp.CrossCheck.ofSpecification spec).render else ""
  (run.status, run.listing.map fun text => text ++ check)

/-- The cross-check follows behind a line break. -/
theorem listing_snd (o : Options) (timing : Timing) (spec : Specification) :
    (listing o timing spec).2 =
      (spec.synthesise.bind (Fsp.renderListing o.deterministic)).map fun listing =>
        if o.check then listing ++ "\n" ++ (Fsp.CrossCheck.ofSpecification spec).render
        else listing := by
  rw [← listing_synthesise o timing]
  unfold listing
  cases o.check with
  | true => simp [String.append_assoc]
  | false => simp

/-- Loads a text with the warnings and the colours that are asked for. -/
def load (o : Options) (path text : String) : Loading :=
  (Journal.start o.colored o.showsWarnings).load path text

/-- Compiles the text of a file. -/
def compileText (o : Options) (timing : Timing) (path text : String) : Compiled :=
  let loading := load o path text
  match loading.result with
  | .error failure => ⟨loading.journal.text, "", .error (.notLoaded failure)⟩
  | .ok spec =>
    let made := listing o timing spec
    let messages := Log.loaded path spec :: Log.synthesised spec ++ made.1.map Log.status
    ⟨loading.journal.text, LogMessage.renderAll o.logLevel messages,
      made.2.mapError RunFailure.notSynthesised⟩

/-- Compiles what reading the input file has brought. -/
def compile (o : Options) (timing : Timing) (path : String)
    (content : Except FileError ByteArray) : Compiled :=
  match content with
  | .error error => ⟨"", "", .error (.unreadable path error)⟩
  | .ok bytes =>
    match String.fromUTF8? bytes with
    | none => ⟨"", "", .error (.unreadable path .invalidText)⟩
    | some text => compileText o timing path text

/-! ## Delivering -/

/-- What a run leaves behind. -/
structure Outcome where
  code : Nat
  stdout : ByteArray
  stderr : ByteArray
  files : FileTree

/-- The exit code of a run that fails. -/
def failedCode : Nat := 1

/-- The exit code of a run that breaks off. -/
def brokenCode : Nat := 101

/-- The outcome of a run that fails. -/
def failed (files : FileTree) (err : Sink) (stdout : ByteArray) (failure : RunFailure) : Outcome :=
  ⟨failedCode, stdout, (err.write failure.render.toUTF8).1.content, files⟩

/-- The outcome of a run that has written to a path, completely or up to an error. -/
def written (o : Options) (path : String) (files : FileTree) (err : Sink) (stdout : ByteArray) :
    Option FileError → Outcome
  | some error => failed files err stdout (.unwritable path error)
  | none =>
    ⟨0, stdout, (err.write (LogMessage.renderAll o.logLevel [Log.wrote path]).toUTF8).1.content,
      files⟩

/-- Delivers bytes to an output file. -/
def deliverTo (o : Options) (s : System) (err : Sink) (bytes : ByteArray) (path : String) :
    Outcome :=
  match s.files.target path with
  | .error error => failed s.files err .empty (.unwritable path error)
  | .ok (.location location access) =>
    let file := (Sink.start access.limit).write bytes
    written o path (s.files.put location file.1.content access) err .empty file.2
  | .ok (.device (.lossy limit)) =>
    written o path s.files err .empty ((Sink.start limit).write bytes).2
  | .ok (.device .output) =>
    let out := (Sink.start s.stdout).write bytes
    written o path s.files err out.1.content out.2
  | .ok (.device .diagnostics) =>
    let told := err.write bytes
    written o path s.files told.1 .empty told.2

/-- Delivers bytes to the standard output. -/
def print (s : System) (err : Sink) (bytes : ByteArray) : Outcome :=
  let out := (Sink.start s.stdout).write bytes
  match out.2 with
  | some error => failed s.files err out.1.content (.unprinted error)
  | none => ⟨0, out.1.content, err.content, s.files⟩

/-- Delivers what has been compiled. -/
def deliver (o : Options) (s : System) (err : Sink) (result : Except RunFailure String) : Outcome :=
  match result with
  | .error failure => failed s.files err .empty failure
  | .ok text =>
    match o.output with
    | none => print s err text.toUTF8
    | some path => deliverTo o s err text.toUTF8 path

/-- Runs the command. -/
def run (o : Options) (timing : Timing) (s : System) : Outcome :=
  let c := compile o timing o.input (s.files.read o.input)
  let told := (Sink.start s.stderr).write c.diagnostics.toUTF8
  match told.2 with
  | some _ => ⟨brokenCode, .empty, told.1.content, s.files⟩
  | none => deliver o s (told.1.write c.messages.toUTF8).1 c.result

end Command

end ScenarioFsp
