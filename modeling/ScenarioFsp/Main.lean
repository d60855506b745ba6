import ScenarioFsp.Command.Run

/-!
# The command

Reads the input file, compiles it, and delivers the listing. What is read and
what is written is decided by `Command.compile`; this module only does it.
-/

namespace ScenarioFsp

namespace Command

/-- The error of a file operation, as far as it is told apart. -/
def FileError.ofError : IO.Error → FileError
  | .inappropriateType _ 21 _ => .isADirectory
  | .inappropriateType _ _ _ => .notADirectory
  | .invalidArgument _ 36 _ => .nameTooLong
  | .resourceExhausted _ 28 _ => .noSpace
  | .noSuchThing _ 6 _ => .noDevice
  | .permissionDenied _ 13 _ => .denied
  | .noFileOrDirectory _ _ _ => .notFound
  | e => .other (toString e)

/-- Does a file operation and catches its error. -/
def attempt {α : Type} (action : IO α) : IO (Except FileError α) := do
  try
    return .ok (← action)
  catch e => return .error (.ofError e)

/-- Tells something that need not be heard. -/
def tell (text : String) : IO Unit := do
  let _ ← attempt do (← IO.getStderr).putStr text

/-- Tells why a run has failed, and answers with its exit code. -/
def giveUp (failure : RunFailure) : IO UInt32 := do
  tell failure.render
  return failedCode.toUInt32

/-- Delivers what has been compiled, and answers with the exit code. -/
def handOver (o : Options) (c : Compiled) : IO UInt32 := do
  match ← attempt do (← IO.getStderr).putStr c.diagnostics with
  | .error _ => return brokenCode.toUInt32
  | .ok () => tell c.messages
  match c.result, o.output with
  | .error failure, _ => giveUp failure
  | .ok text, none =>
    match ← attempt do (← IO.getStdout).putStr text; (← IO.getStdout).flush with
    | .error e => giveUp (.unprinted e)
    | .ok () => return 0
  | .ok text, some path =>
    match ← attempt (IO.FS.writeFile path text) with
    | .error e => giveUp (.unwritable path e)
    | .ok () =>
      tell (LogMessage.renderAll o.logLevel [Log.wrote path])
      return 0

/-- Reads and compiles the input file; the time that is logged is that of a first compilation. The
components are synthesised in turn, since the schedule makes no difference. -/
def perform (o : Options) : IO UInt32 := do
  let content ← attempt (IO.FS.readBinFile o.input)
  let before ← IO.monoMsNow
  let _ ← IO.lazyPure fun _ => compile o ⟨0, .inTurn⟩ o.input content
  let after ← IO.monoMsNow
  handOver o (compile o ⟨after - before, .inTurn⟩ o.input content)

/-- What is told about arguments that are refused. -/
def usage : String :=
  "usage: FILE [-o OUT] [-d] [--check] [-j] [-v...|-q...] [--color always|auto|never]\n"

end Command

end ScenarioFsp

/-- Runs the command with its arguments. -/
def main (args : List String) : IO UInt32 := do
  match ScenarioFsp.Command.Options.parse? args with
  | none =>
    (← IO.getStderr).putStr ScenarioFsp.Command.usage
    return 2
  | some o => ScenarioFsp.Command.perform o
