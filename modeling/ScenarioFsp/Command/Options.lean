/-!
# The options of the command

    FILE [-o|--output OUT] [-d|--deterministic] [--check] [-j|--parallel]
         [-v...|-q...] [--color always|auto|never]

First the arguments are told apart, one after the other (`read?`). Single letters may be
joined, a value may stand in the same argument, and after `--` nothing is an option. A
value that stands in an argument of its own does not begin with a hyphen, unless it is
nothing else. Then all settings are taken together (`ofSettings?`): there is one input,
nothing but `-v` and `-q` is repeated, and these two exclude each other.

Whatever has another form is refused, and so are requests for help or for the version,
which are not runs.
-/

namespace ScenarioFsp

namespace Command

/-- When diagnostics are coloured. -/
inductive ColorChoice where
  | always
  | auto
  | never
deriving DecidableEq, Repr

/-- The choice of that name. -/
def ColorChoice.ofName? : String → Option ColorChoice
  | "always" => some .always
  | "auto" => some .auto
  | "never" => some .never
  | _ => none

/-- How much is logged, from nothing to everything. -/
inductive LogLevel where
  | off
  | error
  | warn
  | info
  | debug
  | trace
deriving DecidableEq, Repr

namespace LogLevel

/-- The place of a level among all. -/
def rank : LogLevel → Nat
  | off => 0
  | error => 1
  | warn => 2
  | info => 3
  | debug => 4
  | trace => 5

/-- The level at a place; behind the last one there is no other. -/
def ofRank : Nat → LogLevel
  | 0 => off
  | 1 => error
  | 2 => warn
  | 3 => info
  | 4 => debug
  | _ => trace

/-- Whether a message of level `message` is shown where `l` is asked for. -/
def shows (l message : LogLevel) : Bool := Nat.ble message.rank l.rank

end LogLevel

/-- What a run is asked for. -/
structure Options where
  input : String
  output : Option String
  deterministic : Bool
  check : Bool
  parallel : Bool
  /-- How often the log is asked for in more detail. -/
  verbose : Nat
  /-- How often it is asked for in less detail. -/
  quiet : Nat
  color : ColorChoice
deriving DecidableEq, Repr

/-! ## Arguments -/

/-- One thing that is asked for. -/
inductive Setting where
  | input (path : String)
  | output (path : String)
  | deterministic
  | check
  | parallel
  | verbose
  | quiet
  | color (choice : ColorChoice)
deriving DecidableEq, Repr

/-- What the next argument is taken for. -/
inductive Expecting where
  | anything
  | inputOnly
  | output
  | color
deriving DecidableEq, Repr

/-- Whether there need not be another argument. -/
def Expecting.isDone : Expecting → Bool
  | anything | inputOnly => true
  | output | color => false

namespace Setting

/-- The setting of a long name without a value. -/
def ofName? : String → Option Setting
  | "deterministic" => some .deterministic
  | "check" => some .check
  | "parallel" => some .parallel
  | "verbose" => some .verbose
  | "quiet" => some .quiet
  | _ => none

/-- The setting of a letter without a value. -/
def ofLetter? : Char → Option Setting
  | 'd' => some .deterministic
  | 'j' => some .parallel
  | 'v' => some .verbose
  | 'q' => some .quiet
  | _ => none

/-- Joined letters. What follows an `o` is its value, with an equals sign between them or not. -/
def readLetters? : List Char → Option (List Setting × Expecting)
  | [] => some ([], .anything)
  | 'o' :: [] => some ([], .output)
  | 'o' :: '=' :: value => some ([.output (String.ofList value)], .anything)
  | 'o' :: value => some ([.output (String.ofList value)], .anything)
  | letter :: letters =>
    (ofLetter? letter).bind fun setting =>
      (readLetters? letters).map fun more => (setting :: more.1, more.2)

/-- The name of a long option and its value, if they stand in one argument. -/
def splitLong (arg : List Char) : String × Option String :=
  match arg.dropWhile fun c => decide (c ≠ '=') with
  | [] => (String.ofList arg, none)
  | _ :: value =>
    (String.ofList (arg.takeWhile fun c => decide (c ≠ '=')), some (String.ofList value))

/-- A long option, with its value if that stands in the same argument. -/
def readLong? (name : String) (value : Option String) : Option (List Setting × Expecting) :=
  match name, value with
  | "output", none => some ([], .output)
  | "output", some path => some ([.output path], .anything)
  | "color", none => some ([], .color)
  | "color", some choice =>
    (ColorChoice.ofName? choice).map fun choice => ([.color choice], .anything)
  | _, some _ => none
  | name, none => (ofName? name).map fun setting => ([setting], .anything)

/-- Whether an argument can be the value of an option before it. -/
def isValue (arg : String) : Bool :=
  match arg.toList with
  | '-' :: _ :: _ => false
  | _ => true

/-- What one argument asks for, and what the next one is taken for. -/
def read? (next : Expecting) (arg : String) : Option (List Setting × Expecting) :=
  match next with
  | .inputOnly => some ([.input arg], .inputOnly)
  | .output => if isValue arg then some ([.output arg], .anything) else none
  | .color => (ColorChoice.ofName? arg).map fun choice => ([.color choice], .anything)
  | .anything =>
    match arg.toList with
    | ['-', '-'] => some ([], .inputOnly)
    | '-' :: '-' :: long => readLong? (splitLong long).1 (splitLong long).2
    | '-' :: letter :: letters => readLetters? (letter :: letters)
    | _ => some ([.input arg], .anything)

/-- What the arguments ask for, and what another one would be taken for. -/
def readFrom? (next : Expecting) : List String → Option (List Setting × Expecting)
  | [] => some ([], next)
  | arg :: args =>
    (read? next arg).bind fun here =>
      (readFrom? here.2 args).map fun later => (here.1 ++ later.1, later.2)

/-- What all arguments ask for, unless a value is missing behind them. -/
def readAll? (args : List String) : Option (List Setting) :=
  (readFrom? .anything args).bind fun result => if result.2.isDone then some result.1 else none

/-- The path of an input. -/
def input? : Setting → Option String
  | input path => some path
  | _ => none

/-- The path of an output. -/
def output? : Setting → Option String
  | output path => some path
  | _ => none

/-- The choice of colours. -/
def color? : Setting → Option ColorChoice
  | color choice => some choice
  | _ => none

end Setting

/-! ## Options -/

namespace Options

open Setting (readAll? input? output? color?)

/-- Nothing is repeated but `-v` or `-q`, which exclude each other. -/
structure Compatible (settings : List Setting) : Prop where
  output : (settings.filterMap output?).length ≤ 1
  color : (settings.filterMap color?).length ≤ 1
  deterministic : settings.count .deterministic ≤ 1
  check : settings.count .check ≤ 1
  parallel : settings.count .parallel ≤ 1
  level : .verbose ∈ settings → .quiet ∉ settings

instance (settings : List Setting) : Decidable (Compatible settings) :=
  decidable_of_iff
    ((settings.filterMap output?).length ≤ 1 ∧ (settings.filterMap color?).length ≤ 1 ∧
      settings.count .deterministic ≤ 1 ∧ settings.count .check ≤ 1 ∧
      settings.count .parallel ≤ 1 ∧ (.verbose ∈ settings → .quiet ∉ settings))
    ⟨fun ⟨output, color, deterministic, check, parallel, level⟩ =>
      ⟨output, color, deterministic, check, parallel, level⟩,
      fun h => ⟨h.output, h.color, h.deterministic, h.check, h.parallel, h.level⟩⟩

/-- The options of an input and of settings that can stand together. -/
def ofInput (path : String) (settings : List Setting) : Options where
  input := path
  output := (settings.filterMap output?).head?
  deterministic := decide (.deterministic ∈ settings)
  check := decide (.check ∈ settings)
  parallel := decide (.parallel ∈ settings)
  verbose := settings.count .verbose
  quiet := settings.count .quiet
  color := (settings.filterMap color?).head?.getD .auto

/-- The options of settings, if they can stand together and one of them is the input. -/
def ofSettings? (settings : List Setting) : Option Options :=
  match settings.filterMap input? with
  | [path] => if Compatible settings then some (ofInput path settings) else none
  | _ => none

/-- The options that the arguments ask for. -/
def parse? (args : List String) : Option Options := (readAll? args).bind ofSettings?

/-- Warnings are logged unless the level is raised or lowered. -/
def logLevel (o : Options) : LogLevel :=
  .ofRank (LogLevel.warn.rank + o.verbose - o.quiet)

/-- Whether warnings about the document are shown. -/
def showsWarnings (o : Options) : Bool := o.logLevel.shows .info

/-- Whether diagnostics are coloured. -/
def colored (o : Options) : Bool := decide (o.color ≠ .never)

end Options

end Command

end ScenarioFsp
