import ScenarioFsp.Document.Attempts
import ScenarioFsp.Document.Syntax

/-!
# Reading documents

A `Reader` takes a place in the text to a value and the place behind it, or
fails; either way it passes on what was tried in vain. Alternatives are tried in
order and the first that succeeds is taken; repetitions and words are as long as
they can be. A failure leaves the place as it was.
-/

namespace ScenarioFsp

/-- Reads a value at a place. -/
def Reader (α : Type) : Type := Cursor → Attempts → Option (α × Cursor) × Attempts

namespace Reader

variable {α β : Type}

/-- Reads nothing, and answers `a`. -/
def pure (a : α) : Reader α := fun c tried => (some (a, c), tried)

/-- One reader behind the other. What the first one has attempted stays noted. -/
def bind (r : Reader α) (next : α → Reader β) : Reader β := fun c tried =>
  match r c tried with
  | (some (a, behind), tried) => next a behind tried
  | (none, tried) => (none, tried)

instance : Monad Reader where
  pure := pure
  bind := bind

/-! ## Combinators -/

/-- Takes the first reader that succeeds. -/
def either (r s : Reader α) : Reader α := fun c tried =>
  match r c tried with
  | (none, tried) => s c tried
  | found => found

/-- Notes a failure of `r` as one of `construct`. -/
def construct (what : Construct) (r : Reader α) : Reader α := fun c tried =>
  match r c tried with
  | (none, failed) => (none, .note what c.offset tried failed)
  | found => found

/-- Reads as many values as there are. -/
def many (r : Reader α) (c : Cursor) (tried : Attempts) : Option (List α × Cursor) × Attempts :=
  match r c tried with
  | (none, tried) => (some ([], c), tried)
  | (some (a, behind), tried) =>
    if behind.rest.length < c.rest.length then
      match many r behind tried with
      | (some (as, last), tried) => (some (a :: as, last), tried)
      | (none, tried) => (some ([a], behind), tried)
    else (some ([a], behind), tried)
termination_by c.rest.length

/-! ## Words -/

/-- Passes blanks and comments. -/
def skip : Reader Unit := fun c tried => (some ((), c.skip), tried)

/-- Passes a literal word. -/
def literal (word : String) : Reader Unit := fun c tried =>
  ((c.pass? word).map fun behind => ((), behind), tried)

/-- Passes a literal word after blanks and comments. -/
def mark (word : String) : Reader Unit := do
  skip
  literal word

/-- A word with a first character of one class and all others of another. -/
def word (isFirst isOther : Char → Bool) : Reader Document.Name := fun c tried =>
  match c.rest with
  | [] => (none, tried)
  | first :: rest =>
    if isFirst first then
      let (others, behind) := Cursor.run isOther ⟨c.offset + first.utf8Size, rest⟩
      (some (⟨String.ofList (first :: others), ⟨c.offset, behind.offset⟩⟩, behind), tried)
    else (none, tried)

/-- Succeeds at the end of the text only. -/
def atEnd : Reader Unit := fun c tried =>
  (if c.rest.isEmpty then some ((), c) else none, tried)

end Reader

namespace Document

open Reader

/-! ## Names and labels -/

/-- What a name may begin with. -/
def isLetter (c : Char) : Bool := c.isAlpha || c = '_'

/-- What may follow in a name. -/
def isLetterOrDigit (c : Char) : Bool := c.isAlphanum || c = '_'

/-- What may follow in the label of a message, which may have points. -/
def isLabelPart (c : Char) : Bool := isLetterOrDigit c || c = '.'

/-- A name after blanks and comments: letters, digits and underscores, a digit not first. -/
def identifier : Reader Name := do
  skip
  construct .identifier (word isLetter isLetterOrDigit)

/-- A message label after blanks and comments: as a name, but digits may come first and points later. -/
def label : Reader Name := do
  skip
  construct .label (word isLetterOrDigit isLabelPart)

/-- One name or more, separated by commas. -/
def nameList : Reader NameList := do
  let first ← identifier
  let more ← many do
    mark ","
    identifier
  return ⟨first, more⟩

/-! ## Items -/

/-- A declaration of components. -/
def components : Reader NameList := construct .components do
  literal "component"
  let names ← nameList
  mark ";"
  return names

/-- A message of a lifeline, with its label. -/
def message : Reader Event := construct .message do
  literal "message"
  let name ← label
  mark ";"
  return .message name.text

/-- A condition of a lifeline, with its name. -/
def condition : Reader Event := construct .condition do
  literal "condition"
  let name ← identifier
  mark ";"
  return .condition name.text

/-- The block of one component within a scenario. -/
def lifelineBlock : Reader LifelineBlock := construct .lifeline do
  literal "instance"
  let component ← identifier
  mark "\x7b"
  let events ← many do
    skip
    either message condition
  mark "\x7d"
  return ⟨component, events⟩

/-- The block of a scenario, with those of its components. -/
def scenarioBlock : Reader ScenarioBlock := construct .scenario do
  literal "bmsc"
  let name ← identifier
  mark "\x7b"
  let lifelines ← many do
    skip
    lifelineBlock
  mark "\x7d"
  return ⟨name, lifelines⟩

/-- The arrows from one node. -/
def arrows : Reader Arrows := construct .arrows do
  let source ← identifier
  mark "->"
  let targets ← nameList
  mark ";"
  return ⟨source, targets⟩

/-- A block of arrows. -/
def flow : Reader (List Arrows) := construct .flow do
  literal "hmsc"
  mark "\x7b"
  let all ← many do
    skip
    arrows
  mark "\x7d"
  return all

/-- One of the three kinds of items. -/
def item : Reader Item :=
  either (do return .components (← components))
    (either (do return .scenario (← scenarioBlock)) (do return .flow (← flow)))

/-- A complete document. -/
def document : Reader Document := construct .document do
  let items ← many do
    skip
    item
  skip
  construct .endOfText atEnd
  return ⟨items⟩

end Document

/-- Why a text is no document: the place where reading got stuck, and what was expected there. -/
structure SyntaxError where
  offset : Nat
  expected : String
deriving DecidableEq, Repr

namespace SyntaxError

/-- What is said about a text that is no document. -/
def message (e : SyntaxError) : String := s!"Lexing failed: expected {e.expected}"

end SyntaxError

/-- Reads a text as a document. -/
def Document.read (text : String) : Except SyntaxError Document :=
  match Document.document (.ofText text) .none with
  | (some (d, _), _) => .ok d
  | (none, tried) => .error ⟨tried.offset, tried.expected⟩

end ScenarioFsp
