/-!
# Control sequences

The log quotes paths, and a path may hold any characters. A terminal takes some
of them for commands: an escape character starts a sequence that is not shown,
and other control characters are not shown either. `strip` leaves out whatever a
terminal would not show as text.
-/

namespace ScenarioFsp

namespace Command

/-- What the characters read last have begun. -/
inductive ControlSequence where
  /-- Nothing: what follows is text. -/
  | none
  /-- An escape. -/
  | escape
  /-- An escape with intermediate characters. -/
  | intermediate
  /-- A control sequence, up to its final character. -/
  | control
  /-- A device control string, before its parameters. -/
  | device
  /-- A device control string, in its parameters. -/
  | deviceParameter
  /-- A device control string, after its parameters. -/
  | deviceIntermediate
  /-- A string of characters for a device or an application. -/
  | string
  /-- A command to the operating system. -/
  | command
deriving DecidableEq, Repr

namespace ControlSequence

/-- Whether a character lies between two codes, inclusive. -/
def between (low high : Nat) (c : Char) : Bool := Nat.ble low c.toNat && Nat.ble c.toNat high

/-- Whether a character takes a single byte. -/
def isAscii (c : Char) : Bool := Nat.ble c.toNat 0x7F

/-- The characters that only space the text out, but for the space. -/
def isSpacing (c : Char) : Bool :=
  decide (c = '\t') || decide (c = '\n') || decide (c = '\x0c') || decide (c = '\r')

/-- What is shown outside of control sequences. -/
def isText (c : Char) : Bool := between 0x20 0x7E c || !isAscii c || isSpacing c

/-- Whether the string terminator `0x9C` is among the bytes of a character. -/
def holdsTerminator (c : Char) : Bool :=
  (String.singleton c).toUTF8.toList.any fun byte => decide (byte = 0x9C)

/-- What has begun after one more character. An escape starts anew wherever it stands. -/
def next (s : ControlSequence) (c : Char) : ControlSequence :=
  if c = '\x1b' then .escape
  else if c = '\x18' ∨ c = '\x1a' then .none
  else
    match s with
    | .none => .none
    | .escape =>
      if between 0x20 0x2F c then .intermediate
      else if c = '[' then .control
      else if c = ']' then .command
      else if c = 'P' then .device
      else if c = 'X' ∨ c = '^' ∨ c = '_' then .string
      else if between 0x30 0x7E c then .none
      else .escape
    | .intermediate => if between 0x30 0x7E c then .none else .intermediate
    | .control => if between 0x40 0x7E c then .none else .control
    | .device =>
      if between 0x20 0x2F c then .deviceIntermediate
      else if between 0x30 0x3F c then .deviceParameter
      else if between 0x40 0x7E c then .string
      else .device
    | .deviceParameter =>
      if between 0x20 0x2F c then .deviceIntermediate
      else if between 0x3C 0x7E c then .string
      else .deviceParameter
    | .deviceIntermediate => if between 0x30 0x7E c then .string else .deviceIntermediate
    | .string => if holdsTerminator c then .none else .string
    | .command => if c = '\x07' then .none else .command

/-- Whether a character is shown although something has begun. -/
def shows (s : ControlSequence) (c : Char) : Bool :=
  match s with
  | .none => isText c
  | .escape | .intermediate | .control => isSpacing c
  | _ => false

/--
Leaves out what is not shown. Once a character is shown, all text that follows it
is, whatever has begun before; that goes on at the next character that is not
text, unless one beyond ASCII has ended it.
-/
def stripFrom (s : ControlSequence) (showing : Bool) : List Char → List Char
  | [] => []
  | c :: cs =>
    if if showing then isText c else s.shows c then
      c :: stripFrom (if isAscii c then s else .none) true cs
    else stripFrom (s.next c) false cs

/-- What a terminal would show of a text. -/
def strip (text : String) : String := String.ofList (stripFrom .none false text.toList)

end ControlSequence

end Command

end ScenarioFsp
