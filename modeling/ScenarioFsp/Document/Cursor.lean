/-!
# Places in a text

A `Cursor` is the rest of a text together with the number of bytes before it.
Blanks and comments may stand anywhere between the words of a document: blanks
are spaces, tabs and line ends, and a comment runs from two slashes to the end
of its line.
-/

namespace ScenarioFsp

/-- The rest of a text, and the number of bytes before it. -/
structure Cursor where
  offset : Nat
  rest : List Char
deriving DecidableEq, Repr

namespace Cursor

/-- The beginning of a text. -/
def ofText (text : String) : Cursor := ⟨0, text.toList⟩

/-- The number of bytes that characters take. -/
def bytes : List Char → Nat
  | [] => 0
  | c :: cs => c.utf8Size + bytes cs

/-- The characters that end a line, and with it a comment. -/
def isLineEnd (c : Char) : Bool := c = '\n' || c = '\r'

/-- The characters that may stand between words. -/
def isBlank (c : Char) : Bool := c = ' ' || c = '\t' || isLineEnd c

/-- Passes blanks and comments, being inside a comment or not. -/
def skipFrom (inComment : Bool) (offset : Nat) : List Char → Cursor
  | [] => ⟨offset, []⟩
  | c :: cs =>
    if inComment then skipFrom (!isLineEnd c) (offset + c.utf8Size) cs
    else if isBlank c then skipFrom false (offset + c.utf8Size) cs
    else if c = '/' && cs.head? = some '/' then skipFrom true (offset + c.utf8Size) cs
    else ⟨offset, c :: cs⟩

/-- Passes blanks and comments. -/
def skip (c : Cursor) : Cursor := skipFrom false c.offset c.rest

/-- What is left of a text behind a given beginning. -/
def behind : List Char → List Char → Option (List Char)
  | [], text => some text
  | _ :: _, [] => none
  | w :: ws, c :: cs => if w = c then behind ws cs else none

/-- Passes a literal word. -/
def pass? (word : String) (c : Cursor) : Option Cursor :=
  (behind word.toList c.rest).map fun rest => ⟨c.offset + bytes word.toList, rest⟩

/-- The longest run of characters of a class, and the place behind it. -/
def run (inClass : Char → Bool) (c : Cursor) : List Char × Cursor :=
  let taken := c.rest.takeWhile inClass
  (taken, ⟨c.offset + bytes taken, c.rest.dropWhile inClass⟩)

end Cursor

end ScenarioFsp
