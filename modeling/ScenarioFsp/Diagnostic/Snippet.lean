import ScenarioFsp.Diagnostic.Palette
import ScenarioFsp.Diagnostic.Width
import ScenarioFsp.Document.Cursor

/-!
# Diagnostics with a place

The line of the place is printed below a header, with its number in a gutter,
and carets below it point at the characters of the place. Lines end at a line
feed; trailing line ends and zero characters are not printed. A tab goes to the
next column that is a multiple of four. There is at least one caret, in an extra
column behind the line if need be, unless it would have to stand below
characters that are not printed.

A place that goes over several lines is framed at their left. Of its lines those are
printed that are close to an end; where more than one is left out, a point stands for
them. If a place ends in front of where it starts, its end is printed first.

Whatever the layout, the level, the message, the file, the line and the column come first
(`render_eq_head`).
-/

namespace ScenarioFsp

namespace Snippet

open Cursor (bytes)

/-! ## Lines -/

/-- A line of a file: its number from one, the offset where it starts, and its characters. -/
structure Line where
  number : Nat
  start : Nat
  chars : List Char
deriving DecidableEq, Repr

/-- The first line with its line feed, and the lines behind it. -/
def splitLines : List Char → List Char × List (List Char)
  | [] => ([], [])
  | c :: cs =>
    let (first, more) := splitLines cs
    if c = '\n' then ([c], first :: more) else (c :: first, more)

/-- Numbers lines, and adds up the bytes before them. -/
def numberLines (number start : Nat) : List (List Char) → List Line
  | [] => []
  | cs :: more => ⟨number, start, cs⟩ :: numberLines (number + 1) (start + bytes cs) more

/-- The lines of a text; the last one has no line feed. -/
def lines (text : String) : List Line :=
  let (first, more) := splitLines text.toList
  numberLines 1 0 (first :: more)

/-- The line in which an offset lies; past the end that is the last line. -/
def lineAt (text : String) (offset : Nat) : Line :=
  ((lines text).filter fun line => Nat.ble line.start offset).getLastD ⟨1, 0, []⟩

/-- How many characters are complete within the first `limit` bytes. -/
def charsWithin (limit : Nat) : List Char → Nat
  | [] => 0
  | c :: cs => if c.utf8Size ≤ limit then 1 + charsWithin (limit - c.utf8Size) cs else 0

/-- The column of an offset: one more than the characters before it in its line. -/
def columnOf (line : Line) (offset : Nat) : Nat :=
  1 + charsWithin (offset - line.start) line.chars

/-- Whether a character is not printed at the end of a line. -/
def isTrailing (c : Char) : Bool := c = '\n' || c = '\r' || c = '\x00'

/-- The printed characters of a line. -/
def printed (line : Line) : List Char :=
  (line.chars.reverse.dropWhile isTrailing).reverse

/-! ## Cells -/

/-- A character as it is printed: its offset in the line, its width, its text, and whether it is
pointed at. -/
structure Cell where
  start : Nat
  width : Nat
  text : String
  marked : Bool
deriving DecidableEq, Repr

/-- Whether the bytes from `start` up to `stop` overlap those from `x` up to `y`. -/
def overlaps (x y start stop : Nat) : Bool := Nat.blt (max start x) (min stop y)

/-- The width and the text of a character that starts at a column. -/
def appearance (column : Nat) (c : Char) : Nat × String :=
  if c = '\t' then
    let width := 4 - column % 4
    (width, String.ofList (List.replicate width ' '))
  else (Width.ofChar c, String.singleton c)

/-- The cells of characters that start at an offset and a column. What is pointed at is told by the
offsets where the bytes of a character start and stop. -/
def cellsFrom (marks : Nat → Nat → Bool) (offset column : Nat) : List Char → List Cell
  | [] => []
  | c :: cs =>
    let (width, text) := appearance column c
    ⟨offset, width, text, marks offset (offset + c.utf8Size)⟩ ::
      cellsFrom marks (offset + c.utf8Size) (column + width) cs

/-- The extra column behind a line. -/
def extraCell (x y : Nat) (cs : List Char) : Cell :=
  ⟨bytes cs, 1, "", overlaps x y (bytes cs) (bytes cs + 1)⟩

/-! ## Painting -/

/-- A character, so many times. -/
def repeated (c : Char) (times : Nat) : String := String.ofList (List.replicate times c)

/-- Prints cells, with a style around each run of marked ones. -/
def paint (on off : String) (render : Cell → String) (within : Bool) : List Cell → String
  | [] => if within then off else ""
  | cell :: cells =>
    (if cell.marked && !within then on else if !cell.marked && within then off else "") ++
      render cell ++ paint on off render cell.marked cells

/-- What stands below a cell: carets if it is marked, and blanks up to the end of the place. -/
def below (y : Nat) (cell : Cell) : String :=
  if cell.marked then repeated '^' cell.width
  else if Nat.blt cell.start y then repeated ' ' cell.width
  else ""

/-- The name of a level. -/
def levelText : Level → String
  | .error => "error"
  | .warning => "warning"

/-- The number of digits of a number. -/
def digits (n : Nat) : Nat := (toString n).length

/-- What the rows of a diagnostic are written with. -/
structure Pen where
  palette : Palette
  level : Level
  /-- The width of the line numbers. -/
  margin : Nat

namespace Pen

/-- A part of the frame. -/
def frame (pen : Pen) (s : String) : String := pen.palette.frame ++ s ++ pen.palette.reset

/-- What points at the place. -/
def point (pen : Pen) (s : String) : String := pen.palette.label pen.level ++ s ++ pen.palette.reset

/-- The blank in which no line number stands. -/
def blank (pen : Pen) : String := repeated ' ' pen.margin ++ " "

/-- The beginning of a row without a number. -/
def bar (pen : Pen) : String := pen.blank ++ pen.frame "│"

/-- The beginning of a row with a number. -/
def numbered (pen : Pen) (number : Nat) : String :=
  pen.frame (repeated ' ' (pen.margin - digits number) ++ toString number) ++ " " ++ pen.frame "│"

/-- The text of a line. -/
def source (pen : Pen) (cells : List Cell) : String :=
  paint (pen.palette.label pen.level) pen.palette.reset Cell.text false cells

/-! ### A place in one line -/

/-- The rows of a place in one line. -/
def single (pen : Pen) (message : String) (span : Span) (line : Line) : String :=
  let x := span.start - line.start
  let y := max (span.stop - line.start) (x + 1)
  let cs := printed line
  let cells := cellsFrom (overlaps x y) 0 0 cs
  let carets := paint (pen.palette.label pen.level) pen.palette.reset (below y) false
    (cells ++ [extraCell x y cs])
  let note := if message.isEmpty then "" else " " ++ pen.point message
  pen.bar ++ "\n" ++ pen.numbered line.number ++ " " ++ pen.source cells ++ "\n" ++ pen.bar ++
    " " ++ carets ++ note ++ "\n"

end Pen

/-! ### A place over several lines -/

/-- What a line has of a place that goes over several lines. -/
inductive Share where
  /-- The place starts at an offset of the line. -/
  | top (offset : Nat)
  /-- All of the line lies in the place. -/
  | whole
  /-- The place stops at an offset of the line. -/
  | bottom (offset : Nat)
  | none
deriving DecidableEq, Repr

namespace Share

/-- The share of a line in a place. -/
def ofLine (first last : Line) (span : Span) (line : Line) : Share :=
  if line.number = first.number then .top (span.start - first.start)
  else if line.number = last.number then .bottom (span.stop - last.start)
  else if Nat.blt first.number line.number && Nat.blt line.number last.number then .whole
  else .none

/-- Whether the bytes of a character belong to the share. -/
def marks : Share → Nat → Nat → Bool
  | top offset, start, _ => Nat.ble offset start
  | whole, _, _ => true
  | bottom offset, _, stop => Nat.ble stop offset
  | none, _, _ => false

end Share

/-- The characters that only space a line out. -/
def isSpace (c : Char) : Bool :=
  Nat.ble 0x09 c.toNat && Nat.ble c.toNat 0x0D || decide (c = ' ') || decide (c = '\u0085') ||
    decide (c = '\u00A0') || decide (c = '\u1680') ||
    Nat.ble 0x2000 c.toNat && Nat.ble c.toNat 0x200A || decide (c = '\u2028') ||
    decide (c = '\u2029') || decide (c = '\u202F') || decide (c = '\u205F') ||
    decide (c = '\u3000')

/-- Whether nothing but space stands in front of an offset of a line. -/
def leads (offset : Nat) (cs : List Char) : Bool := Nat.ble offset (bytes (cs.takeWhile isSpace))

/-- How far a line goes before one of its first lines or behind one of its last ones is left out:
the number of lines that are printed behind the first one, and before the last one. -/
def context : Nat × Nat := (3, 1)

/-- Whether a line is printed, as an end of the place or close to one. -/
def isShown (first last : Line) (line : Line) : Bool :=
  decide (line.number = first.number) || decide (line.number = last.number) ||
    Nat.blt first.number line.number && Nat.blt line.number last.number &&
      (Nat.ble (line.number - first.number) context.1 ||
        Nat.ble (last.number - line.number) context.2)

/-- The line below the cells in front of an offset. -/
def dashes (limit : Nat) (cells : List Cell) : String :=
  String.join ((cells.filter fun cell => Nat.blt cell.start limit).map fun cell =>
    repeated '─' cell.width)

namespace Pen

/-- What stands between the frame and the text of a line. -/
def side (pen : Pen) (cs : List Char) : Share → String
  | .top offset => if leads offset cs then " " ++ pen.point "╭" else "  "
  | .whole | .bottom _ => " " ++ pen.point "│"
  | .none => "  "

/-- The row below a line in which the place starts or stops. -/
def turn (pen : Pen) (message : String) (cs : List Char) (cells : List Cell) : Share → String
  | .top offset =>
    if leads offset cs then ""
    else pen.bar ++ " " ++ pen.point "╭" ++ pen.point (dashes (offset + 1) cells ++ "^") ++ "\n"
  | .bottom offset =>
    let note := if message.isEmpty then "" else " " ++ message
    pen.bar ++ " " ++ pen.point "╰" ++ pen.point (dashes offset cells ++ "^" ++ note) ++ "\n"
  | .whole | .none => ""

/-- The rows of a line. -/
def row (pen : Pen) (message : String) (share : Line → Share) (line : Line) : String :=
  let cs := printed line
  let cells := cellsFrom (share line).marks 0 0 cs
  pen.numbered line.number ++ pen.side cs (share line) ++ " " ++ pen.source cells ++ "\n" ++
    pen.turn message cs cells (share line)

/-- The row that stands for lines that are left out in front of another one. -/
def gap (pen : Pen) : Share → String
  | .whole | .bottom _ => pen.blank ++ pen.frame "·" ++ " " ++ pen.point "│" ++ "\n"
  | .top _ | .none => pen.blank ++ pen.frame "·" ++ "  \n"

/-- The rows between two lines that are printed; a single line is not left out. -/
def between (pen : Pen) (message : String) (share : Line → Share) (all : List Line)
    (line next : Line) : String :=
  if Nat.ble next.number (line.number + 1) then ""
  else if next.number = line.number + 2 then
    String.join ((all.filter fun other => decide (other.number = line.number + 1)).map
      (pen.row message share))
  else pen.gap (share next)

/-- The rows of the lines that are printed, and between them. -/
def rows (pen : Pen) (message : String) (share : Line → Share) (all : List Line) :
    List Line → String
  | [] => ""
  | [line] => pen.row message share line
  | line :: next :: more =>
    pen.row message share line ++ pen.between message share all line next ++
      rows pen message share all (next :: more)

/-- The rows of a place that goes from one line to another. -/
def several (pen : Pen) (message text : String) (span : Span) (first last : Line) : String :=
  pen.bar ++ "  \n" ++ pen.rows message (.ofLine first last span) (lines text)
    ((lines text).filter (isShown first last))

end Pen

/-! ## Diagnostics -/

/-- The level and the message of a diagnostic, in the first line. -/
def headline (palette : Palette) (level : Level) (message : String) : String :=
  palette.header level ++ levelText level ++ palette.headline ++ ": " ++ message ++ palette.reset ++
    "\n"

/-- Where a place starts: the file, the line and the column, both counted from one. -/
def position (file : SourceFile) (offset : Nat) : String :=
  let line := lineAt file.text offset
  s!"{file.name}:{line.number}:{columnOf line offset}"

/-- The text of a diagnostic about a place in a file. -/
def render (palette : Palette) (level : Level) (message : String) (file : SourceFile)
    (span : Span) : String :=
  let first := lineAt file.text span.start
  let last := lineAt file.text span.stop
  let pen : Pen := ⟨palette, level, max (digits first.number) (digits last.number)⟩
  let rows :=
    if first.number = last.number then pen.single message span first
    else pen.several message file.text span first last
  headline palette level message ++ pen.blank ++ pen.frame "┌─" ++ " " ++
    position file span.start ++ "\n" ++ rows ++ "\n"

/-- **Whatever the layout, it is told first what a diagnostic is about and where to look.** -/
theorem render_eq_head (palette : Palette) (level : Level) (message : String) (file : SourceFile)
    (span : Span) : ∃ margin rest, render palette level message file span =
      palette.header level ++ levelText level ++ palette.headline ++ ": " ++ message ++
        palette.reset ++ "\n" ++ repeated ' ' margin ++ " " ++ palette.frame ++ "┌─" ++
        palette.reset ++ " " ++ position file span.start ++ "\n" ++ rest := by
  unfold render headline Pen.blank Pen.frame
  dsimp only
  generalize (max _ _ : Nat) = margin
  generalize (if (lineAt file.text span.start).number = _ then _ else _ : String) = rows
  exact ⟨margin, rows ++ "\n", by simp only [String.append_assoc]⟩

end Snippet

end ScenarioFsp
