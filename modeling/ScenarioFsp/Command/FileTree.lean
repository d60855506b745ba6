import ScenarioFsp.Command.Sink
import ScenarioFsp.OrderedMap

/-!
# Trees of files

The command finds its files by walking along a path, name by name, from the root
or from the working directory. Every name but the last has to lead to a
directory that may be passed. `FileTree.find` is the walk to what is read, and
`FileTree.target` the walk to what is written, which may be a file that is yet to be
made. A file has one location: there are no links.

A file that is there need not be open to the command: it may be closed to readers or
to writers, and it may take less than all that is written to it (`Access`).
-/

namespace ScenarioFsp

namespace Command

/-! ## Paths -/

/-- A path as it is written: where it starts, its names, and whether a slash follows them. -/
structure Path where
  fromRoot : Bool
  names : List String
  endsInSlash : Bool
deriving DecidableEq, Repr

namespace Path

/-- The number of bytes that a path may have. -/
def maxBytes : Nat := 4095

/-- The number of bytes that one name may have. -/
def maxNameBytes : Nat := 255

/-- The pieces between slashes; some may be empty. -/
def pieces : List Char → List (List Char)
  | [] => [[]]
  | c :: cs =>
    if c = '/' then [] :: pieces cs
    else
      match pieces cs with
      | [] => [[c]]
      | piece :: rest => (c :: piece) :: rest

/-- Slashes that follow each other count as one. -/
def ofString (s : String) : Path where
  fromRoot := decide (s.toList.head? = some '/')
  names := ((pieces s.toList).filter fun piece => !piece.isEmpty).map String.ofList
  endsInSlash := decide (s.toList.getLast? = some '/')

/-- Refuses what no path can be. -/
def parse (s : String) : Except FileError Path :=
  if s.isEmpty then .error .notFound
  else if Nat.ble s.utf8ByteSize maxBytes then .ok (ofString s)
  else .error .nameTooLong

end Path

/-! ## What a tree holds -/

/-- The names that lead from the root to a directory or a file, without points. -/
abbrev Location := List String

/-- What may be done with a file. -/
structure Access where
  /-- Why it cannot be read, if it cannot. -/
  reading : Option FileError
  /-- Why it cannot be opened to be written, if it cannot. -/
  writing : Option FileError
  /-- How much it takes once it is open. -/
  limit : Option Limit
deriving DecidableEq, Repr

/-- A file that is read and written without hindrance. -/
def Access.all : Access := ⟨none, none, none⟩

/-- What becomes of bytes that are written to a file that stands for a service of the system. -/
inductive Device where
  /-- They are forgotten, as many as are taken. -/
  | lossy (limit : Option Limit)
  /-- They go to the standard output of the command. -/
  | output
  /-- They go to the standard error of the command. -/
  | diagnostics
deriving DecidableEq, Repr

/-- What is kept at a location that is not a directory. A device may be closed to writers, and
reading it to its end brings some bytes or fails. -/
inductive Node where
  | file (content : ByteArray) (access : Access)
  | device (writing : Except FileError Device) (reading : Except FileError ByteArray)

/-- What is read from it. -/
def Node.read : Node → Except FileError ByteArray
  | file content access =>
    match access.reading with
    | none => .ok content
    | some error => .error error
  | device _ reading => reading

theorem Node.read_file {access : Access} (content : ByteArray) (h : access.reading = none) :
    (Node.file content access).read = .ok content := by
  simp only [Node.read, h]

/-- What a path leads a writer to, when it is open. -/
inductive Target where
  | location (location : Location) (access : Access)
  | device (device : Device)
deriving DecidableEq, Repr

/--
Files and devices by their locations, the working directory, and the directories that
are there even if nothing lies in them.
-/
structure FileTree where
  nodes : OrderedMap Location Node
  workingDirectory : Location
  directories : List Location
  /-- Why a directory cannot be passed, if it cannot. -/
  barring : Location → Option FileError
  /-- Why no file can be made at a location, or else what may be done with it. -/
  making : Location → Except FileError Access

namespace FileTree

/-- Whether one location lies on the way to another, or is that location. -/
def leadsTo (location other : Location) : Bool := decide (other.take location.length = location)

/-- A directory lies on the way to another one or to a file. -/
def isDirectory (t : FileTree) (location : Location) : Bool :=
  leadsTo location t.workingDirectory || t.directories.any (leadsTo location) ||
    t.nodes.keys.any fun key => leadsTo location key && decide (key ≠ location)

/-- Where a name points from a directory; a point stays there, and two go one up. -/
def follow (location : Location) (name : String) : Location :=
  if name = "." then location
  else if name = ".." then location.dropLast
  else location ++ [name]

/-- Where a name leads from a directory, if anything is there. -/
def step (t : FileTree) (location : Location) (name : String) : Except FileError Location :=
  if !Nat.ble name.utf8ByteSize Path.maxNameBytes then .error .nameTooLong
  else
    let next := follow location name
    if t.isDirectory next || t.nodes.hasKey next then .ok next else .error .notFound

/-- Goes into a directory, to pass it. -/
def enter (t : FileTree) (location : Location) : Except FileError Location :=
  if t.isDirectory location then
    match t.barring location with
    | none => .ok location
    | some error => .error error
  else .error .notADirectory

/-- Goes into the directory to which a name leads. -/
def descend (t : FileTree) (location : Location) (name : String) : Except FileError Location :=
  (t.step location name).bind t.enter

/-- Where a path starts. -/
def startOf (t : FileTree) (path : Path) : Location :=
  if path.fromRoot then [] else t.workingDirectory

/-- The directory to which all names but the last lead. -/
def parentOf (t : FileTree) (path : Path) : Except FileError Location :=
  (t.enter (t.startOf path)).bind fun start => path.names.dropLast.foldlM t.descend start

/-- The file or device that a path names. -/
def find (t : FileTree) (path : String) : Except FileError Node := do
  let path ← Path.parse path
  let parent ← t.parentOf path
  match path.names.getLast? with
  | none => .error .isADirectory
  | some name =>
    let location ← t.step parent name
    match t.nodes.get? location with
    | none => .error .isADirectory
    | some node => if path.endsInSlash then .error .notADirectory else .ok node

/-- Reads what a path names. -/
def read (t : FileTree) (path : String) : Except FileError ByteArray :=
  (t.find path).bind Node.read

/-- What is opened at a location to be written: a missing file is made. -/
def openAt (t : FileTree) (location : Location) : Except FileError Target :=
  match t.nodes.get? location with
  | none => (t.making location).map fun access => .location location access
  | some (.device writing _) => writing.map .device
  | some (.file _ access) =>
    match access.writing with
    | none => .ok (.location location access)
    | some error => .error error

/-- What a path leads a writer to. -/
def target (t : FileTree) (path : String) : Except FileError Target := do
  let path ← Path.parse path
  let parent ← t.parentOf path
  match path.names.getLast? with
  | none => .error .isADirectory
  | some name =>
    if path.endsInSlash || decide (name = ".") || decide (name = "..") then .error .isADirectory
    else if !Nat.ble name.utf8ByteSize Path.maxNameBytes then .error .nameTooLong
    else if t.isDirectory (parent ++ [name]) then .error .isADirectory
    else t.openAt (parent ++ [name])

/-- Puts a file at a location, in the stead of what was there. -/
def put (t : FileTree) (location : Location) (content : ByteArray) (access : Access) : FileTree :=
  { t with nodes := t.nodes.insert location (.file content access) }

end FileTree

end Command

end ScenarioFsp
