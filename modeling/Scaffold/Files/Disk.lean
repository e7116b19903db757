import Scaffold.Files.Path
import Scaffold.Text.Quoted

/-! # The files on disk

A disk is a table from locations to files and directories. A location is the list of names from the
root, a path is resolved to one from the working directory, and every operation either changes the
table or names its cause and its path.
-/

namespace Scaffold.Files

open Scaffold.Text

/-- The names from the root to a file or a directory. -/
abbrev Location := List String

/-- What is at a location. -/
inductive Entry where
  | file (content : Bytes)
  | directory
  deriving DecidableEq, Repr, Inhabited

/-- The files and directories; the root is always a directory. -/
structure Disk where
  workingDirectory : Location
  entries : List (Location × Entry)
  deriving Inhabited

/-- Why an operation on a path fails. -/
inductive Cause where
  | missing
  | exists
  | notDirectory
  | isDirectory
  deriving DecidableEq, Repr, Inhabited

/-- A failed operation on a path. -/
structure Trouble where
  cause : Cause
  path : Path
  deriving DecidableEq, Repr, Inhabited

def Cause.message : Cause → String
  | missing => "[Errno 2] No such file or directory"
  | .exists => "[Errno 17] File exists"
  | notDirectory => "[Errno 20] Not a directory"
  | isDirectory => "[Errno 21] Is a directory"

def Trouble.message (trouble : Trouble) : String :=
  trouble.cause.message ++ ": " ++ quoted trouble.path.text

namespace Disk

/-- What is at a location. -/
def entry? (disk : Disk) (location : Location) : Option Entry :=
  if location = [] then some .directory
  else (disk.entries.find? (·.1 = location)).map (·.2)

/-- Puts an entry at a location, in place of what was there. -/
def put (disk : Disk) (location : Location) (entry : Entry) : Disk :=
  if disk.entries.any (·.1 = location) then
    { disk with entries := disk.entries.map fun old => if old.1 = location then (location, entry) else old }
  else { disk with entries := disk.entries ++ [(location, entry)] }

/-- Removes what is at a location and everything under it. -/
def remove (disk : Disk) (location : Location) : Disk :=
  { disk with entries := disk.entries.filter fun old => !location.isPrefixOf old.1 }

/-- Removes everything under a location. -/
def empty (disk : Disk) (location : Location) : Disk :=
  { disk with entries := disk.entries.filter fun old => old.1 = location || !location.isPrefixOf old.1 }

/-- What is under a location, each entry with its names from there. -/
def under (disk : Disk) (location : Location) : List (Location × Entry) :=
  (disk.entries.filter fun old => location.isPrefixOf old.1 && old.1 ≠ location).map fun old =>
    (old.1.drop location.length, old.2)

/-- Follows names from a location. All of them but the last have to be directories. -/
def follow (disk : Disk) : Location → List String → Except Cause Location
  | here, [] => .ok here
  | here, name :: later =>
    match disk.entry? here with
    | none => .error .missing
    | some (.file _) => .error .notDirectory
    | some .directory => disk.follow (if name = ".." then here.dropLast else here ++ [name]) later

/-- The location that a path leads to. -/
def locate (disk : Disk) (path : Path) : Except Cause Location :=
  disk.follow (if path.absolute then [] else disk.workingDirectory) path.parts

def workingPath (disk : Disk) : Path := ⟨true, disk.workingDirectory⟩

/-- The absolute path of a path, without double dots; one at the root stays at the root. -/
def resolve (disk : Disk) (path : Path) : Path :=
  let start := if path.absolute then [] else disk.workingDirectory
  ⟨true, path.parts.foldl (fun here name => if name = ".." then here.dropLast else here ++ [name]) start⟩

/-- What a path leads to, if anything. -/
def at? (disk : Disk) (path : Path) : Option Entry :=
  match disk.locate path with
  | .ok location => disk.entry? location
  | .error _ => none

def isFile (disk : Disk) (path : Path) : Bool :=
  match disk.at? path with
  | some (.file _) => true
  | _ => false

def isDirectory (disk : Disk) (path : Path) : Bool := disk.at? path = some .directory

def contains (disk : Disk) (path : Path) : Bool := (disk.at? path).isSome

/-- The content of a file. -/
def read (disk : Disk) (path : Path) : Except Trouble Bytes :=
  match disk.locate path with
  | .error cause => .error ⟨cause, path⟩
  | .ok location =>
    match disk.entry? location with
    | none => .error ⟨.missing, path⟩
    | some .directory => .error ⟨.isDirectory, path⟩
    | some (.file content) => .ok content

/-- Gives a file a content; the file is made when its directory is there. -/
def write (disk : Disk) (path : Path) (content : Bytes) : Except Trouble Disk :=
  match disk.locate path with
  | .error cause => .error ⟨cause, path⟩
  | .ok location =>
    match disk.entry? location with
    | some .directory => .error ⟨.isDirectory, path⟩
    | some (.file _) => .ok (disk.put location (.file content))
    | none =>
      match disk.entry? location.dropLast with
      | none => .error ⟨.missing, path⟩
      | some (.file _) => .error ⟨.notDirectory, path⟩
      | some .directory => .ok (disk.put location (.file content))

/-- Removes a file. -/
def unlink (disk : Disk) (path : Path) : Except Trouble Disk :=
  match disk.locate path with
  | .error cause => .error ⟨cause, path⟩
  | .ok location =>
    match disk.entry? location with
    | none => .error ⟨.missing, path⟩
    | some .directory => .error ⟨.isDirectory, path⟩
    | some (.file _) => .ok (disk.remove location)

/-- Makes directories from a location on, where they are not there yet. A cause comes with the number
of names that were not reached, and with what has been made before. -/
def makeFrom (disk : Disk) : Location → List String → Except (Cause × Nat × Disk) Disk
  | here, names =>
    match disk.entry? here with
    | some (.file _) => .error (if names.isEmpty then .exists else .notDirectory, names.length - 1, disk)
    | found =>
      let disk := if found.isNone then disk.put here .directory else disk
      match names with
      | [] => .ok disk
      | name :: later => disk.makeFrom (if name = ".." then here.dropLast else here ++ [name]) later
termination_by _ names => names.length

/-- Makes a directory and those above it. A directory that is there already is left alone. -/
def makeDirectory (disk : Disk) (path : Path) : Except Trouble Disk :=
  match disk.makeFrom (if path.absolute then [] else disk.workingDirectory) path.parts with
  | .ok disk => .ok disk
  | .error (cause, _, _) => .error ⟨cause, path⟩

/-- Makes a directory and those above it, and blames the first that cannot be made. Those before it stay. -/
def makeDirectories (disk : Disk) (path : Path) : Except (Trouble × Disk) Disk :=
  match disk.makeFrom (if path.absolute then [] else disk.workingDirectory) path.parts with
  | .ok disk => .ok disk
  | .error (cause, left, disk) =>
    .error (⟨cause, { path with parts := path.parts.take (path.parts.length - left) }⟩, disk)

/-- What is directly in a directory, by name. -/
def children (disk : Disk) (location : Location) : List (String × Entry) :=
  let found := (disk.under location).filterMap fun (names, entry) =>
    match names with
    | [name] => some (name, entry)
    | _ => none
  found.mergeSort fun first second => decide (first.1 ≤ second.1)

/-- Removes every entry of a directory, and keeps the directory. -/
def clear (disk : Disk) (path : Path) : Except Trouble Disk :=
  match disk.locate path with
  | .error cause => .error ⟨cause, path⟩
  | .ok location =>
    match disk.entry? location with
    | none => .error ⟨.missing, path⟩
    | some (.file _) => .error ⟨.notDirectory, path⟩
    | some .directory => .ok (disk.empty location)

/-- Whether nothing is at a path, or a directory without entries. -/
def isVacant (disk : Disk) (path : Path) : Bool :=
  match disk.locate path with
  | .error _ => true
  | .ok location =>
    match disk.entry? location with
    | none => true
    | some (.file _) => false
    | some .directory => (disk.under location).isEmpty

/-- Removes what is at a path, a directory with all that is in it. Tells whether anything was. -/
def removePath (disk : Disk) (path : Path) : Bool × Disk :=
  match disk.locate path with
  | .error _ => (false, disk)
  | .ok location => if (disk.entry? location).isSome then (true, disk.remove location) else (false, disk)

/-- The files under a directory that satisfy a test, in the order of their paths. -/
def filesUnder (disk : Disk) (path : Path) (accepts : Path → Bool) : List Path :=
  match disk.locate path with
  | .error _ => []
  | .ok location =>
    let found := (disk.under location).filterMap fun (names, entry) =>
      match entry with
      | .file _ => some { path with parts := path.parts ++ names }
      | .directory => none
    (found.filter accepts).mergeSort Path.before

end Disk

end Scaffold.Files
