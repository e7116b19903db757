import Scaffold.Files.Disk

/-! # Copying a directory

A directory is copied with all that is in it into a directory that may be there already. What cannot
be copied is reported, and the rest is copied nevertheless.
-/

namespace Scaffold.Files.Disk

open Scaffold.Text

/-- The directories that are left out. -/
def isIgnored (name : String) : Bool := name = "__pycache__"

/-- The report of what could not be copied. -/
def copyReport (source target : Path) (reason : String) : String :=
  "(" ++ ", ".intercalate [quoted source.text, quoted target.text, quoted reason] ++ ")"

/-- The reports of a file that would be copied onto itself: one for each character of the reason. -/
def selfCopyReports (name : String) (target : Path) : List String :=
  let reason := "<DirEntry " ++ quoted name ++ "> and " ++ quoted target.text ++ " are the same file"
  reason.toList.map fun c => quoted (String.ofList [c])

/-- Whether two paths lead to one location. -/
def isSame (disk : Disk) (first second : Path) : Bool :=
  match disk.locate first, disk.locate second with
  | .ok first, .ok second => first = second
  | _, _ => false

/-- Copies a file. A directory with the name of the copy takes the copy in. -/
def copyFile (disk : Disk) (source target : Path) (content : Bytes) : List String × Disk :=
  let final := if disk.isDirectory target then target.child source.name else target
  if disk.isSame final source then (selfCopyReports source.name final, disk)
  else match disk.write final content with
    | .ok disk => ([], disk)
    | .error trouble => ([copyReport source target trouble.message], disk)

mutual

/-- Copies a directory; the fuel bounds the depth. Yields the reports, or why the target cannot be. -/
def copyDirectory : Nat → Disk → Path → Path → Except Trouble (List String) × Disk
  | 0, disk, _, _ => (.ok [], disk)
  | fuel + 1, disk, source, target =>
    let entries := match disk.locate source with
      | .ok location => disk.children location
      | .error _ => []
    match disk.makeDirectories target with
    | .error (trouble, disk) => (.error trouble, disk)
    | .ok disk =>
      let (reports, disk) := copyEntries fuel disk source target entries
      (.ok reports, disk)

/-- Copies the entries of a directory one after the other. -/
def copyEntries : Nat → Disk → Path → Path → List (String × Entry) → List String × Disk
  | 0, disk, _, _, _ => ([], disk)
  | _, disk, _, _, [] => ([], disk)
  | fuel + 1, disk, source, target, (name, entry) :: later =>
    let from_ := source.child name
    let into := target.child name
    let (reports, disk) :=
      if isIgnored name then ([], disk)
      else match entry with
        | .file content => copyFile disk from_ into content
        | .directory =>
          match copyDirectory fuel disk from_ into with
          | (.ok reports, disk) => (reports, disk)
          | (.error trouble, disk) => ([copyReport from_ into trouble.message], disk)
    let (more, disk) := copyEntries fuel disk source target later
    (reports ++ more, disk)

end

/-- Copies a directory with all that is in it. -/
def copyTree (disk : Disk) (source target : Path) : Except Trouble (List String) × Disk :=
  copyDirectory (2 * disk.entries.length + 2) disk source target

end Scaffold.Files.Disk
