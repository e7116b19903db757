import Scaffold.Project.Session

/-! # The manifest of a project

The manifest is a JSON object that is loaded once, changed in memory, and written back when its text
differs from the one last loaded or written.
-/

namespace Scaffold.Project

open Scaffold.Files Scaffold.Json

/-- A manifest in memory. -/
structure Manifest where
  path : Path
  data : Members
  /-- The text of the document last loaded or written. -/
  stored : String
  deriving Inhabited

namespace Manifest

def fileName : String := "package.json"

/-- The text of the document as it is now. -/
def text (manifest : Manifest) : String := document (.object manifest.data)

/-- A manifest that holds a document which counts as stored. -/
def ofData (path : Path) (data : Members) : Manifest := ⟨path, data, document (.object data)⟩

/-- Whether the document differs from the stored one. -/
def isDirty (manifest : Manifest) : Bool := manifest.text ≠ manifest.stored

/-- The value under `name`. -/
def name? (manifest : Manifest) : Option Value := manifest.data.get? "name"

def setName (manifest : Manifest) (name : String) : Manifest :=
  { manifest with data := manifest.data.set "name" (.text name) }

/-- The section of a name, if it is an object. -/
def section? (manifest : Manifest) (name : String) : Option Members :=
  (manifest.data.get? name).bind Value.members?

/-- The members of a section; one that is missing or no object has none. -/
def members (manifest : Manifest) (name : String) : Members := (manifest.section? name).getD []

/-- The names that are keys, each once, in the order in which they are removed. -/
def removableKeys : List String → Members → List String
  | [], _ => []
  | name :: later, members =>
    if name ∈ members.keys then name :: removableKeys later (members.erase name)
    else removableKeys later members

/-- Removes keys from a section, and tells which were there. -/
def removeKeys (manifest : Manifest) (sectionName : String) (names : List String) : List String × Manifest :=
  match manifest.section? sectionName with
  | none => ([], manifest)
  | some members =>
    let kept := names.foldl Members.erase members
    (removableKeys names members, { manifest with data := manifest.data.set sectionName (.object kept) })

/-- Adds a dependency to a section unless it is there. A section that is no object is made anew. -/
def ensureDependency (manifest : Manifest) (name version sectionName : String) : Manifest :=
  let members := manifest.members sectionName
  let members := if name ∈ members.keys then members else members.set name (.text version)
  { manifest with data := manifest.data.set sectionName (.object members) }

/-- What becomes of one script. -/
def rewriteScript (rewrite : String → String → Option String) (script : String × Value) :
    Option (String × Value) :=
  match script with
  | (name, .text command) => (rewrite name command).map fun changed => (name, .text changed)
  | other => some other

/-- Rewrites every script that is a text; one for which there is no new text is removed. -/
def rewriteScripts (manifest : Manifest) (rewrite : String → String → Option String) : Manifest :=
  match manifest.section? "scripts" with
  | none => manifest
  | some scripts =>
    { manifest with data := manifest.data.set "scripts" (.object (scripts.filterMap (rewriteScript rewrite))) }

/-- Loads the manifest at a path. -/
def load (path : Path) : Operation Manifest := do
  if !(← Operation.ask fun disk => disk.isFile path) then throw (.manifest (.missing path))
  let value ← tryCatch (Operation.readJson path) fun failure =>
    match failure with
    | .text fault => throw (.manifest (.unreadable path fault))
    | other => throw other
  match value with
  | .object members => return ofData path members
  | _ => throw (.manifest (.notObject path))

/-- Loads the manifest at a path, if there is a file. -/
def loadOptional (path : Path) : Operation (Option Manifest) := do
  if ← Operation.ask fun disk => disk.isFile path then return some (← load path)
  else return none

/-- Loads the manifest in a directory, if there is one. -/
def inDirectory (directory : Path) : Operation (Option Manifest) := loadOptional (directory.child fileName)

/-- Writes the manifest if it is dirty or if that is demanded, and tells whether it did. -/
def save (manifest : Manifest) (force : Bool) : Operation (Bool × Manifest) := do
  if !force && !manifest.isDirty then return (false, manifest)
  else
    Operation.writeText manifest.path manifest.text.toList
    return (true, { manifest with stored := manifest.text })

/-- Changes the manifest at a path, if there is one, and tells whether it was written. -/
def editAt (path : Path) (change : Manifest → Manifest) : Operation Bool := do
  match ← loadOptional path with
  | none => return false
  | some manifest => return (← (change manifest).save false).1

end Manifest

end Scaffold.Project
