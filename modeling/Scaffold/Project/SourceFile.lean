import Scaffold.Edit.Call
import Scaffold.Edit.NamedImport
import Scaffold.Edit.TypeCheck
import Scaffold.Erasure.Walk
import Scaffold.Project.Feature
import Scaffold.Project.Session

/-! # Source files of a project

Each edit reads a file, changes its bytes, and writes it back when they differ. A file that is not
there is left alone. Some edits need a file that fits the grammar, others do with less.
-/

namespace Scaffold.Project

open Scaffold.Text Scaffold.Files Scaffold.Syntax

/-- The language of a file by its ending. -/
def dialectOf (path : Path) : Dialect :=
  if path.suffix = ".tsx" || path.suffix = ".jsx" then .markup else .plain

/-- The bytes of a source file, which have to be UTF-8. -/
def readSource (path : Path) : Operation Bytes := do
  let source ← Operation.readBytes path
  match decode source with
  | .ok _ => return source
  | .error fault => throw (.source (.encoding path fault))

/-- The bytes and the tree of a source file, which has to fit the grammar. -/
def readTree (path : Path) : Operation (Bytes × Tree) := do
  let source ← readSource path
  match (dialectOf path).parse source with
  | .ok tree => return (source, tree)
  | .error line => throw (.source (.grammar path line))

/-- Writes a file back if its content changed, and tells whether it did. -/
def writeChanged (path : Path) (before after : Bytes) : Operation Bool := do
  if after = before then return false
  else
    Operation.writeBytes path after
    return true

/-- Carries out an edit of a file, unless there is no file. -/
def onFile (path : Path) (act : Operation Bool) : Operation Bool := do
  if ← Operation.ask fun disk => disk.isFile path then act else return false

/-- An edit of a file that fits the grammar. -/
def editTree (path : Path) (edit : Bytes → Tree → Bytes) : Operation Bool :=
  onFile path do
    let (source, tree) ← readTree path
    writeChanged path source (edit source tree)

/-- An edit of a file with what to do when it does not fit the grammar. -/
def editEither (path : Path) (edit : Bytes → Tree → Bytes) (otherwise : Bytes → Bytes) : Operation Bool :=
  onFile path do
    let source ← readSource path
    match (dialectOf path).parse source with
    | .ok tree => writeChanged path source (edit source tree)
    | .error _ => writeChanged path source (otherwise source)

/-- Removes the imports of a module. -/
def removeImport (path : Path) (moduleName : String) : Operation Bool :=
  editTree path fun source tree => Edit.removeImport source moduleName tree

/-- Whether a file imports a module. -/
def hasImport (path : Path) (moduleName : String) : Operation Bool :=
  onFile path do
    let (source, tree) ← readTree path
    return Edit.hasImport source moduleName tree

/-- Removes the statements that call a function. -/
def removeCall (path : Path) (function : String) (argument : Option String) : Operation Bool :=
  editTree path fun source tree => Edit.removeCall source ⟨function, argument⟩ tree

/-- Removes entries of arrays. -/
def removeEntries (path : Path) (target : Edit.EntryTarget) : Operation Bool :=
  editEither path (fun source tree => Edit.removeEntries source target tree)
    fun source => Edit.removeByPattern source target

/-- Removes the imports of names. The file may hold anything. -/
def removeNamedImports (path : Path) (names : List String) : Operation Bool :=
  onFile path do
    let source ← Operation.readBytes path
    writeChanged path source (Edit.removeNamedImports source names)

/-- Switches the type check off. -/
def disableTypeCheck (path : Path) : Operation Bool :=
  let textual (source : Bytes) := encodeChars (Edit.typeCheckText (decodeLossy 0 source))
  editEither path
    (fun source tree =>
      match Edit.configObject? source tree with
      | some config => applyEdits source (Edit.typeCheckEdits source config)
      | none => textual source)
    textual

/-- Carries out an action with the arguments of a step. -/
def Action.run (action : Action) (path : Path) (arguments : List String) : Operation Bool :=
  match action, arguments with
  | .removeImport, moduleName :: _ => Project.removeImport path moduleName
  | .removeCall, function :: others => Project.removeCall path function others.head?
  | .removePlugin, plugin :: _ => removeEntries path (.plugin plugin)
  | .removeArrayEntry, value :: _ => removeEntries path (.literal value)
  | .removeNamedImports, names => Project.removeNamedImports path names
  | .disableTypeCheck, _ => Project.disableTypeCheck path
  | _, [] => return false

/-- The endings of files that lose their types. -/
def plainSuffix (suffix : String) : String :=
  if suffix = ".mts" then ".mjs" else if suffix = ".cts" then ".cjs" else ".js"

/-- The path of a file without types. -/
def convertedPath (path : Path) : Path := path.withSuffix (plainSuffix path.suffix)

/-- Whether a file is one that loses its types: its ending says so, and it does more than declare. -/
def isConvertible (path : Path) : Bool :=
  path.suffix = ".ts" && !(".d.ts".toList.reverse.isPrefixOf path.name.toList.reverse)

/-- Replaces a file by one without types next to it. -/
def convertFile (path : Path) : Operation Path := do
  let source ← tryCatch (readSource path) fun failure =>
    match failure with
    | .source (.encoding path fault) => throw (.conversion (.encoding path fault))
    | other => throw other
  match Erasure.erase (dialectOf path) source with
  | .error line => throw (.conversion (.grammar path line))
  | .ok output =>
    Operation.writeBytes (convertedPath path) output
    Operation.change fun disk => disk.unlink path
    return convertedPath path

/-- What became of the files of a directory: the new paths, and the old paths of those that stayed
with the reasons. -/
structure Conversion where
  converted : List Path
  failures : List (Path × String)
  deriving DecidableEq, Repr, Inhabited

/-- Converts files one after the other. One that cannot be converted is reported and stays. -/
def convertFiles : List Path → Operation Conversion
  | [] => return ⟨[], []⟩
  | path :: later => do
    let outcome ← tryCatch (do return Except.ok (← convertFile path)) fun failure =>
      match failure with
      | .conversion fault => return Except.error fault.message
      | other => throw other
    match outcome with
    | .ok target =>
      let rest ← convertFiles later
      return { rest with converted := target :: rest.converted }
    | .error message =>
      Operation.say ("  [yellow]Skipping " ++ path.name ++ ": " ++ message ++ "[/yellow]")
      let rest ← convertFiles later
      return { rest with failures := (path, message) :: rest.failures }

/-- Converts the files under a directory. -/
def convertTree (directory : Path) : Operation Conversion := do
  convertFiles (← Operation.ask fun disk =>
    if disk.isDirectory directory then disk.filesUnder directory isConvertible else [])

/-- The paths that a target stands for and where something is. -/
def resolve (root : Path) (target : String) : Operation (List Path) :=
  Operation.ask fun disk => (candidates root target).filter disk.contains

end Scaffold.Project
