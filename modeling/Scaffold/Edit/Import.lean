import Scaffold.Syntax.Outline

/-! # Removing imports of a module -/

namespace Scaffold.Edit

open Scaffold.Text Scaffold.Syntax

/-- Whether a statement of a file imports exactly a module. -/
def importsModule (source : Bytes) (moduleName : String) (statement : Tree) : Bool :=
  statement.kind = .importStatement && importedModule? source statement = some moduleName

/-- Whether a file imports exactly a module. -/
def hasImport (source : Bytes) (moduleName : String) (file : Tree) : Bool :=
  file.children.any (importsModule source moduleName)

/-- The edit that removes a range with the lines that it owns. -/
def removeLines (source : Bytes) (start stop : Nat) : Text.Edit :=
  let (start, stop) := lineRange source start stop
  .removal start stop

/-- The edits that remove the imports of a module. -/
def importEdits (source : Bytes) (moduleName : String) (file : Tree) : List Text.Edit :=
  (file.children.filter (importsModule source moduleName)).map fun statement =>
    removeLines source statement.start statement.stop

/-- A file without its imports of a module. -/
def removeImport (source : Bytes) (moduleName : String) (file : Tree) : Bytes :=
  applyEdits source (importEdits source moduleName file)

end Scaffold.Edit
