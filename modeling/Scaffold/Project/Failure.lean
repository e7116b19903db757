import Scaffold.Console.Markup
import Scaffold.Files.Disk
import Scaffold.Json.Reader

/-! # Failures

Everything that can stop an operation on a project, by its cause, and the text that tells of it.
-/

namespace Scaffold.Project

open Scaffold.Text Scaffold.Files

/-- Why a source file cannot be edited. -/
inductive SourceFault where
  | grammar (path : Path) (line : Nat)
  | encoding (path : Path) (fault : Utf8Fault)
  deriving DecidableEq, Repr, Inhabited

def encodingMessage (path : Path) (fault : Utf8Fault) : String :=
  path.text ++ " is not valid UTF-8: " ++ fault.message

def SourceFault.message : SourceFault → String
  | .grammar path line => s!"Cannot parse {path.text} (syntax error near line {line})"
  | .encoding path fault => encodingMessage path fault

/-- Why a source file cannot lose its types. -/
inductive ConversionFault where
  | grammar (path : Path) (line : Nat)
  | encoding (path : Path) (fault : Utf8Fault)
  deriving DecidableEq, Repr, Inhabited

def ConversionFault.message : ConversionFault → String
  | .grammar path line => s!"Cannot convert {path.text}: syntax error near line {line}"
  | .encoding path fault => encodingMessage path fault

/-- Why the text of a file cannot be used. -/
inductive TextFault where
  | trouble (trouble : Trouble)
  | encoding (fault : Utf8Fault)
  | json (text : List Char) (fault : Json.Fault)
  deriving DecidableEq, Repr, Inhabited

def TextFault.message : TextFault → String
  | .trouble what => what.message
  | .encoding fault => fault.message
  | .json text fault => fault.message text

/-- Why a manifest cannot be loaded. -/
inductive ManifestFault where
  | missing (path : Path)
  | unreadable (path : Path) (fault : TextFault)
  | notObject (path : Path)
  deriving DecidableEq, Repr, Inhabited

def ManifestFault.message : ManifestFault → String
  | .missing path => "Manifest not found: " ++ path.text
  | .unreadable path fault => "Cannot read manifest " ++ path.text ++ ": " ++ fault.message
  | .notObject path => "Manifest " ++ path.text ++ " is not a JSON object"

/-- What is wrong with a setting. -/
inductive SettingFault where
  | invalidDocument
  | notObject
  | missing
  | notText
  | notPath
  | notBoolean
  | unknownBoolean
  deriving DecidableEq, Repr, Inhabited

/-- The short name of a fault. -/
def SettingFault.name : SettingFault → String
  | invalidDocument => "json_invalid"
  | notObject => "model_type"
  | missing => "missing"
  | notText => "string_type"
  | notPath => "path_type"
  | notBoolean => "bool_type"
  | unknownBoolean => "bool_parsing"

/-- A fault of a setting; the whole document has no key. -/
structure SettingReport where
  fault : SettingFault
  key : Option String
  deriving DecidableEq, Repr, Inhabited

/-- Why a project cannot be created as asked. -/
inductive CreationFault where
  | nameMissing
  | badName (name : String)
  | targetNotDirectory (target : Path)
  | targetOccupied (target : Path)
  deriving DecidableEq, Repr, Inhabited

def CreationFault.message : CreationFault → String
  | nameMissing => "A project name is required with --yes"
  | badName name => "Invalid project name '" ++ name ++ "': use only letters, digits, '-' and '_'"
  | targetNotDirectory target => target.text ++ " exists and is not a directory"
  | targetOccupied target => "Directory " ++ target.text ++ " is not empty (use --force to overwrite)"

/-- What stopped an operation. -/
inductive Failure where
  | source (fault : SourceFault)
  | conversion (fault : ConversionFault)
  | manifest (fault : ManifestFault)
  | text (fault : TextFault)
  | copies (reports : List String)
  | templateMissing (name : String) (path : Option Path)
  | unknownAction (name : String)
  | settings (reports : List SettingReport)
  | creation (fault : CreationFault)
  | markup (fault : Console.MarkupFault)
  | endOfInput
  deriving DecidableEq, Repr, Inhabited

def Failure.message : Failure → String
  | source fault => fault.message
  | conversion fault => fault.message
  | manifest fault => fault.message
  | text fault => fault.message
  | copies reports => "[" ++ ", ".intercalate reports ++ "]"
  | templateMissing name path =>
    let place := match path with
      | some path => " at " ++ path.text
      | none => ""
    "Template '" ++ name ++ "' not found" ++ place
  | unknownAction name => name
  | settings reports => ", ".intercalate (reports.map fun report => report.fault.name)
  | creation fault => fault.message
  | markup fault => fault.message
  | endOfInput => "EOF when reading a line"

/-- A failure that concerns one feature only, so that the others can go on. -/
def Failure.isLocal : Failure → Bool
  | source _ | conversion _ | manifest _ | text (.trouble _) | copies _ => true
  | _ => false

end Scaffold.Project
