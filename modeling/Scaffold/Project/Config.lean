import Scaffold.Project.Session
import Scaffold.Project.Setting

/-! # Configuration

The settings of the program: defaults, a document in the working directory, and the environment, each
taking precedence over the one before.
-/

namespace Scaffold.Project

open Scaffold.Files Scaffold.Json

/-- The settings. -/
structure Config where
  templates : Path
  defaultTemplate : String
  output : Path
  force : Bool
  deriving DecidableEq, Repr, Inhabited

/-- What the program knows of its surroundings: where it is installed, and its environment. -/
structure Environment where
  packagedTemplates : Path
  exported : List (String × String)
  deriving DecidableEq, Repr, Inhabited

namespace Config

def fileName : String := "hs-cli.config.json"

/-- The configuration without any settings. -/
def initial (environment : Environment) : Config :=
  ⟨environment.packagedTemplates, "vue3", .ofString ".", false⟩

/-- The configuration that an object describes. -/
def ofMembers (environment : Environment) (members : Members) : Except (List SettingReport) Config :=
  let start := initial environment
  let templates := setting members "templates_dir" readPath (.ok start.templates)
  let defaultTemplate := setting members "default_template" readText (.ok start.defaultTemplate)
  let output := setting members "output_dir" readPath (.ok start.output)
  let force := setting members "force" readBoolean (.ok start.force)
  match templates, defaultTemplate, output, force with
  | .ok templates, .ok defaultTemplate, .ok output, .ok force =>
    .ok ⟨templates, defaultTemplate, output, force⟩
  | _, _, _, _ =>
    .error (report "templates_dir" templates ++ report "default_template" defaultTemplate ++
      report "output_dir" output ++ report "force" force)

/-- The configuration that a document describes. -/
def ofDocument (environment : Environment) (text : List Char) : Except (List SettingReport) Config :=
  match Json.parse text with
  | .error _ => .error [⟨.invalidDocument, none⟩]
  | .ok (.object members) => ofMembers environment members
  | .ok _ => .error [⟨.notObject, none⟩]

/-- The document of a configuration. -/
def document (config : Config) : String :=
  Json.document (.object [("templates_dir", .text config.templates.text),
    ("default_template", .text config.defaultTemplate), ("output_dir", .text config.output.text),
    ("force", .boolean config.force)])

/-- The value of a variable of the environment; an empty one does not count. -/
def lookup? (environment : Environment) (name : String) : Option String :=
  (environment.exported.lookup name).filter (· ≠ "")

/-- The configuration with what the environment sets. -/
def withEnvironment (config : Config) (environment : Environment) : Config where
  templates := ((lookup? environment "HS_CLI_TEMPLATES_DIR").map Path.ofString).getD config.templates
  defaultTemplate := (lookup? environment "HS_CLI_DEFAULT_TEMPLATE").getD config.defaultTemplate
  output := ((lookup? environment "HS_CLI_OUTPUT_DIR").map Path.ofString).getD config.output
  force := config.force

def liftReports {α : Type} : Except (List SettingReport) α → Operation α
  | .ok value => return value
  | .error reports => throw (.settings reports)

/-- Loads the configuration from a file. -/
def load (environment : Environment) (path : Path) : Operation Config := do
  liftReports (ofDocument environment (← Operation.readText path))

/-- The configuration for a directory. -/
def discover (environment : Environment) (directory : Path) : Operation Config := do
  let path := directory.child fileName
  let config ←
    if ← Operation.ask fun disk => disk.isFile path then load environment path
    else pure (initial environment)
  return config.withEnvironment environment

/-- Saves the configuration to a file, whose directory is made where it is not there. -/
def save (config : Config) (path : Path) : Operation Unit := do
  Operation.change fun disk => disk.makeDirectory path.parent
  Operation.writeText path config.document.toList

end Config

end Scaffold.Project
