import Scaffold.CommandLine.Prompt
import Scaffold.CommandLine.Request
import Scaffold.Project.Config
import Scaffold.Project.Generation

/-! # Creating a project

What the command line leaves open is taken from the configuration or asked for. Nothing is written
before all is settled: the name, the template, the features, and that the target may be written.
-/

namespace Scaffold.CommandLine

open Scaffold.Files Scaffold.Project

/-- The path that an option names; an empty one does not count. -/
def givenPath (text : Option String) : Option Path := (text.filter (· ≠ "")).map Path.ofString

/-- A line that is to be heeded. -/
def warn (text : String) : Operation Unit := Operation.say ("[bold yellow]" ++ text ++ "[/bold yellow]")

/-- The name of the project, asked for where it is not given. -/
def settleName (arguments : CreateArguments) : Operation String := do
  match arguments.name with
  | some name => if isProjectName name then return name else throw (.creation (.badName name))
  | none =>
    if arguments.yes then throw (.creation .nameMissing)
    else askText "Project name" "my-app" "Use only letters, digits, '-' and '_'." isProjectName

/-- The family of a name. -/
def knownFamily (name : String) : Operation Family :=
  match family? families name with
  | some family => return family
  | none => throw (.templateMissing name none)

/-- The family of templates, asked for where it is not given. -/
def settleFamily (arguments : CreateArguments) (config : Config) : Operation Family := do
  match arguments.template with
  | some name => knownFamily name
  | none =>
    if arguments.yes then knownFamily config.defaultTemplate
    else
      let choices := families.map Family.name
      let default := if config.defaultTemplate ∈ choices then config.defaultTemplate else choices.headD ""
      knownFamily (← askChoice "Template" choices default)

/-- Asks for every feature whether it is wanted. -/
def askFeatures : List Feature → Operation Selection
  | [] => return []
  | feature :: later => do
    let question := if feature.label.isEmpty then feature.name else feature.label
    let on ← confirm question feature.isDefault
    return (feature.name, on) :: (← askFeatures later)

/-- Which features are wanted, asked for where it is not given. -/
def settleFeatures (arguments : CreateArguments) (family : Family) : Operation Selection := do
  let names := family.features.map Feature.name
  match arguments.features with
  | .all => return .ofChosen family.features names
  | .none => return .ofChosen family.features []
  | .listed text =>
    let chosen := parseFeatureList text
    let unknown := chosen.filter (· ∉ names)
    if !unknown.isEmpty then
      warn ("Ignoring unknown feature(s) for " ++ family.name ++ ": " ++ ", ".intercalate unknown)
    return .ofChosen family.features chosen
  | .unstated =>
    if arguments.yes then return .default family.features
    else askFeatures family.features

/-- Makes sure that the target may be written, and empties it. Tells whether the user agrees. -/
def prepareTarget (target : Path) (force yes : Bool) : Operation Bool := do
  if ← Operation.ask fun disk => disk.contains target && !disk.isDirectory target then
    throw (.creation (.targetNotDirectory target))
  if ← Operation.ask fun disk => disk.isVacant target then return true
  if !force && yes then throw (.creation (.targetOccupied target))
  let agreed ← if force then pure true
    else confirm ("Directory " ++ target.text ++ " is not empty. Overwrite?") false
  if agreed then Operation.change fun disk => disk.clear target
  return agreed

/-- Names in a summary. -/
def nameList (names : List String) : String := if names.isEmpty then "none" else ", ".intercalate names

/-- Shows what has been created, and what to do next. -/
def reportCreation (name : String) (family : Family) (selection : Selection) (result : Result) :
    Operation Unit := do
  for warning in result.warnings do
    warn ("Warning: " ++ warning)
  let location ← Operation.ask fun disk => disk.resolve result.target
  Operation.display (.summary "Project created" [
    ("Project", name), ("Template", family.name), ("Location", location.text),
    ("Features", nameList ((selection.filter (·.2)).map (·.1))), ("Removed", nameList result.removed)])
  if result.isOk then Operation.put "Done. Next steps:\n"
  else Operation.put s!"Done with {result.warnings.length} warning(s). Next steps:\n"
  Operation.say ("  cd " ++ result.target.text)
  Operation.put ("  " ++ installCommand ++ "\n")
  Operation.put ("  " ++ startCommand ++ "\n")

/-- Creates a project. -/
def create (environment : Environment) (arguments : CreateArguments) : Operation Unit := do
  let config ← Config.discover environment (← Operation.ask Disk.workingPath)
  let templates := (givenPath arguments.templates).getD config.templates
  let name ← settleName arguments
  let family ← settleFamily arguments config
  let template := family.templatePath templates
  if !(← Operation.ask fun disk => disk.isDirectory template) then
    throw (.templateMissing family.name (some template))
  let selection ← settleFeatures arguments family
  let target := ((givenPath arguments.directory).getD config.output).child name
  if ← prepareTarget target (arguments.force || config.force) arguments.yes then
    reportCreation name family selection (← family.generate templates target selection name)
  else warn "Cancelled."

end Scaffold.CommandLine
