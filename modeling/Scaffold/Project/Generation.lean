import Scaffold.Files.Copy
import Scaffold.Project.Removal

/-! # Generating a project

A project is a copy of a template that bears the name of the project and has only the features that
are on. The manifest is written once, at the end.
-/

namespace Scaffold.Project

open Scaffold.Files

/-- Where the template of a family is. -/
def Family.templatePath (family : Family) (templates : Path) : Path := templates.child family.name

/-- Copies a template into a directory. -/
def copyTemplate (template target : Path) : Operation Unit := do
  let (outcome, disk) := (← get).disk.copyTree template target
  Operation.setDisk disk
  match outcome with
  | .error trouble => throw (.text (.trouble trouble))
  | .ok [] => return ()
  | .ok reports => throw (.copies reports)

/-- Generates a project from the template of a family. -/
def Family.generate (family : Family) (templates target : Path) (selection : Selection) (name : String) :
    Operation Result := do
  let template := family.templatePath templates
  if !(← Operation.ask fun disk => disk.isDirectory template) then
    throw (.templateMissing family.name (some template))
  copyTemplate template target
  match ← applyName target name (← Manifest.inDirectory target) with
  | none => family.processProject target selection
  | some manifest =>
    let (result, manifest) ← family.processLoaded target selection manifest
    match manifest with
    | none => return result
    | some manifest =>
      let _ ← manifest.save false
      return result

end Scaffold.Project
