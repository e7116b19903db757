import Scaffold.CommandLine.Create
import Scaffold.Console.Table

/-! # Running the program

A run carries out what the command line asks for. It ends with a status, or with a failure that it
has no words for.
-/

namespace Scaffold.CommandLine

open Scaffold.Files Scaffold.Project

/-- Shows the families of templates with their features. -/
def listTemplates (environment : Environment) : Operation Unit := do
  let _ ← Config.discover environment (← Operation.ask Disk.workingPath)
  let rows := families.map fun family => [family.name, ", ".intercalate (family.features.map Feature.name)]
  Operation.put (← Operation.liftMarkup (Console.showTable "Available templates" ["Template", "Features"] rows))

/-- Saves the initial configuration to the working directory. -/
def initialise (environment : Environment) (force : Bool) : Operation Unit := do
  let path := (← Operation.ask Disk.workingPath).child Config.fileName
  let agreed ←
    if ← Operation.ask fun disk => disk.contains path && !force then
      confirm (Config.fileName ++ " already exists. Overwrite?") false
    else pure true
  if agreed then
    (Config.initial environment).save path
    Operation.put "Configuration initialised.\n"
    Operation.say ("  [dim]" ++ path.text ++ "[/dim]")
  else warn "Initialisation cancelled."

/-- Carries out a request. -/
def perform (environment : Environment) : Request → Operation Unit
  | .help text => Operation.put text
  | .version => Operation.put versionText
  | .create arguments => create environment arguments
  | .templates => listTemplates environment
  | .init force => initialise environment force

/-- What a run says about a failure, if it has words for it. -/
def report? : Failure → Option String
  | .settings reports => some ("invalid configuration: " ++ (Failure.settings reports).message)
  | failure@(.creation _) | failure@(.templateMissing _ _) | failure@(.manifest _) | failure@(.copies _)
  | failure@(.text (.trouble _)) => some failure.message
  | _ => none

/-- How a run ends. -/
inductive Outcome where
  | status (code : Nat)
  | misuse (error : UsageError)
  | failure (failure : Failure)
  deriving DecidableEq, Repr, Inhabited

/-- The status with which the program exits, if it comes to that. -/
def Outcome.code? : Outcome → Option Nat
  | status code => some code
  | misuse _ => some 2
  | failure _ => none

/-- Carries out a request, and reports what stops it. -/
def performReporting (environment : Environment) (request : Request) : Operation Nat := do
  try
    perform environment request
    return 0
  catch failure =>
    match report? failure with
    | none => throw failure
    | some text =>
      Operation.say ("[bold red]Error: " ++ Console.escapeMarkup text ++ "[/bold red]")
      return 1

/-- Runs the program on the words of its command line. -/
def run (environment : Environment) (words : List String) (session : Session) : Outcome × Session :=
  match readRequest words with
  | .error error => (.misuse error, session)
  | .ok request =>
    match (performReporting environment request).run session with
    | (.ok code, session) => (.status code, session)
    | (.error failure, session) => (.failure failure, session)

end Scaffold.CommandLine
