import Scaffold.Project.Family
import Scaffold.Project.Naming
import Scaffold.Project.Script
import Scaffold.Project.SourceFile

/-! # Removing features from a project

Every feature that is off is removed by its rule, types first. A failure that concerns one feature
becomes a warning, and the others are removed nevertheless. What a rule did before it failed stays
done, in the manifest too.
-/

namespace Scaffold.Project

open Scaffold.Files

/-- What came of the generation of a project. -/
structure Result where
  target : Path
  template : String
  removed : List String
  converted : List Path
  warnings : List String
  deriving DecidableEq, Repr, Inhabited

namespace Result

def start (target : Path) (template : String) : Result := ⟨target, template, [], [], []⟩

def isOk (result : Result) : Bool := result.warnings.isEmpty

/-- Names with commas between them, or that there are none. -/
def nameList (names : List String) : String := if names.isEmpty then "none" else ", ".intercalate names

/-- The result in a few lines. -/
def summary (result : Result) : String :=
  let converted := if result.converted.isEmpty then [] else
    ["  Converted to JavaScript: " ++ toString result.converted.length ++ " file(s)"]
  "\n".intercalate
    (["Template '" ++ result.template ++ "' -> " ++ result.target.text,
      "  Removed features: " ++ nameList result.removed] ++ converted ++
      result.warnings.map ("  Warning: " ++ ·))

end Result

/-- How far the removal of features has come. -/
structure Progress where
  session : Session
  manifest : Option Manifest
  result : Result
  deriving Inhabited

/-- A step of the removal. Like an operation, it leaves done what it did before a failure. -/
abbrev Processing (α : Type) := ExceptT Failure (StateM Progress) α

namespace Processing

/-- Carries out an operation of the session. -/
def perform {α : Type} (operation : Operation α) : Processing α :=
  fun progress =>
    let (outcome, session) := operation.run progress.session
    (outcome, { progress with session := session })

def changeManifest (change : Manifest → Manifest) : Processing Unit :=
  modify fun progress => { progress with manifest := progress.manifest.map change }

def changeResult (change : Result → Result) : Processing Unit :=
  modify fun progress => { progress with result := change progress.result }

def addWarning (message : String) : Processing Unit :=
  changeResult fun result => { result with warnings := result.warnings ++ [message] }

def addConverted (paths : List Path) : Processing Unit :=
  changeResult fun result => { result with converted := result.converted ++ paths }

/-- Shows and keeps a warning. -/
def warn (message : String) : Processing Unit := do
  perform (Operation.say ("  [yellow]Warning: " ++ message ++ "[/yellow]"))
  addWarning message

/-- Carries out a step for each item. -/
def forEach {α : Type} (step : α → Processing Unit) : List α → Processing Unit
  | [] => return ()
  | item :: later => do
    step item
    forEach step later

end Processing

open Processing

/-- Converts a configuration file; one that cannot be converted is warned about. -/
def convertConfig (path : Path) : Processing Unit := do
  if isConvertible path then
    let outcome ← tryCatch (do return Except.ok (← perform (convertFile path))) fun failure =>
      match failure with
      | .conversion fault => return Except.error fault.message
      | other => throw other
    match outcome with
    | .ok target => addConverted [target]
    | .error message => warn message
  else return ()

/-- The entry of a page, by its name with types and without. -/
def typedEntry : List Char := "/src/main.ts".toList
def plainEntry : List Char := "/src/main.js".toList

/-- Names the entry without types wherever the one with types is named. -/
def renameEntry (page : List Char) : List Char := plainEntry.intercalate (splitAt typedEntry 0 page)

/-- Takes the types out of the manifest: the packages that check them, and the scripts. -/
def Family.untypeManifest (family : Family) (manifest : Manifest) : Manifest :=
  (manifest.removeKeys "devDependencies" family.typeDependencies).2.rewriteScripts untypedScript

/-- Makes sure of the packages that are needed without types too. -/
def Family.retainPackages (family : Family) (manifest : Manifest) : Manifest :=
  family.retainedDependencies.foldl
    (fun manifest package => manifest.ensureDependency package.1 package.2 "devDependencies") manifest

/-- Takes the types out of a project: out of the manifest, the configuration files, the sources, and
the page that names the entry. -/
def Family.stripTypes (family : Family) (target : Path) : Processing Unit := do
  changeManifest family.untypeManifest
  forEach (fun stem => do forEach convertConfig (← perform (resolve target (stem ++ ".*")))) family.configFiles
  let conversion ← perform (convertTree (target.child "src"))
  addConverted conversion.converted
  forEach (fun failure => addWarning failure.2) conversion.failures
  perform (changeText (target.child "index.html") renameEntry)
  changeManifest family.retainPackages

/-- What a rule removes from the manifest. -/
def Rule.pruneManifest (rule : Rule) (manifest : Manifest) : Manifest :=
  let manifest := (manifest.removeKeys "dependencies" rule.dependencies).2
  let manifest := (manifest.removeKeys "devDependencies" rule.devDependencies).2
  (manifest.removeKeys "scripts" rule.scripts).2

/-- Carries out a step on every file that its target matches. -/
def Family.runStep (family : Family) (target : Path) (step : EditStep) : Processing Unit := do
  match family.action? step.action with
  | none => throw (.unknownAction step.action)
  | some action =>
    forEach (fun path => do let _ ← perform (action.run path step.arguments))
      (← perform (resolve target step.target))

/-- Removes everything that a target matches. -/
def removeMatches (root : Path) (target : String) : Processing Unit := do
  forEach (fun path => do let _ ← perform (Operation.removePath path)) (← perform (resolve root target))

/-- Applies a rule: types, manifest, sources, files. -/
def Family.applyRule (family : Family) (target : Path) (rule : Rule) : Processing Unit := do
  if rule.transpile then family.stripTypes target
  changeManifest rule.pruneManifest
  forEach (family.runStep target) rule.edits
  forEach (removeMatches target) rule.paths

/-- Removes a feature, if it has a rule. -/
def Family.removeFeature (family : Family) (target : Path) (name : String) : Processing Unit := do
  match family.rule? name with
  | none => return ()
  | some rule =>
    let outcome ← tryCatch (do family.applyRule target rule; return none) fun failure =>
      if failure.isLocal then return some failure else throw failure
    match outcome with
    | none => changeResult fun result => { result with removed := result.removed ++ [name] }
    | some failure => warn (name ++ ": " ++ failure.message)

/-- Removes the features that are off. -/
def Family.removeFeatures (family : Family) (target : Path) (selection : Selection) : Processing Unit :=
  forEach (family.removeFeature target) (removalOrder family.features selection)

/-- Loads the manifest of the project; one that cannot be loaded is warned about. -/
def loadManifest (target : Path) : Processing Unit := do
  let outcome ← tryCatch (do return Except.ok (← perform (Manifest.inDirectory target))) fun failure =>
    match failure with
    | .manifest fault => return Except.error fault.message
    | other => throw other
  match outcome with
  | .ok manifest => modify fun progress => { progress with manifest := manifest }
  | .error message => warn ("manifest: " ++ message)

/-- Saves the manifest, if there is one. -/
def saveManifest : Processing Unit := do
  match (← get).manifest with
  | none => return ()
  | some manifest =>
    let (_, saved) ← perform (manifest.save false)
    changeManifest fun _ => saved

/-- Runs a removal from its start. -/
def process (steps : Processing Unit) (target : Path) (template : String) (manifest : Option Manifest) :
    Operation (Result × Option Manifest) :=
  fun session =>
    let (outcome, progress) := steps.run ⟨session, manifest, Result.start target template⟩
    (outcome.map fun _ => (progress.result, progress.manifest), progress.session)

/-- Removes the features that are off from a project whose manifest is loaded and saved here. -/
def Family.processProject (family : Family) (target : Path) (selection : Selection) : Operation Result := do
  let (result, _) ← process
    (do loadManifest target; family.removeFeatures target selection; saveManifest) target family.name none
  return result

/-- Removes the features that are off from a project whose manifest is given, and yields it unsaved. -/
def Family.processLoaded (family : Family) (target : Path) (selection : Selection) (manifest : Manifest) :
    Operation (Result × Option Manifest) :=
  process (family.removeFeatures target selection) target family.name (some manifest)

end Scaffold.Project
