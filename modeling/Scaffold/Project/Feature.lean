import Scaffold.Files.Path
import Scaffold.Text.Blank

/-! # Features

A template family offers features. Each has a rule that says what has to go from a project when the
feature is switched off: keys of the manifest, files, and parts of source files.
-/

namespace Scaffold.Project

open Scaffold.Text Scaffold.Files

/-- Something that a user can switch on or off. -/
structure Feature where
  name : String
  /-- How a prompt calls it. -/
  label : String
  isDefault : Bool
  deriving DecidableEq, Repr, Inhabited

/-- What a step can do to a source file. -/
inductive Action where
  | removeImport
  | removeCall
  | removePlugin
  | removeArrayEntry
  | removeNamedImports
  | disableTypeCheck
  deriving DecidableEq, Repr, Inhabited

/-- The name by which a step asks for an action. -/
def Action.name : Action → String
  | removeImport => "remove_import"
  | removeCall => "remove_function_call"
  | removePlugin => "remove_vite_plugin"
  | removeArrayEntry => "remove_array_entry"
  | removeNamedImports => "remove_imports_by_names"
  | disableTypeCheck => "disable_type_check"

/-- The actions that every family knows. -/
def commonActions : List Action :=
  [.removeImport, .removeCall, .removePlugin, .removeArrayEntry, .removeNamedImports]

/-- An edit of the files that a target matches. The action is given by name, and a family that does
not know the name fails when it comes to the step. -/
structure EditStep where
  action : String
  target : String
  arguments : List String
  deriving DecidableEq, Repr, Inhabited

/-- What is removed with a feature. -/
structure Rule where
  dependencies : List String
  devDependencies : List String
  scripts : List String
  paths : List String
  edits : List EditStep
  /-- Whether the project loses its types. -/
  transpile : Bool
  deriving DecidableEq, Repr, Inhabited

/-- A rule that removes nothing. -/
def Rule.none : Rule := ⟨[], [], [], [], [], false⟩

/-- Which features are on. -/
abbrev Selection := List (String × Bool)

/-- Whether a feature is on; one that is not mentioned is off. -/
def Selection.isOn (selection : Selection) (name : String) : Bool := (selection.lookup name).getD false

/-- Gives a name a value, in its place when it is there, and at the end otherwise. -/
def Selection.set (selection : Selection) (name : String) (on : Bool) : Selection :=
  if selection.any (·.1 = name) then selection.map fun entry => if entry.1 = name then (name, on) else entry
  else selection ++ [(name, on)]

/-- The default of every feature. -/
def Selection.default (features : List Feature) : Selection :=
  features.foldl (fun selection feature => Selection.set selection feature.name feature.isDefault) []

/-- The chosen features on and all others off. Chosen names that are no features come after, in the
order of their characters. -/
def Selection.ofChosen (features : List Feature) (chosen : List String) : Selection :=
  let known : Selection := features.foldl
    (fun selection feature => Selection.set selection feature.name (feature.name ∈ chosen)) []
  let unknown := chosen.eraseDups.filter fun name => !known.any (·.1 = name)
  known ++ (unknown.mergeSort fun first second => decide (first ≤ second)).map fun name => (name, true)

/-- The names in a list with commas; parts that are blank are no names. -/
def parseFeatureList (text : String) : List String :=
  (((partsBetween ',' text.toList).map strip).filter (· ≠ [])).map String.ofList

/-- The feature of having types. -/
def typesFeature : String := "typescript"

/-- The names of features in the order in which they are removed: types first. -/
def removalNames (features : List Feature) : List String :=
  let names := features.map Feature.name
  if typesFeature ∈ names then typesFeature :: names.erase typesFeature else names

/-- The features that are off, in the order in which they are removed. -/
def removalOrder (features : List Feature) (selection : Selection) : List String :=
  (removalNames features).filter fun name => !selection.isOn name

/-- The endings that a target ending in `.*` stands for. -/
def scriptSuffixes : List String := [".ts", ".js", ".mts", ".mjs", ".cts", ".cjs"]

/-- The paths that a target may stand for, whether or not something is there. -/
def candidates (root : Path) (target : String) : List Path :=
  let chars := target.toList
  if ['*', '.'].isPrefixOf chars.reverse then
    scriptSuffixes.map fun suffix => root.child (String.ofList (chars.take (chars.length - 2)) ++ suffix)
  else [root.child target]

end Scaffold.Project
