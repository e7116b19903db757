import Scaffold.Project.Failure
import Scaffold.Project.Feature

/-! # Settings

Settings come as members of JSON objects. Each reader yields the value of a setting or what is wrong
with it; an object is read whole, and all of its faults are reported in the order of its settings.
-/

namespace Scaffold.Project

open Scaffold.Files Scaffold.Json Scaffold.Number

/-- The words for truth and falsehood. -/
def trueWords : List String := ["1", "on", "t", "true", "y", "yes"]
def falseWords : List String := ["0", "off", "f", "false", "n", "no"]

/-- The truth value of an integer. -/
def booleanOfInt (value : Int) : Except SettingFault Bool :=
  if value = 0 then .ok false else if value = 1 then .ok true else .error .unknownBoolean

/-- A truth value: as such, as a word in any case, or as zero or one. -/
def readBoolean : Value → Except SettingFault Bool
  | .boolean value => .ok value
  | .integer value =>
    if -9223372036854775808 ≤ value && value < 9223372036854775808 then booleanOfInt value else .error .notBoolean
  | .float value =>
    match value.toInt? with
    | some value => booleanOfInt value
    | none => .error .notBoolean
  | .text word =>
    let lower := String.ofList (word.toList.map Char.toLower)
    if lower ∈ trueWords then .ok true
    else if lower ∈ falseWords then .ok false
    else .error .unknownBoolean
  | _ => .error .notBoolean

def readText : Value → Except SettingFault String
  | .text value => .ok value
  | _ => .error .notText

def readPath : Value → Except SettingFault Path
  | .text value => .ok (.ofString value)
  | _ => .error .notPath

/-- A setting of an object: its value, or the default when it is not there. -/
def setting {α : Type} (members : Members) (key : String) (read : Value → Except SettingFault α)
    (default : Except SettingFault α) : Except SettingFault α :=
  match members.get? key with
  | some value => read value
  | none => default

/-- What is wrong with a setting, if anything. -/
def report {α : Type} (key : String) : Except SettingFault α → List SettingReport
  | .ok _ => []
  | .error fault => [⟨fault, some key⟩]

/-- A feature that is described by an object. -/
def readFeature (members : Members) : Except (List SettingReport) Feature :=
  let name := setting members "name" readText (.error .missing)
  let label := setting members "display_message" readText (.ok "")
  let isDefault := setting members "default_enabled" readBoolean (.ok true)
  match name, label, isDefault with
  | .ok name, .ok label, .ok isDefault => .ok ⟨name, label, isDefault⟩
  | _, _, _ =>
    .error (report "name" name ++ report "display_message" label ++ report "default_enabled" isDefault)

end Scaffold.Project
