import Scaffold.Text.Pattern
import Scaffold.Text.Word

/-! # Scripts without types

A script of a manifest that runs in a project without types checks no types and names files by their
new endings.
-/

namespace Scaffold.Project

open Scaffold.Text Pattern

/-- The parts of a text between the places where a mark occurs; `skip` characters still belong to a
mark. -/
def splitAt (mark : List Char) : Nat → List Char → List (List Char)
  | _, [] => [[]]
  | skip + 1, _ :: rest => splitAt mark skip rest
  | 0, c :: rest =>
    if mark ≠ [] && mark.isPrefixOf (c :: rest) then [] :: splitAt mark (mark.length - 1) rest
    else match splitAt mark 0 rest with
      | [] => [[c]]
      | part :: later => (c :: part) :: later

/-- Whether a text occurs in another. -/
def mentions (text : List Char) : List Char → Bool
  | [] => text.isEmpty
  | c :: rest => text.isPrefixOf (c :: rest) || mentions text rest

/-- The ending `.ts`, not the beginning of a longer one. -/
def typedEnding : Pattern Char := seq (Pattern.literal ".ts".toList) (notBefore (one isWord))

/-- The parts of a command between `&&`, without the blanks around them. -/
def segments (command : List Char) : List (List Char) := (splitAt "&&".toList 0 command).map strip

/-- The parts of a command that do not check types. -/
def keptSegments (command : List Char) : List (List Char) :=
  (segments command).filter fun part => !mentions "vue-tsc".toList part

/-- A command with the new endings of files. -/
def renameEndings (command : List Char) : List Char := typedEnding.replaceAll (fun _ => ".js".toList) command

/-- What becomes of a script, or nothing when it did nothing else than check types. -/
def untypedScript (name command : String) : Option String :=
  if name = "type" || name = "type-check" then none
  else if name = "build" then
    match keptSegments command.toList with
    | [] => none
    | kept => some (String.ofList (renameEndings (" && ".toList.intercalate kept)))
  else some (String.ofList (renameEndings command.toList))

end Scaffold.Project
