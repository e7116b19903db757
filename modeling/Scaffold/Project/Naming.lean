import Scaffold.Project.Manifest
import Scaffold.Text.Pattern

/-! # Naming a project

A project bears its name in the manifest, in the title of its page, and in the heading of its
description.
-/

namespace Scaffold.Project

open Scaffold.Text Scaffold.Files Pattern

/-- A character that the name of a project may hold. -/
def isNameChar (c : Char) : Bool := c.isAlphanum || c = '_' || c = '-'

/-- Whether a text can name a project; a line feed at its end does no harm. -/
def isProjectName (name : String) : Bool :=
  let chars := name.toList
  let body := if chars.getLast? = some '\n' then chars.dropLast else chars
  !body.isEmpty && body.all isNameChar

/-- The title of a page. -/
def titlePattern : Pattern Char :=
  seqs [Pattern.literal "<title>".toList, few fun _ => true, Pattern.literal "</title>".toList]

/-- Gives a page a title in place of the first one that it has. -/
def stampTitle (name : String) (page : List Char) : List Char :=
  titlePattern.replaceFirst (fun _ => ("<title>" ++ name ++ "</title>").toList) page

/-- Whether a line is a heading of the first level. -/
def isHeading : List Char → Bool
  | '#' :: c :: _ => c = ' ' || c = '\t'
  | _ => false

/-- Gives a text a heading in place of the first one that it has. `atStart` says that a line begins
here. -/
def stampHeadingFrom (name : List Char) (atStart : Bool) : List Char → List Char
  | [] => []
  | c :: rest =>
    if atStart && isHeading (c :: rest) then
      '#' :: ' ' :: name ++ rest.dropWhile (· ≠ '\n')
    else c :: stampHeadingFrom name (c = '\n') rest

def stampHeading (name : String) (text : List Char) : List Char := stampHeadingFrom name.toList true text

/-- Changes the text of a file, if there is a file and the text differs. -/
def changeText (path : Path) (change : List Char → List Char) : Operation Unit := do
  if ← Operation.ask fun disk => disk.isFile path then
    let text ← Operation.readText path
    let changed := change text
    if changed = text then return ()
    else Operation.writeText path changed
  else return ()

/-- Gives a project its name, and yields the manifest with it. -/
def applyName (target : Path) (name : String) (manifest : Option Manifest) : Operation (Option Manifest) := do
  changeText (target.child "index.html") (stampTitle name)
  changeText (target.child "README.md") (stampHeading name)
  return manifest.map fun manifest => manifest.setName name

end Scaffold.Project
