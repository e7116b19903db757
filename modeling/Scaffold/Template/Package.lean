import Scaffold.Files.Disk
import Scaffold.Template.Nuxt3
import Scaffold.Template.Vue3

/-! # The packaged templates

The templates are installed under one directory, with a directory for each family.
-/

namespace Scaffold.Template

open Scaffold.Files

/-- The files of each family. -/
def packaged : List (String × List File) := [("vue3", vue3Files), ("nuxt3", nuxt3Files)]

/-- Puts a file on a disk, with the directories above it. -/
def installFile (directory : Path) (disk : Disk) (file : File) : Disk :=
  let path := directory.child file.path
  match disk.makeDirectory path.parent with
  | .error _ => disk
  | .ok disk =>
    match disk.write path file.content with
    | .ok disk => disk
    | .error _ => disk

/-- Puts the packaged templates on a disk. -/
def install (directory : Path) (disk : Disk) : Disk :=
  packaged.foldl (fun disk (name, files) => files.foldl (installFile (directory.child name)) disk) disk

end Scaffold.Template
