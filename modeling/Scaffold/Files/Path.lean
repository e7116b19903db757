/-! # Paths

A path is a list of names. Empty names and single dots are left out of it; double dots stay, for
what they mean depends on the files.
-/

namespace Scaffold.Files

/-- The parts of a text between its separators. -/
def partsBetween (separator : Char) : List Char → List (List Char)
  | [] => [[]]
  | c :: rest =>
    match partsBetween separator rest with
    | [] => [[c]]
    | part :: later => if c = separator then [] :: part :: later else (c :: part) :: later

/-- A path, from the root or from the working directory. -/
structure Path where
  absolute : Bool
  parts : List String
  deriving DecidableEq, Repr, Inhabited

namespace Path

/-- The path that a text names. -/
def ofString (text : String) : Path :=
  ⟨text.toList.head? = some '/',
    ((partsBetween '/' text.toList).map String.ofList).filter fun part => part ≠ "" && part ≠ "."⟩

/-- The text of a path; the empty relative path is a dot. -/
def text (path : Path) : String :=
  if path.absolute then "/" ++ "/".intercalate path.parts
  else if path.parts.isEmpty then "."
  else "/".intercalate path.parts

instance : ToString Path := ⟨text⟩

/-- The path reached from one path by another. -/
def append (base path : Path) : Path :=
  if path.absolute then path else ⟨base.absolute, base.parts ++ path.parts⟩

instance : Append Path := ⟨append⟩

/-- The path of a name in a directory; the name may itself have several parts. -/
def child (base : Path) (name : String) : Path := base ++ ofString name

/-- The last part, or the empty text when there is none. -/
def name (path : Path) : String := path.parts.getLast?.getD ""

def parent (path : Path) : Path := { path with parts := path.parts.dropLast }

/-- Splits a name before its last dot. A dot at either end of the name does not count. -/
def splitName (name : String) : String × String :=
  let chars := name.toList
  let extension := chars.reverse.takeWhile (· ≠ '.')
  let stem := chars.take (chars.length - extension.length - 1)
  if extension.isEmpty || stem.isEmpty || extension.length = chars.length then (name, "")
  else (String.ofList stem, String.ofList ('.' :: extension.reverse))

/-- The ending of the name from its last dot on. -/
def suffix (path : Path) : String := (splitName path.name).2

/-- The path with another ending. -/
def withSuffix (path : Path) (suffix : String) : Path :=
  { path with parts := path.parts.dropLast ++ [(splitName path.name).1 ++ suffix] }

/-- The order of paths: part by part. -/
def before (first second : Path) : Bool :=
  !List.lex second.parts first.parts fun part other => decide (part < other)

end Path

end Scaffold.Files
