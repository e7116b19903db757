import Scaffold.Text.Bytes

/-! # Files of templates -/

namespace Scaffold.Template

/-- A text file: its path from the root of the template, and its lines, each of which a line feed
ends. -/
structure File where
  path : String
  lines : List String
  deriving DecidableEq, Repr, Inhabited

/-- The bytes of a file. -/
def File.content (file : File) : Text.Bytes := file.lines.flatMap fun line => Text.encode line ++ [10]

end Scaffold.Template
