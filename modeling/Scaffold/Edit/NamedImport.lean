import Scaffold.Edit.ArrayEntry

/-! # Removing imports by the names they bring in

Patterns find the imports of a name in a text of any kind: as the default, among the names in
braces, or as the module that is loaded. The whole import goes, with the other names that it has.
-/

namespace Scaffold.Edit

open Scaffold.Text Pattern

def white : Pattern UInt8 := many isBlankByte
def whites : Pattern UInt8 := some_ isBlankByte

def keyword (text : String) : Pattern UInt8 := Pattern.literal (encode text)

/-- A module between quotes. -/
def quotedModule : Pattern UInt8 := seqs [one isQuote, some_ fun b => !isQuote b, one isQuote]

/-- What goes with a statement: a semicolon and the rest of its line. -/
def statementEnd : Pattern UInt8 :=
  seqs [white, opt (byte 59), many isIndent, opt (byte 13), opt (byte lineFeed)]

def isNotBrace (b : UInt8) : Bool := b ≠ 125

/-- The import of a name as the default. -/
def defaultImport (name : Bytes) : Pattern UInt8 :=
  seqs [keyword "import", whites, Pattern.literal name, whites, keyword "from", whites, quotedModule,
    statementEnd]

/-- The import of a name among others in braces. -/
def bracedImport (name : Bytes) : Pattern UInt8 :=
  seqs [keyword "import", white, byte 123, many isNotBrace, notAfter isNameByte, Pattern.literal name,
    notBefore (one isNameByte), many isNotBrace, byte 125, white, keyword "from", whites, quotedModule,
    statementEnd]

/-- The import of a module for its effects. -/
def effectImport (name : Bytes) : Pattern UInt8 :=
  seqs [keyword "import", whites, one isQuote, Pattern.literal name, one isQuote, statementEnd]

/-- A text without the imports of a name. -/
def removeNamedImport (source : Bytes) (name : String) : Bytes :=
  let name := encode name
  (effectImport name).removeAll ((bracedImport name).removeAll ((defaultImport name).removeAll source))

/-- A text without the imports of some names. -/
def removeNamedImports (source : Bytes) (names : List String) : Bytes :=
  let content := names.foldl removeNamedImport source
  if content = source then source else squeezeLines content

end Scaffold.Edit
