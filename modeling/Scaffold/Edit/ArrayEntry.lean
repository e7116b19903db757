import Scaffold.Edit.Cleanup
import Scaffold.Syntax.Outline

/-! # Removing entries of arrays

Calls of a plugin, and string literals, are removed from array literals, each with one comma. In a
file that does not fit the grammar a pattern finds them, whatever they stand in.
-/

namespace Scaffold.Edit

open Scaffold.Text Scaffold.Syntax Pattern

/-- Which entries are meant. -/
inductive EntryTarget where
  | plugin (name : String)
  | literal (value : String)
  deriving DecidableEq, Repr, Inhabited

/-- Whether an element is an entry that is meant. -/
def EntryTarget.accepts (source : Bytes) (target : EntryTarget) (element : Tree) : Bool :=
  match target with
  | plugin name =>
    element.kind = .callExpression &&
      (element.child? .function).any fun function => function.kind = .identifier && function.text source = name
  | literal value => element.stringValue? source = some value

/-- A byte that a name may hold. -/
def isNameByte (b : UInt8) : Bool := isWordByte b || b = 36

/-- Any byte but a parenthesis. -/
def isPlainByte (b : UInt8) : Bool := b ≠ 40 && b ≠ 41

/-- Parentheses with at most one level of parentheses in them. -/
def argumentsPattern : Pattern UInt8 :=
  seqs [byte 40, star (alt (one isPlainByte) (seqs [byte 40, many isPlainByte, byte 41])), byte 41]

/-- What goes with an entry: a comma, the blanks around it, and a line break. -/
def entryEnd : Pattern UInt8 :=
  seqs [many isIndent, opt (byte 44), many isIndent, opt (seq (opt (byte 13)) (byte lineFeed))]

def isQuote (b : UInt8) : Bool := b = 34 || b = 39

/-- The pattern that finds an entry in a file that does not fit the grammar. -/
def EntryTarget.pattern : EntryTarget → Pattern UInt8
  | plugin name => seqs [many isIndent, notAfter fun b => isNameByte b || b = 46,
      Pattern.literal (encode name), many isBlankByte, argumentsPattern, entryEnd]
  | literal value => seqs [many isIndent, one isQuote, Pattern.literal (encode value), one isQuote, entryEnd]

/-- The edits that remove the entries that are meant. -/
def entryEdits (source : Bytes) (target : EntryTarget) (file : Tree) : List Text.Edit :=
  ((elements file).filter fun element => target.accepts source element.tree).map fun element =>
    let (start, stop) := elementRange source element.siblings element.tree
    .removal start stop

/-- A file that fits the grammar without the entries that are meant. -/
def removeEntries (source : Bytes) (target : EntryTarget) (file : Tree) : Bytes :=
  let edits := entryEdits source target file
  if edits.isEmpty then source else squeezeLines (applyEdits source edits)

/-- A file that does not fit the grammar without what the pattern finds. -/
def removeByPattern (source : Bytes) (target : EntryTarget) : Bytes :=
  let content := target.pattern.removeAll source
  if content = source then source else cleanUp content

end Scaffold.Edit
