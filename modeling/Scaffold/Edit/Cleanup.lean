import Scaffold.Text.Edit
import Scaffold.Text.Pattern
import Scaffold.Text.Word

/-! # Cleaning up after a removal

A removal can leave runs of blank lines behind, and one that goes by patterns also commas without an
element. Three passes take these away: several commas become one, a comma behind an opening bracket
goes, and of several blank lines one stays.
-/

namespace Scaffold.Edit

open Scaffold.Text Pattern

def byte (b : UInt8) : Pattern UInt8 := one (· = b)

def isComma (b : UInt8) : Bool := b = 44

/-- A blank line and at least one more after it. -/
def blankLines : Pattern UInt8 :=
  seqs [byte lineFeed, many isIndent, byte lineFeed, many isIndent, byte lineFeed,
    star (seq (many isIndent) (byte lineFeed))]

/-- A comma and at least one more with white space only between them. -/
def orphanCommas : Pattern UInt8 :=
  let further := seq (many isBlankByte) (byte 44)
  seqs [byte 44, further, star further]

/-- A comma behind an opening bracket, with white space only between them. -/
def leadingComma : Pattern UInt8 := seqs [byte 91, many isBlankByte, byte 44]

/-- Leaves one blank line of each run of blank lines. -/
def squeezeLines (source : Bytes) : Bytes :=
  blankLines.replaceAll (fun _ => [lineFeed, lineFeed]) source

/-- Leaves one comma of each run of commas. -/
def squeezeCommas (source : Bytes) : Bytes := orphanCommas.replaceAll (fun _ => [44]) source

/-- Removes the commas in front of a first element. -/
def dropLeadingCommas (source : Bytes) : Bytes := leadingComma.replaceAll List.dropLast source

/-- The three passes. -/
def cleanUp (source : Bytes) : Bytes := squeezeLines (dropLeadingCommas (squeezeCommas source))

end Scaffold.Edit
