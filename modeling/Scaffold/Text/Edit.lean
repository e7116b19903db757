import Scaffold.Text.Bytes
import Scaffold.Text.Blank

/-! # Edits of byte strings

An edit replaces a range of bytes. A set of edits is applied from left to right; one that begins
inside a range already replaced is dropped. The other functions find ranges: the whole lines that
something owns, and the blanks that go with it.
-/

namespace Scaffold.Text

/-- The replacement of the bytes from `start` up to `stop`. -/
structure Edit where
  start : Nat
  stop : Nat
  replacement : Bytes
  deriving DecidableEq, Repr, Inhabited

/-- The edit that removes a range. -/
def Edit.removal (start stop : Nat) : Edit := ⟨start, stop, []⟩

/-- The order in which edits are applied: by their start, of two with one start the longer first. -/
def Edit.before (first second : Edit) : Bool :=
  first.start < second.start || (first.start = second.start && second.stop ≤ first.stop)

/-- Applies edits in the given order from `cursor` on, dropping those that begin before it. -/
def applyOrdered (source : Bytes) : Nat → List Edit → Bytes
  | cursor, [] => source.drop cursor
  | cursor, edit :: later =>
    if edit.start < cursor then applyOrdered source cursor later
    else slice source cursor edit.start ++ edit.replacement ++ applyOrdered source edit.stop later

/-- Applies edits, which may come in any order. -/
def applyEdits (source : Bytes) (edits : List Edit) : Bytes :=
  applyOrdered source 0 (edits.mergeSort Edit.before)

def lineFeed : UInt8 := 10

/-- The start of the line that an offset is on. -/
def lineStart (source : Bytes) (offset : Nat) : Nat :=
  let before := source.take offset
  before.length - (before.reverse.takeWhile (· ≠ lineFeed)).length

/-- The offset of the first line feed from `offset` on, or else the end. -/
def lineStop (source : Bytes) (offset : Nat) : Nat :=
  if source.length ≤ offset then source.length
  else offset + ((source.drop offset).takeWhile (· ≠ lineFeed)).length

/-- The offset of the first byte from `offset` on that is neither a space nor a tab. -/
def skipSpaces (source : Bytes) (offset : Nat) : Nat :=
  offset + ((source.drop offset).takeWhile isIndent).length

/-- The blanks and tabs that begin the line of an offset, up to it. -/
def indentationAt (source : Bytes) (offset : Nat) : Bytes :=
  (slice source (lineStart source offset) offset).takeWhile isIndent

/-- Widens a range to the whole lines that it owns. Blanks in front of it on its line are taken in,
and so are a semicolon after it and, when nothing else follows on its last line, the rest of that. -/
def lineRange (source : Bytes) (start stop : Nat) : Nat × Nat :=
  let first := lineStart source start
  let start := if (slice source first start).all isIndent then first else start
  let stop := if slice source stop (stop + 1) = [59] then stop + 1 else stop
  let probe := skipSpaces source stop
  let stop :=
    if slice source probe (probe + 2) = [13, 10] then probe + 2
    else if slice source probe (probe + 1) = [lineFeed] then probe + 1
    else if probe = source.length then probe
    else stop
  (start, stop)

/-- Whether a range holds white space only. -/
def isBlankRange (source : Bytes) (start stop : Nat) : Bool :=
  (slice source start stop).all isBlankByte

/-- Widens a range to its line when nothing but white space shares it. -/
def ownedLine (source : Bytes) (start stop : Nat) : Nat × Nat :=
  let first := lineStart source start
  let last := lineStop source stop
  if isBlankRange source first start && isBlankRange source stop last then
    (first, min (last + 1) source.length)
  else (start, stop)

/-- Whether the line before the one that begins at `start` is blank. -/
def followsBlankLine (source : Bytes) (start : Nat) : Bool :=
  start ≠ 0 && slice source (start - 1) start = [lineFeed] &&
    isBlankRange source (lineStart source (start - 1)) start

/-- Moves past the blank lines that begin a text, and counts their bytes. `pending` bytes of a line
have been seen, all of them white space. -/
def blankLinesLength : Nat → Bytes → Nat
  | _, [] => 0
  | pending, b :: rest =>
    if b = lineFeed then pending + 1 + blankLinesLength 0 rest
    else if isBlankByte b then blankLinesLength (pending + 1) rest
    else 0

/-- Moves from the start of a line past the blank lines there. -/
def skipBlankLines (source : Bytes) (position : Nat) : Nat :=
  position + blankLinesLength 0 (source.drop position)

end Scaffold.Text
