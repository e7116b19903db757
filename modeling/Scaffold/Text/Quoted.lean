import Scaffold.Text.Bytes
import Scaffold.Text.Shown

/-! # Quoted names in messages

A name in a message stands between single quotes, or between double quotes when it holds a single
one and no double one. What cannot be shown is written as an escape.
-/

namespace Scaffold.Text

/-- The lowest `count` digits of a number in base sixteen. -/
def hexDigits : Nat → Nat → List Char
  | 0, _ => []
  | count + 1, n => hexDigits count (n / 16) ++ [hexDigit (n % 16)]

/-- A character between two marks. -/
def quotedChar (mark c : Char) : List Char :=
  if c = mark || c = '\\' then ['\\', c]
  else if c = '\n' then ['\\', 'n']
  else if c = '\r' then ['\\', 'r']
  else if c = '\t' then ['\\', 't']
  else if isShown c then [c]
  else if c.toNat < 0x100 then '\\' :: 'x' :: hexDigits 2 c.toNat
  else if c.toNat < 0x10000 then '\\' :: 'u' :: hexDigits 4 c.toNat
  else '\\' :: 'U' :: hexDigits 8 c.toNat

/-- A name between quotes. -/
def quoted (name : String) : String :=
  let chars := name.toList
  let mark := if '\'' ∈ chars && '"' ∉ chars then '"' else '\''
  String.ofList (mark :: chars.flatMap (quotedChar mark) ++ [mark])

end Scaffold.Text
