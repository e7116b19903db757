import Scaffold.Text.Bytes

/-! # Quoted text

The string literals of JSON. One form leaves characters beyond ASCII as they are, the other writes
them as escapes of UTF-16 units.
-/

namespace Scaffold.Json

open Scaffold.Text

/-- Which characters are written as escapes besides those that have to be. -/
inductive Charset where
  | ascii
  | unicode
  deriving DecidableEq, Repr, Inhabited

/-- The escape of one UTF-16 unit. -/
def unitEscape (unit : Nat) : List Char :=
  ['\\', 'u', hexDigit (unit / 4096 % 16), hexDigit (unit / 256 % 16), hexDigit (unit / 16 % 16),
    hexDigit (unit % 16)]

/-- The escapes of a character: two for one beyond the first plane. -/
def charEscape (c : Char) : List Char :=
  let n := c.toNat
  if n < 0x10000 then unitEscape n
  else unitEscape (0xD800 + (n - 0x10000) / 1024) ++ unitEscape (0xDC00 + (n - 0x10000) % 1024)

/-- A character inside a string literal. -/
def quoteChar (charset : Charset) (c : Char) : List Char :=
  if c = '"' then ['\\', '"']
  else if c = '\\' then ['\\', '\\']
  else if c = '\n' then ['\\', 'n']
  else if c = '\r' then ['\\', 'r']
  else if c = '\t' then ['\\', 't']
  else if c = '\x08' then ['\\', 'b']
  else if c = '\x0c' then ['\\', 'f']
  else if c.toNat < 32 then charEscape c
  else if charset = .ascii && 126 < c.toNat then charEscape c
  else [c]

/-- The string literal of a text. -/
def quote (charset : Charset) (text : List Char) : List Char :=
  '"' :: text.flatMap (quoteChar charset) ++ ['"']

end Scaffold.Json
