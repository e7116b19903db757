import Scaffold.Json.Value

/-! # Reading JSON

A reader that keeps the order of keys and says of a text that it does not accept what it expected
and where. Of two members with one key the later value counts, in the place of the earlier. Besides
the numbers of the format it accepts `NaN` and the two infinities.
-/

namespace Scaffold.Json

open Scaffold.Number

/-- What is wrong with a text. -/
inductive Reason where
  | byteOrderMark
  | value | propertyName | colon | comma | extraData
  | unterminated | controlCharacter | escape | unicodeEscape
  deriving DecidableEq, Repr, Inhabited

/-- What is wrong with a text, and before which of its characters. -/
structure Fault where
  reason : Reason
  position : Nat
  deriving DecidableEq, Repr, Inhabited

def Reason.message : Reason → String
  | .byteOrderMark => "Unexpected UTF-8 BOM (decode using utf-8-sig)"
  | .value => "Expecting value"
  | .propertyName => "Expecting property name enclosed in double quotes"
  | .colon => "Expecting ':' delimiter"
  | .comma => "Expecting ',' delimiter"
  | .extraData => "Extra data"
  | .unterminated => "Unterminated string starting at"
  | .controlCharacter => "Invalid control character at"
  | .escape => "Invalid \\escape"
  | .unicodeEscape => "Invalid \\uXXXX escape"

/-- The message of a fault, with the line, the column and the position. -/
def Fault.message (text : List Char) (fault : Fault) : String :=
  let before := text.take fault.position
  let line := before.count '\n' + 1
  let column := (before.reverse.takeWhile (· ≠ '\n')).length + 1
  s!"{fault.reason.message}: line {line} column {column} (char {fault.position})"

/-- A place in a text: how many characters are before it and which follow. -/
structure Place where
  position : Nat
  rest : List Char
  deriving Inhabited

abbrev Read (α : Type) := Except Fault (α × Place)

def isWhite (c : Char) : Bool := c = ' ' || c = '\t' || c = '\n' || c = '\r'

def Place.advance (place : Place) (count : Nat) : Place :=
  ⟨place.position + count, place.rest.drop count⟩

/-- Moves past white space. -/
def Place.skipWhite (place : Place) : Place :=
  place.advance (place.rest.takeWhile isWhite).length

def fail {α : Type} (reason : Reason) (position : Nat) : Read α := .error ⟨reason, position⟩

def hexValue? (c : Char) : Option Nat :=
  if '0' ≤ c && c ≤ '9' then some (c.toNat - 48)
  else if 'a' ≤ c && c ≤ 'f' then some (c.toNat - 87)
  else if 'A' ≤ c && c ≤ 'F' then some (c.toNat - 55)
  else none

/-- The value of four digits of base sixteen. -/
def hexUnit? (digits : List Char) : Option Nat :=
  digits.foldl (fun value c => match value, hexValue? c with
    | some value, some digit => some (value * 16 + digit)
    | _, _ => none) (some 0)

/-- The unit of an escape `\uXXXX` at the front of a text whose backslash is at `position`. The
quote that ends the literal has to follow somewhere, so the text may not end with the digits. -/
def readUnit (position : Nat) (afterMark : List Char) : Except Fault Nat :=
  if afterMark.length ≤ 4 then .error ⟨.unicodeEscape, position + 1⟩
  else match hexUnit? (afterMark.take 4) with
    | some unit => .ok unit
    | none => .error ⟨.unicodeEscape, position + 1⟩

/-- The character of an escape after its backslash, and the length of the whole escape. -/
def readEscape (position : Nat) (start : Nat) : List Char → Except Fault (Char × Nat)
  | [] => .error ⟨.unterminated, start⟩
  | 'u' :: digits =>
    match readUnit position digits with
    | .error fault => .error fault
    | .ok unit =>
      let single := (if 0xD800 ≤ unit && unit < 0xE000 then '\uFFFD' else Char.ofNat unit, 6)
      match digits.drop 4 with
      | '\\' :: 'u' :: others =>
        if 0xD800 ≤ unit && unit < 0xDC00 && 4 < others.length then
          match hexUnit? (others.take 4) with
          | none => .error ⟨.unicodeEscape, position + 7⟩
          | some low =>
            if 0xDC00 ≤ low && low < 0xE000 then
              .ok (Char.ofNat (0x10000 + (unit - 0xD800) * 1024 + (low - 0xDC00)), 12)
            else .ok single
        else .ok single
      | _ => .ok single
  | c :: _ =>
    if c = '"' || c = '\\' || c = '/' then .ok (c, 2)
    else if c = 'b' then .ok ('\x08', 2)
    else if c = 'f' then .ok ('\x0c', 2)
    else if c = 'n' then .ok ('\n', 2)
    else if c = 'r' then .ok ('\r', 2)
    else if c = 't' then .ok ('\t', 2)
    else .error ⟨.escape, position⟩

/-- Reads the rest of a string literal that began at `start`; `skip` characters still belong to an
escape. -/
def readText (start : Nat) (position : Nat) : Nat → List Char → Read (List Char)
  | _, [] => fail .unterminated start
  | skip + 1, _ :: rest => readText start (position + 1) skip rest
  | 0, c :: rest =>
    if c = '"' then .ok ([], ⟨position + 1, rest⟩)
    else if c = '\\' then
      match readEscape position start rest with
      | .error fault => .error fault
      | .ok (meant, length) =>
        match readText start (position + 1) (length - 1) rest with
        | .error fault => .error fault
        | .ok (text, next) => .ok (meant :: text, next)
    else if c.toNat < 32 then fail .controlCharacter position
    else match readText start (position + 1) 0 rest with
      | .error fault => .error fault
      | .ok (text, next) => .ok (c :: text, next)

/-- The number with the given decimal digits. -/
def decimalValue (digits : List Char) : Nat :=
  digits.foldl (fun value c => value * 10 + (c.toNat - 48)) 0

/-- The exponent at the front of a text, if there is a whole one: its value and length. -/
def readExponent : List Char → Option (Int × Nat)
  | mark :: rest =>
    if mark = 'e' || mark = 'E' then
      let (sign, signLength) : Int × Nat := match rest with
        | '-' :: _ => (-1, 1)
        | '+' :: _ => (1, 1)
        | _ => (1, 0)
      let digits := (rest.drop signLength).takeWhile Char.isDigit
      if digits.isEmpty then none
      else some (sign * (decimalValue digits : Int), 1 + signLength + digits.length)
    else none
  | [] => none

/-- The digits behind a point at the front of a text. -/
def fractionDigits : List Char → List Char
  | '.' :: rest => rest.takeWhile Char.isDigit
  | _ => []

/-- Reads a number. -/
def readNumber (place : Place) : Read Value :=
  let negative := place.rest.head? = some '-'
  let signLength := if negative then 1 else 0
  let unsigned := place.rest.drop signLength
  let whole := if unsigned.head? = some '0' then ['0'] else unsigned.takeWhile Char.isDigit
  if whole.isEmpty then fail .value place.position
  else
    let afterWhole := unsigned.drop whole.length
    let fraction := fractionDigits afterWhole
    let fractionLength := if fraction.isEmpty then 0 else fraction.length + 1
    let exponent := readExponent (afterWhole.drop fractionLength)
    let exponentLength := (exponent.map (·.2)).getD 0
    let next := place.advance (signLength + whole.length + fractionLength + exponentLength)
    if fraction.isEmpty && exponent.isNone then
      let value : Int := decimalValue whole
      .ok (.integer (if negative then -value else value), next)
    else
      let scale := (exponent.map (·.1)).getD 0 - (fraction.length : Int)
      .ok (.float (Binary64.ofDecimal negative (decimalValue (whole ++ fraction)) scale), next)

/-- The words that stand for values. -/
def wordValues : List (String × Value) :=
  [("null", .null), ("true", .boolean true), ("false", .boolean false), ("NaN", .float .notANumber),
    ("Infinity", .float (.infinite false)), ("-Infinity", .float (.infinite true))]

/-- Reads a value that is neither a text, an array nor an object. -/
def readPlain (place : Place) : Read Value :=
  match wordValues.find? fun word => word.1.toList.isPrefixOf place.rest with
  | some (word, value) => .ok (value, place.advance word.length)
  | none => readNumber place

mutual

/-- Reads a value; the fuel bounds the number of values one after or inside the other. -/
def readValue : Nat → Place → Read Value
  | 0, place => fail .value place.position
  | fuel + 1, place =>
    match place.rest with
    | '"' :: rest =>
      match readText place.position (place.position + 1) 0 rest with
      | .error fault => .error fault
      | .ok (text, next) => .ok (.text (String.ofList text), next)
    | '\x7b' :: rest =>
      let inner := (Place.mk (place.position + 1) rest).skipWhite
      if inner.rest.head? = some '\x7d' then .ok (.object [], inner.advance 1)
      else match readMembers fuel [] inner with
        | .error fault => .error fault
        | .ok (members, next) => .ok (.object members, next)
    | '[' :: rest =>
      let inner := (Place.mk (place.position + 1) rest).skipWhite
      if inner.rest.head? = some ']' then .ok (.array [], inner.advance 1)
      else match readItems fuel inner with
        | .error fault => .error fault
        | .ok (items, next) => .ok (.array items, next)
    | [] => fail .value place.position
    | _ => readPlain place

/-- Reads the items of an array up to its closing bracket. -/
def readItems : Nat → Place → Read (List Value)
  | 0, place => fail .value place.position
  | fuel + 1, place =>
    match readValue fuel place with
    | .error fault => .error fault
    | .ok (item, next) =>
      let next := next.skipWhite
      match next.rest with
      | ']' :: _ => .ok ([item], next.advance 1)
      | ',' :: _ =>
        match readItems fuel (next.advance 1).skipWhite with
        | .error fault => .error fault
        | .ok (items, last) => .ok (item :: items, last)
      | _ => fail .comma next.position

/-- Reads the members of an object up to its closing brace; `before` holds those already read. -/
def readMembers : Nat → Members → Place → Read Members
  | 0, _, place => fail .value place.position
  | fuel + 1, before, place =>
    match place.rest with
    | '"' :: rest =>
      match readText place.position (place.position + 1) 0 rest with
      | .error fault => .error fault
      | .ok (key, next) =>
        let next := next.skipWhite
        if next.rest.head? = some ':' then
          match readValue fuel (next.advance 1).skipWhite with
          | .error fault => .error fault
          | .ok (value, next) =>
            let members := before.set (String.ofList key) value
            let next := next.skipWhite
            match next.rest with
            | '\x7d' :: _ => .ok (members, next.advance 1)
            | ',' :: _ => readMembers fuel members (next.advance 1).skipWhite
            | _ => fail .comma next.position
        else fail .colon next.position
    | _ => fail .propertyName place.position

end

/-- Reads a document: one value with white space around it. -/
def parse (text : List Char) : Except Fault Value :=
  if text.head? = some '\uFEFF' then .error ⟨.byteOrderMark, 0⟩
  else match readValue (2 * text.length + 2) (Place.mk 0 text).skipWhite with
    | .error fault => .error fault
    | .ok (value, next) =>
      let next := next.skipWhite
      if next.rest.isEmpty then .ok value else .error ⟨.extraData, next.position⟩

end Scaffold.Json
