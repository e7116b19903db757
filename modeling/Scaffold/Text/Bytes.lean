/-! # Byte strings and UTF-8

Source files are edited as bytes, so that every offset counts bytes and nothing outside an edited
range can change. This module holds the byte string, its encoding from text, and the strict decoder
together with the three faults that it distinguishes and the range of bytes that each one blames.
-/

namespace Scaffold.Text

/-- A byte string; offsets into it count bytes. -/
abbrev Bytes := List UInt8

/-- Why a byte sequence is not UTF-8. -/
inductive Utf8Reason where
  | invalidStart
  | invalidContinuation
  | unexpectedEnd
  deriving DecidableEq, Repr, Inhabited

/-- The first fault of a byte string: the bytes from `start` up to `stop` do not form a character. -/
structure Utf8Fault where
  first : UInt8
  start : Nat
  stop : Nat
  reason : Utf8Reason
  deriving DecidableEq, Repr, Inhabited

/-- The UTF-8 form of one character. -/
def encodeChar (c : Char) : Bytes :=
  let n := c.toNat
  if n < 0x80 then [n.toUInt8]
  else if n < 0x800 then [(0xC0 + n / 64).toUInt8, (0x80 + n % 64).toUInt8]
  else if n < 0x10000 then
    [(0xE0 + n / 4096).toUInt8, (0x80 + n / 64 % 64).toUInt8, (0x80 + n % 64).toUInt8]
  else
    [(0xF0 + n / 262144).toUInt8, (0x80 + n / 4096 % 64).toUInt8, (0x80 + n / 64 % 64).toUInt8,
      (0x80 + n % 64).toUInt8]

/-- The number of bytes in the UTF-8 form of one character. -/
def charWidth (c : Char) : Nat :=
  let n := c.toNat
  if n < 0x80 then 1 else if n < 0x800 then 2 else if n < 0x10000 then 3 else 4

/-- The UTF-8 form of a text. -/
def encodeChars (text : List Char) : Bytes := text.flatMap encodeChar

/-- The UTF-8 form of a string. -/
def encode (text : String) : Bytes := encodeChars text.toList

/-- The number of bytes that a text takes in UTF-8. -/
def width (text : List Char) : Nat := text.foldl (fun total c => total + charWidth c) 0

/-- A byte that may stand after the first byte of a character. -/
def isContinuation (b : UInt8) : Bool := 0x80 ≤ b && b < 0xC0

/-- Whether `second` may follow `first`: it excludes overlong forms, surrogates and values past the
last code point. -/
def secondAllowed (first second : UInt8) : Bool :=
  isContinuation second &&
    (if first = 0xE0 then 0xA0 ≤ second
    else if first = 0xED then second < 0xA0
    else if first = 0xF0 then 0x90 ≤ second
    else if first = 0xF4 then second < 0x90
    else true)

/-- The payload bits of a continuation byte. -/
def payload (b : UInt8) : Nat := b.toNat % 64

/-- What the first character of a byte string is: the character with its width, or the reason and
the number of blamed bytes. -/
def decodeHead (first : UInt8) (rest : Bytes) : Except (Utf8Reason × Nat) (Char × Nat) :=
  if first < 0x80 then .ok (Char.ofNat first.toNat, 1)
  else if first < 0xC2 then .error (.invalidStart, 1)
  else if first < 0xE0 then
    match rest with
    | [] => .error (.unexpectedEnd, 1)
    | b :: _ =>
      if isContinuation b then .ok (Char.ofNat (first.toNat % 32 * 64 + payload b), 2)
      else .error (.invalidContinuation, 1)
  else if first < 0xF0 then
    match rest with
    | [] => .error (.unexpectedEnd, 1)
    | b :: tail =>
      if !secondAllowed first b then .error (.invalidContinuation, 1)
      else match tail with
        | [] => .error (.unexpectedEnd, 2)
        | c :: _ =>
          if isContinuation c then
            .ok (Char.ofNat (first.toNat % 16 * 4096 + payload b * 64 + payload c), 3)
          else .error (.invalidContinuation, 2)
  else if first < 0xF5 then
    match rest with
    | [] => .error (.unexpectedEnd, 1)
    | b :: tail =>
      if !secondAllowed first b then .error (.invalidContinuation, 1)
      else match tail with
        | [] => .error (.unexpectedEnd, 2)
        | c :: tail =>
          if !isContinuation c then .error (.invalidContinuation, 2)
          else match tail with
            | [] => .error (.unexpectedEnd, 3)
            | d :: _ =>
              if isContinuation d then
                .ok (Char.ofNat (first.toNat % 8 * 262144 + payload b * 4096 + payload c * 64 + payload d), 4)
              else .error (.invalidContinuation, 3)
  else .error (.invalidStart, 1)

/-- Decodes from byte `offset` on; `skip` bytes still belong to the character read last. -/
def decodeFrom (offset : Nat) : Nat → Bytes → Except Utf8Fault (List Char)
  | _, [] => .ok []
  | skip + 1, _ :: rest => decodeFrom (offset + 1) skip rest
  | 0, first :: rest =>
    match decodeHead first rest with
    | .error (reason, blamed) => .error ⟨first, offset, offset + blamed, reason⟩
    | .ok (c, taken) =>
      match decodeFrom (offset + 1) (taken - 1) rest with
      | .error fault => .error fault
      | .ok text => .ok (c :: text)

/-- Decodes a byte string strictly. -/
def decode (bytes : Bytes) : Except Utf8Fault (List Char) := decodeFrom 0 0 bytes

/-- The text of a byte string, a byte that is not part of a character standing for U+FFFD. -/
def decodeLossy : Nat → Bytes → List Char
  | _, [] => []
  | skip + 1, _ :: rest => decodeLossy skip rest
  | 0, first :: rest =>
    match decodeHead first rest with
    | .error _ => '\uFFFD' :: decodeLossy 0 rest
    | .ok (c, taken) => c :: decodeLossy (taken - 1) rest

/-- The bytes from `start` up to `stop`. -/
def slice (bytes : Bytes) (start stop : Nat) : Bytes := (bytes.drop start).take (stop - start)

/-- The text of the bytes from `start` up to `stop`. -/
def sliceText (bytes : Bytes) (start stop : Nat) : String :=
  String.ofList (decodeLossy 0 (slice bytes start stop))

/-- A digit of base sixteen, in lower case. -/
def hexDigit (n : Nat) : Char := if n < 10 then Char.ofNat (48 + n) else Char.ofNat (87 + n)

/-- A byte as two digits of base sixteen. -/
def hexByte (b : UInt8) : String := String.ofList [hexDigit (b.toNat / 16), hexDigit (b.toNat % 16)]

def Utf8Reason.message : Utf8Reason → String
  | .invalidStart => "invalid start byte"
  | .invalidContinuation => "invalid continuation byte"
  | .unexpectedEnd => "unexpected end of data"

/-- One blamed byte is named by its value, several by their positions. -/
def Utf8Fault.message (fault : Utf8Fault) : String :=
  let place :=
    if fault.stop = fault.start + 1 then
      s!"byte 0x{hexByte fault.first} in position {fault.start}"
    else s!"bytes in position {fault.start}-{fault.stop - 1}"
  s!"'utf-8' codec can't decode {place}: {fault.reason.message}"

end Scaffold.Text
