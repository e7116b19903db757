import Scaffold.Text.Blank

/-! # Terminals

The smallest pieces of a source file: names, numbers, string and pattern literals, marks, and the
stretches of text inside templates and markup. A terminal is recognised at the front of a text and
takes the longest stretch that it can. Two more questions about what follows are answered here, both
by looking ahead only: where a statement may end without a semicolon, and whether a question mark
opens a conditional expression.
-/

namespace Scaffold.Syntax

open Scaffold.Text

/-- The characters that end a name. -/
def isNameBreak (c : Char) : Bool :=
  c.toNat < 0x20 || isSeparator c || c ∈ [':', ';', '\x60', '"', '\'', '@', '#', '.', ',', '|', '^',
    '&', '<', '=', '>', '+', '-', '*', '/', '\\', '%', '?', '!', '~', '(', ')', '[', ']', '\x7b', '\x7d']

def isHexDigit (c : Char) : Bool :=
  c.isDigit || ('a' ≤ c && c ≤ 'f') || ('A' ≤ c && c ≤ 'F')

def isOctalDigit (c : Char) : Bool := '0' ≤ c && c ≤ '7'

/-- The length of `\uXXXX` or `\u{X…}` at the front of a text, or zero. -/
def unicodeEscapeLength : List Char → Nat
  | '\\' :: 'u' :: '\x7b' :: rest =>
    let digits := rest.takeWhile isHexDigit
    if digits.isEmpty then 0
    else if (rest.drop digits.length).head? = some '\x7d' then digits.length + 4 else 0
  | '\\' :: 'u' :: a :: b :: c :: d :: _ => if [a, b, c, d].all isHexDigit then 6 else 0
  | _ => 0

/-- The length of the rest of a name; `skip` characters still belong to an escape. -/
def nameTailLength : Nat → List Char → Nat
  | _, [] => 0
  | skip + 1, _ :: rest => nameTailLength skip rest + 1
  | 0, c :: rest =>
    if !isNameBreak c then nameTailLength 0 rest + 1
    else match unicodeEscapeLength (c :: rest) with
      | 0 => 0
      | skip + 1 => nameTailLength skip rest + 1

/-- The length of the name at the front of a text, or zero. A name does not begin with a digit. -/
def nameLength : List Char → Nat
  | [] => 0
  | c :: rest => if c.isDigit then 0 else nameTailLength 0 (c :: rest)

/-- The name at the front of a text. -/
def frontName (text : List Char) : String := String.ofList (text.take (nameLength text))

/-- The length of what continues a run of digits: more digits, each with at most one `_` before it. -/
def moreDigitsLength (isDigit : Char → Bool) : List Char → Nat
  | [] => 0
  | [c] => if isDigit c then 1 else 0
  | c :: d :: rest =>
    if isDigit c then moreDigitsLength isDigit (d :: rest) + 1
    else if c = '_' && isDigit d then moreDigitsLength isDigit rest + 2
    else 0

/-- The length of a run of digits in which a single `_` may stand between two digits. -/
def digitsLength (isDigit : Char → Bool) : List Char → Nat
  | [] => 0
  | c :: rest => if isDigit c then moreDigitsLength isDigit rest + 1 else 0

def decimalsLength : List Char → Nat := digitsLength Char.isDigit

/-- The length of an exponent such as `e-5`, or zero. -/
def exponentLength : List Char → Nat
  | e :: rest =>
    if e = 'e' || e = 'E' then
      let sign := match rest with
        | s :: _ => if s = '+' || s = '-' then 1 else 0
        | [] => 0
      let digits := decimalsLength (rest.drop sign)
      if digits = 0 then 0 else 1 + sign + digits
    else 0
  | [] => 0

/-- The length of a whole part that may be followed by a point or an exponent: `0`, or digits with
at most one zero in front. -/
def wholePartLength : List Char → Nat
  | '0' :: d :: rest =>
    if d.isDigit && d ≠ '0' then 1 + decimalsLength (d :: rest) else 1
  | text => decimalsLength text

/-- The length of a number in base two, eight or sixteen, or zero. -/
def radixLength : List Char → Nat
  | '0' :: r :: rest =>
    let digits :=
      if r = 'x' || r = 'X' then digitsLength isHexDigit rest
      else if r = 'o' || r = 'O' then digitsLength isOctalDigit rest
      else if r = 'b' || r = 'B' then digitsLength (fun c => c = '0' || c = '1') rest
      else 0
    if digits = 0 then 0 else digits + 2
  | _ => 0

/-- One more when an `n` follows the first `length` characters. -/
def withBigSuffix (text : List Char) (length : Nat) : Nat :=
  if length ≠ 0 && (text.drop length).head? = some 'n' then length + 1 else length

/-- The length of the number literal at the front of a text, or zero. -/
def numberLength (text : List Char) : Nat :=
  let radix := withBigSuffix text (radixLength text)
  let plain := withBigSuffix text (decimalsLength text)
  let whole := wholePartLength text
  let afterWhole := text.drop whole
  let pointed :=
    if whole = 0 then
      match text with
      | '.' :: rest =>
        let digits := decimalsLength rest
        if digits = 0 then 0 else 1 + digits + exponentLength (rest.drop digits)
      | _ => 0
    else match afterWhole with
      | '.' :: rest =>
        let digits := decimalsLength rest
        whole + 1 + digits + exponentLength (rest.drop digits)
      | _ => 0
  let scaled := if whole = 0 || exponentLength afterWhole = 0 then 0 else whole + exponentLength afterWhole
  max (max radix plain) (max pointed scaled)

/-- The length of the escape sequence at the front of a text, or zero. -/
def escapeLength : List Char → Nat
  | '\\' :: 'u' :: rest => unicodeEscapeLength ('\\' :: 'u' :: rest)
  | '\\' :: 'x' :: a :: b :: _ => if isHexDigit a && isHexDigit b then 4 else 0
  | ['\\', 'x'] | ['\\', 'x', _] => 0
  | '\\' :: '\r' :: '\n' :: _ => 3
  | '\\' :: c :: rest =>
    if isOctalDigit c then 1 + ((c :: rest).take 3 |>.takeWhile isOctalDigit).length else 2
  | _ => 0

/-- The length of the rest of a string literal up to and with its closing quote. -/
def stringTailLength (quote : Char) : Nat → List Char → Option Nat
  | _, [] => none
  | skip + 1, _ :: rest => (stringTailLength quote skip rest).map (· + 1)
  | 0, c :: rest =>
    if c = quote then some 1
    else if c = '\\' then
      match escapeLength (c :: rest) with
      | 0 => none
      | skip + 1 => (stringTailLength quote skip rest).map (· + 1)
    else if c = '\n' || c = '\r' then none
    else (stringTailLength quote 0 rest).map (· + 1)

/-- The length of the string literal at the front of a text, or zero. -/
def stringLength : List Char → Nat
  | c :: rest =>
    if c = '"' || c = '\'' then
      match stringTailLength c 0 rest with
      | some length => length + 1
      | none => 0
    else 0
  | [] => 0

/-- The length of the rest of a pattern literal up to and with its closing slash. A slash inside
brackets does not close it. -/
def patternTailLength (bracketed : Bool) : List Char → Option Nat
  | [] => none
  | '\\' :: c :: rest => if c = '\n' then none else (patternTailLength bracketed rest).map (· + 2)
  | c :: rest =>
    if c = '\n' || c = '\\' then none
    else if bracketed then (patternTailLength (c ≠ ']') rest).map (· + 1)
    else if c = '/' then some 1
    else (patternTailLength (c = '[') rest).map (· + 1)

/-- The length of the pattern literal at the front of a text, or zero. -/
def regexLength : List Char → Nat
  | '/' :: c :: rest =>
    if c = '/' then 0
    else match patternTailLength false (c :: rest) with
      | some length =>
        let flags := ((c :: rest).drop length).takeWhile fun d => 'a' ≤ d && d ≤ 'z'
        1 + length + flags.length
      | none => 0
  | _ => 0

/-- The length of the plain stretch of a template at the front of a text. -/
def templateCharsLength : List Char → Nat
  | [] => 0
  | '$' :: '\x7b' :: _ => 0
  | c :: rest => if c = '\x60' || c = '\\' then 0 else templateCharsLength rest + 1

/-- The length of the text between two tags of markup, or zero when it is layout only. -/
def markupTextLength (text : List Char) : Nat :=
  let stretch := text.takeWhile fun c => c ∉ ['<', '>', '\x7b', '\x7d', '&']
  let sees := stretch.foldl
    (fun (state : Bool × Bool) c =>
      if c = '\n' then (state.1, true)
      else if state.2 && isLineBlank c then state
      else (true, false))
    (false, false)
  if sees.1 then stretch.length else 0

/-- The length of a name of markup that holds hyphens. -/
def markupNameLength : List Char → Nat
  | [] => 0
  | c :: rest =>
    if c.isAlpha || c = '_' || c = '$' then
      let tail := rest.takeWhile fun d => d.isAlphanum || d = '_' || d = '$' || d = '-'
      if tail.contains '-' then tail.length + 1 else 0
    else 0

/-- The length of a quoted value of markup; it may run over several lines. -/
def markupStringLength : List Char → Nat
  | c :: rest =>
    if c = '"' || c = '\'' then
      let inner := rest.takeWhile (· ≠ c)
      if inner.length < rest.length then inner.length + 2 else 0
    else 0
  | [] => 0

/-- The length of a character reference such as `&amp;`, or zero. -/
def characterReferenceLength : List Char → Nat
  | '&' :: rest =>
    let body := rest.takeWhile (· ≠ ';')
    let fits := match body with
      | '#' :: x :: digits =>
        if x = 'x' || x = 'X' then !digits.isEmpty && digits.length ≤ 6 && digits.all isHexDigit
        else digits.length ≤ 4 && (x :: digits).all Char.isDigit
      | _ => !body.isEmpty && body.length ≤ 30 && body.all Char.isAlpha
    if fits && body.length < rest.length then body.length + 2 else 0
  | _ => 0

/-- The characters that end a line comment. -/
def isLineEnd (c : Char) : Bool := c = '\n' || c = '\r' || c = '\u2028' || c = '\u2029'

/-- The length of the rest of a block comment up to and with its end. -/
def blockCommentTailLength : List Char → Option Nat
  | [] => none
  | '*' :: '/' :: _ => some 2
  | _ :: rest => (blockCommentTailLength rest).map (· + 1)

/-- The length of the comment at the front of a text, or zero. -/
def commentLength : List Char → Nat
  | '/' :: '/' :: rest => (rest.takeWhile fun c => !isLineEnd c).length + 2
  | '/' :: '*' :: rest =>
    match blockCommentTailLength rest with
    | some length => length + 2
    | none => 0
  | _ => 0

/-- A terminal. A mark is not recognised where one of its continuations follows, for the longer mark
would be meant; a name is not recognised when it is reserved where it stands. -/
inductive Terminal where
  | mark (text : String) (continuations : List String)
  | word (text : String)
  | name (reserved : List String)
  | privateName
  | number
  | string
  | regex
  | templateChars
  | escape
  | markupText
  | markupName
  | markupString
  | characterReference
  | questionMark
  | hashBang
  deriving DecidableEq, Repr, Inhabited

/-- Whether a question mark opens a conditional expression: it does not when the next character
that is not blank shows an optional parameter or member. -/
def opensConditional : List Char → Bool
  | '?' :: rest =>
    match rest with
    | '?' :: _ => false
    | _ =>
      match rest.dropWhile isLineBlank with
      | '.' :: d :: _ => d.isDigit
      | ['.'] => false
      | c :: _ => c ∉ [':', ')', ',']
      | [] => true
  | _ => false

/-- The length of a terminal at the front of a text, or zero. -/
def Terminal.length (terminal : Terminal) (text : List Char) : Nat :=
  match terminal with
  | .mark shape continuations =>
    if shape.toList.isPrefixOf text then
      let rest := text.drop shape.length
      if continuations.any fun longer => longer.toList.isPrefixOf rest then 0 else shape.length
    else 0
  | .word shape => if frontName text = shape then shape.length else 0
  | .name reserved =>
    let length := nameLength text
    if length = 0 then 0
    else if String.ofList (text.take length) ∈ reserved then 0
    else length
  | .privateName =>
    match text with
    | '#' :: rest => if nameLength rest = 0 then 0 else nameLength rest + 1
    | _ => 0
  | .number => numberLength text
  | .string => stringLength text
  | .regex => regexLength text
  | .templateChars => templateCharsLength text
  | .escape => escapeLength text
  | .markupText => markupTextLength text
  | .markupName => markupNameLength text
  | .markupString => markupStringLength text
  | .characterReference => characterReferenceLength text
  | .questionMark => if opensConditional text then 1 else 0
  | .hashBang =>
    match text with
    | '#' :: '!' :: rest => (rest.takeWhile fun c => !isLineEnd c).length + 2
    | _ => 0

/-- What stands in front of an omitted semicolon. After an expression, an opening parenthesis or
bracket on the next line continues it; after a type it does not; after the head of a function, an
opening brace begins its body. -/
inductive StatementEnd where
  | expression
  | type
  | signature
  deriving DecidableEq, Repr, Inhabited

/-- What a look past white space and comments finds: the rest of the text, and nothing when a slash
begins something else than a comment. `skip` characters still belong to a comment. -/
def pastComments : Nat → List Char → Option (List Char)
  | _, [] => some []
  | skip + 1, _ :: rest => pastComments skip rest
  | 0, c :: rest =>
    if isLineBlank c then pastComments 0 rest
    else if c ≠ '/' then some (c :: rest)
    else match rest with
      | '/' :: tail => pastComments (1 + (tail.takeWhile (· ≠ '\n')).length) rest
      | '*' :: tail =>
        match blockCommentTailLength tail with
        | some length => pastComments (1 + length) rest
        | none => some []
      | _ => none

/-- Whether the token at the front of the next line begins a new statement rather than going on
with the one before. -/
def beginsStatement (ending : StatementEnd) : List Char → Bool
  | [] => true
  | c :: rest =>
    if c ∈ ['\x60', ',', '.', ';', '*', '%', '>', '<', '=', '?', '^', '|', '&', '/', ':'] then false
    else if c = '\x7b' then ending ≠ .signature
    else if c = '(' || c = '[' then ending ≠ .expression
    else if c = '+' then rest.head? = some '+'
    else if c = '-' then rest.head? = some '-'
    else if c = '!' then rest.head? ≠ some '='
    else if c = 'i' then
      match rest with
      | 'n' :: tail =>
        match tail with
        | [] => false
        | d :: _ =>
          if !d.isAlpha then false
          else if "stanceof".toList.isPrefixOf tail then
            match tail.drop 8 with
            | e :: _ => e.isAlpha
            | [] => false
          else true
      | _ => true
    else true

/-- Whether a statement may end here without a semicolon: at the end of the file, before a closing
brace, or at a line break that the next token does not bridge. -/
def mayEnd (ending : StatementEnd) : List Char → Bool
  | [] => true
  | '\n' :: rest =>
    match pastComments 0 rest with
    | some next => beginsStatement ending next
    | none => false
  | c :: rest =>
    if c = '\x7d' then
      (rest.dropWhile isLineBlank).head? ≠ some ':' || ending = .expression
    else if isLineBlank c then mayEnd ending rest
    else false

end Scaffold.Syntax
