import Scaffold.Erasure.Findings
import Scaffold.Json.Quoted
import Scaffold.Number.Shortest

/-! # Enumerations

An enumeration becomes an object that is filled by a function, member by member. A member without a
value continues the count from the member before it, where that is known, and adds one to it where
it is not.
-/

namespace Scaffold.Erasure

open Scaffold.Text Scaffold.Syntax Scaffold.Number

/-- The value of a number literal. -/
inductive MemberNumber where
  | integer (value : Int)
  | float (value : Binary64)
  deriving DecidableEq, Repr, Inhabited

namespace MemberNumber

def neg : MemberNumber → MemberNumber
  | integer value => integer (-value)
  | float value => float value.neg

def succ : MemberNumber → MemberNumber
  | integer value => integer (value + 1)
  | float value => float value.succ

/-- The text of a number; one without a fraction is written as an integer. -/
def text : MemberNumber → String
  | integer value => toString value
  | float (.finite negative significand exponent) =>
    match (Binary64.finite negative significand exponent).toInt? with
    | some value => toString value
    | none => (if negative then "-" else "") ++ Binary64.magnitudeText significand exponent
  | float (.infinite negative) => if negative then "-inf" else "inf"
  | float .notANumber => "nan"

end MemberNumber

/-- The value of a digit of base up to sixteen. -/
def digitValue (c : Char) : Nat :=
  if c.isDigit then c.toNat - 48
  else if 'a' ≤ c && c ≤ 'f' then c.toNat - 87
  else if 'A' ≤ c && c ≤ 'F' then c.toNat - 55
  else 16

/-- The number with the given digits. -/
def digitsValue? (base : Nat) (digits : List Char) : Option Nat :=
  if !digits.isEmpty && digits.all (digitValue · < base) then
    some (digits.foldl (fun value c => value * base + digitValue c) 0)
  else none

/-- The value of an integer literal; one in base ten has no zeros in front. -/
def integerLiteral? : List Char → Option Nat
  | '0' :: mark :: digits =>
    if mark = 'x' || mark = 'X' then digitsValue? 16 digits
    else if mark = 'o' || mark = 'O' then digitsValue? 8 digits
    else if mark = 'b' || mark = 'B' then digitsValue? 2 digits
    else if (mark :: digits).all (· = '0') then some 0
    else none
  | digits => digitsValue? 10 digits

/-- The value of a decimal literal with a point or an exponent. -/
def floatLiteral? (text : List Char) : Option Binary64 :=
  let whole := text.takeWhile Char.isDigit
  let rest := text.dropWhile Char.isDigit
  let (fraction, rest) := match rest with
    | '.' :: tail => (tail.takeWhile Char.isDigit, tail.dropWhile Char.isDigit)
    | _ => ([], rest)
  if (whole ++ fraction).isEmpty then none
  else
    let digits := (digitsValue? 10 (whole ++ fraction)).getD 0
    let scale (exponent : Int) := Binary64.ofDecimal false digits (exponent - fraction.length)
    match rest with
    | [] => some (scale 0)
    | mark :: tail =>
      if mark = 'e' || mark = 'E' then
        match tail with
        | '-' :: power => (digitsValue? 10 power).map fun n => scale (-(n : Int))
        | '+' :: power => (digitsValue? 10 power).map fun n => scale (n : Int)
        | power => (digitsValue? 10 power).map fun n => scale (n : Int)
      else none

/-- The value of a number literal, if it is one of an integer or a decimal. -/
def numberLiteral? (text : String) : Option MemberNumber :=
  let digits := text.toList.filter (· ≠ '_')
  match integerLiteral? digits with
  | some value => some (.integer value)
  | none => (floatLiteral? digits).map .float

/-- The value of a number literal, which may have a minus sign in front. -/
def literalNumber? (source : Bytes) (tree : Tree) : Option MemberNumber :=
  if tree.kind = .unaryExpression && slice source tree.start (tree.start + 1) = [45] then
    match tree.child? .argument with
    | some argument =>
      if argument.kind = .number then (numberLiteral? (argument.text source)).map MemberNumber.neg else none
    | none => none
  else if tree.kind = .number then numberLiteral? (tree.text source)
  else none

/-- The name of a member; a string literal names what stands between its quotes. -/
def memberKey (source : Bytes) (key : Tree) : String :=
  (key.stringValue? source).getD (key.text source)

/-- A name as a string literal. -/
def quotedName (name : String) : String := String.ofList (Json.quote .ascii name.toList)

/-- What is known in front of a member: the count, unless the values before it hide it, and the name
of the member before. -/
structure MemberState where
  count : Option MemberNumber
  previous : String
  deriving DecidableEq, Repr, Inhabited

/-- The name of a member and the tree of its value. -/
def memberParts (member : Tree) : Tree × Option Tree :=
  if member.kind = .enumAssignment then
    ((member.child? .name).getD member, some ((member.child? .value).getD member))
  else (member, none)

/-- The assignment that defines a member, and what is known after it. -/
def memberLine (source : Bytes) (name : String) (state : MemberState) (member : Tree) :
    String × MemberState :=
  let (keyTree, value) := memberParts member
  let key := memberKey source keyTree
  let quoted := quotedName key
  let numbered (value : String) := name ++ "[" ++ name ++ "[" ++ quoted ++ "] = " ++ value ++ "] = " ++ quoted ++ ";"
  match value with
  | none =>
    match state.count with
    | some number => (numbered number.text, ⟨some number.succ, key⟩)
    | none => (numbered (name ++ "[" ++ quotedName state.previous ++ "] + 1"), ⟨none, key⟩)
  | some tree =>
    if tree.kind = .string || tree.kind = .templateString then
      (name ++ "[" ++ quoted ++ "] = " ++ tree.text source ++ ";", ⟨none, key⟩)
    else
      (numbered (tree.text source), ⟨(literalNumber? source tree).map MemberNumber.succ, key⟩)

/-- The assignments that define the members, from first to last. -/
def memberLines (source : Bytes) (name : String) : MemberState → List Tree → List String
  | _, [] => []
  | state, member :: later =>
    let (line, next) := memberLine source name state member
    line :: memberLines source name next later

/-- The names used as values in the members of an enumeration. -/
def memberNames (source : Bytes) (member : Tree) : List String :=
  match (memberParts member).2 with
  | some tree =>
    if tree.kind = .string || tree.kind = .templateString then [] else usedNames source tree
  | none => []

/-- The statements that an enumeration becomes. -/
def enumerationText (source : Bytes) (tree : Tree) : String :=
  let name := ((tree.child? .name).map (Tree.text source)).getD ""
  let members := ((tree.child? .body).map Tree.parts).getD []
  let indent := sliceText (indentationAt source tree.start) 0 tree.start
  let inner := indent ++ "    "
  let lines := (memberLines source name ⟨some (.integer 0), ""⟩ members).map (inner ++ ·)
  "\n".intercalate
    (["var " ++ name ++ ";", indent ++ "(function (" ++ name ++ ") \x7b"] ++ lines ++
      [indent ++ "\x7d)(" ++ name ++ " || (" ++ name ++ " = \x7b\x7d));"])

/-- Replaces an enumeration by the statements that define it. -/
def rewriteEnumeration (source : Bytes) (tree : Tree) : Findings :=
  let members := ((tree.child? .body).map Tree.parts).getD []
  ⟨[⟨tree.start, tree.stop, encode (enumerationText source tree)⟩],
    members.flatMap (memberNames source), []⟩

end Scaffold.Erasure
