import Scaffold.Json.Quoted
import Scaffold.Number.Shortest

/-! # JSON documents

Values of JSON, objects with their keys in order, and their text: two blanks for each level of
indentation, and characters beyond ASCII as they are.
-/

namespace Scaffold.Json

open Scaffold.Number

/-- A value of JSON. Integers have any size; the numbers with a point or an exponent are binary. -/
inductive Value where
  | null
  | boolean (value : Bool)
  | integer (value : Int)
  | float (value : Binary64)
  | text (value : String)
  | array (items : List Value)
  | object (members : List (String × Value))
  deriving Inhabited

/-- The members of an object, from first to last. -/
abbrev Members := List (String × Value)

namespace Members

def get? (members : Members) (key : String) : Option Value :=
  (members.find? (·.1 = key)).map (·.2)

def keys (members : Members) : List String := members.map (·.1)

/-- Gives a key a value, in its place when it is there, and at the end otherwise. -/
def set (members : Members) (key : String) (value : Value) : Members :=
  if key ∈ members.keys then members.map fun member => if member.1 = key then (key, value) else member
  else members ++ [(key, value)]

def erase (members : Members) (key : String) : Members := members.filter (·.1 ≠ key)

end Members

/-- The members of a value that is an object. -/
def Value.members? : Value → Option Members
  | .object members => some members
  | _ => none

/-- The text of a number with a point or an exponent. -/
def floatText : Binary64 → String
  | .finite negative significand exponent =>
    (if negative then "-" else "") ++ Binary64.magnitudeText significand exponent
  | .infinite negative => if negative then "-Infinity" else "Infinity"
  | .notANumber => "NaN"

/-- A line break and the indentation of a level. -/
def lineBreak (level : Nat) : List Char := '\n' :: List.replicate (2 * level) ' '

mutual

/-- The text of a value at a level of indentation. -/
def render (level : Nat) : Value → List Char
  | .null => "null".toList
  | .boolean value => (if value then "true" else "false").toList
  | .integer value => (toString value).toList
  | .float value => (floatText value).toList
  | .text value => quote .unicode value.toList
  | .array [] => "[]".toList
  | .array (first :: later) =>
    '[' :: lineBreak (level + 1) ++ render (level + 1) first ++ renderItems (level + 1) later ++
      lineBreak level ++ [']']
  | .object [] => "\x7b\x7d".toList
  | .object ((key, value) :: later) =>
    '\x7b' :: lineBreak (level + 1) ++ quote .unicode key.toList ++ ':' :: ' ' :: render (level + 1) value ++
      renderMembers (level + 1) later ++ lineBreak level ++ ['\x7d']

/-- The items of an array after the first. -/
def renderItems (level : Nat) : List Value → List Char
  | [] => []
  | item :: later => ',' :: lineBreak level ++ render level item ++ renderItems level later

/-- The members of an object after the first. -/
def renderMembers (level : Nat) : List (String × Value) → List Char
  | [] => []
  | (key, value) :: later =>
    ',' :: lineBreak level ++ quote .unicode key.toList ++ ':' :: ' ' :: render level value ++
      renderMembers level later

end

/-- The text of a document, which ends in a line feed. -/
def document (value : Value) : String := String.ofList (render 0 value ++ ['\n'])

end Scaffold.Json
