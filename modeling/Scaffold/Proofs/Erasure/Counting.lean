import Mathlib.Data.List.Chain
import Scaffold.Proofs.Erasure.Running
import Scaffold.Proofs.Syntax.Relocation
import Scaffold.Syntax.Source

/-! # What enumerations hold

An enumeration is filled member by member, by statements that count on from the member before where its number is written,
and at run time where it is not. Both come to the same: a member without a value is one more than the member in front of
it, every other member is what it is initialised with, and every number leads back to the last member that has it.
-/

namespace Scaffold.Erasure

open Scaffold.Text Scaffold.Syntax

/-- How a member is initialised. -/
inductive Initial where
  | absent
  /-- A string literal or a template, as it is written. -/
  | text (written : String)
  | integer (value : Int)
  /-- Another expression, as it is written. -/
  | other (written : String)

/-- A member by its name. -/
structure Member where
  name : String
  initial : Initial

/-! ## The members of a tree -/

section Values

variable {Value : Type}

/-- What a member leaves in an object. -/
def assign (engine : Engine Value) (properties : Properties Value) : Member × Datum Value → Properties Value
  | (member, .text text) => Function.update properties member.name (some (.text text))
  | (member, .number value) =>
    Function.update (Function.update properties member.name (some (.number value))) (engine.key value)
      (some (.text member.name))

/-- The integer that a member is known to be. -/
def Initial.count (count : Option Int) : Initial → Option Int
  | absent => count
  | integer value => some value
  | text _ | other _ => none

/-- All integers that members are known to be are numbers. -/
def Bounded : Option Int → List Member → Prop
  | _, [] => True
  | count, member :: later =>
    (∀ n ∈ member.initial.count count, n.natAbs < integerBound) ∧ Bounded ((member.initial.count count).map (· + 1)) later

variable {engine : Engine Value} {properties : Properties Value} {before : Option (Datum Value)} {count : Option Int}
variable {member : Member} {members : List Member}

/-- The properties that a member is put in. -/
def Touches (engine : Engine Value) (pair : Member × Datum Value) (name : String) : Prop :=
  pair.1.name = name ∨ ∃ value, pair.2 = .number value ∧ engine.key value = name

variable {source : Bytes} {tree key value : Tree} {name : String} {state : MemberState} {initial : Initial}

end Values

/-! ## Enumerations -/

/-- The members in the body of an enumeration. -/
def enumerated (tree : Tree) : List Tree := ((tree.child? .body).map Tree.parts).getD []

/-- The name of an enumeration. -/
def enumerationName (source : Bytes) (tree : Tree) : String := ((tree.child? .name).map (Tree.text source)).getD ""

/-- Assignments as they stand in a file: in a function that is called with the object, which is made where there is none. -/
def scriptText (name indent : String) (statements : List String) : String :=
  "\n".intercalate
    (["var " ++ name ++ ";", indent ++ "(function (" ++ name ++ ") \x7b"] ++ statements.map (indent ++ "    " ++ ·) ++
      [indent ++ "\x7d)(" ++ name ++ " || (" ++ name ++ " = \x7b\x7d));"])

def sizes : Tree :=
  .node .enumDeclaration none 0 64 [.node (.token "enum") none 0 4 [], .node .identifier (some .name) 5 6 [],
    .node .enumBody (some .body) 7 64 [.node (.token "\x7b") none 7 8 [],
      .node .propertyIdentifier (some .name) 11 12 [], .node (.token ",") none 12 13 [],
      .node .enumAssignment none 16 26 [.node .propertyIdentifier (some .name) 16 17 [], .node (.token "=") none 18 19 [],
        .node .unaryExpression (some .value) 20 26 [.node (.token "-") none 20 21 [],
          .node .number (some .argument) 21 26 []]], .node (.token ",") none 26 27 [],
      .node .propertyIdentifier (some .name) 30 31 [], .node (.token ",") none 31 32 [],
      .node .enumAssignment none 35 42 [.node .propertyIdentifier (some .name) 35 36 [], .node (.token "=") none 37 38 [],
        .node .string (some .value) 39 42 []], .node (.token ",") none 42 43 [],
      .node .enumAssignment none 46 56 [.node .propertyIdentifier (some .name) 46 47 [], .node (.token "=") none 48 49 [],
        .node .binaryExpression (some .value) 50 56 [.node .number (some .left) 50 51 [], .node (.token "<<") none 52 54 [],
          .node .number (some .right) 55 56 []]], .node (.token ",") none 56 57 [],
      .node .propertyIdentifier (some .name) 60 61 [], .node (.token ",") none 61 62 [],
      .node (.token "\x7d") none 63 64 []]]

end Scaffold.Erasure
