import Mathlib.Logic.Function.Basic
import Scaffold.Proofs.Erasure.Literals
import Scaffold.Proofs.Json.Quoted
import Scaffold.Syntax.Reading

/-! # Running assignments

The statements that fill the object of an enumeration are of two forms. One assigns a text to a property. The other assigns
a number to a property, and then the name of that property to the property that the number names. The value is a literal,
one more than what a property holds, or any other expression. What such statements do is said here for every engine that
counts integers in steps of one, and tells numbers apart when they are used as the names of properties.
-/

namespace Scaffold.Erasure

open Scaffold.Text Scaffold.Syntax

/-- What a property holds. -/
inductive Datum (Value : Type) where
  | text (text : String)
  | number (value : Value)

/-- What the properties of an object hold. -/
abbrev Properties (Value : Type) := String → Option (Datum Value)

/-- The magnitude below which all integers are numbers. -/
def integerBound : Nat := 2 ^ 53

/-- What runs statements. Two zeros that differ in their sign only are one number here. -/
structure Engine (Value : Type) where
  integer : Int → Value
  /-- One more than a number. -/
  next : Value → Value
  /-- The name of the property that a number stands for. -/
  key : Value → String
  /-- The number that an expression of another kind yields, which may depend on the object. -/
  evaluate : Properties Value → String → Value
  /-- The text that a string literal or a template yields. -/
  string : String → String
  next_integer : ∀ n : Int, n.natAbs < integerBound → (n + 1).natAbs < integerBound → next (integer n) = integer (n + 1)
  key_injective : Function.Injective key

/-- A string literal in double quotes means a text. -/
def Denotes (literal : String) (text : String) : Prop :=
  ∃ rest position, literal.toList = '"' :: rest ∧ Json.readText 0 1 0 rest = .ok (text.toList, ⟨position, []⟩)

/-- What stands in front of a literal is nothing but white space and comments. -/
def IsGap (gap literal : String) : Prop :=
  ∃ behind, (Cursor.mk 0 (gap.toList ++ (literal.toList ++ behind))).trivia.2.rest = literal.toList ++ behind

/-- An expression whose value is a number. -/
inductive Operand where
  | integer (literal : String)
  | negated (gap literal : String)
  /-- One more than what a property holds. -/
  | following (literal : String)
  | other (text : String)

/-- An assignment to a property of an object, and perhaps one to the property that its value names. -/
inductive Assignment where
  | text (literal value : String)
  | number (literal : String) (value : Operand) (back : String)

/-- The text of an expression; properties are those of the object with the given name. -/
def Operand.written (name : String) : Operand → String
  | integer literal => literal
  | negated gap literal => "-" ++ gap ++ literal
  | following literal => name ++ "[" ++ literal ++ "] + 1"
  | other text => text

/-- The text of a statement. -/
def Assignment.written (name : String) : Assignment → String
  | text literal value => name ++ "[" ++ literal ++ "] = " ++ value ++ ";"
  | number literal value back =>
    name ++ "[" ++ name ++ "[" ++ literal ++ "] = " ++ value.written name ++ "] = " ++ back ++ ";"

variable {Value : Type} {engine : Engine Value} {properties after : Properties Value}

/-- The number that an expression yields. -/
inductive Operand.Yields (engine : Engine Value) (properties : Properties Value) : Operand → Value → Prop
  | integer {literal : String} {n : Nat} (means : IsInteger literal.toList n) :
      Yields engine properties (.integer literal) (engine.integer n)
  | negated {gap literal : String} {n : Nat} (blank : IsGap gap literal) (means : IsInteger literal.toList n) :
      Yields engine properties (.negated gap literal) (engine.integer (-n))
  | following {literal name : String} {value : Value} (denotes : Denotes literal name)
      (holds : properties name = some (.number value)) : Yields engine properties (.following literal) (engine.next value)
  | other {text : String} : Yields engine properties (.other text) (engine.evaluate properties text)

/-- What a statement makes of the properties. -/
inductive Assignment.Runs (engine : Engine Value) (properties : Properties Value) : Assignment → Properties Value → Prop
  | text {literal value name : String} (denotes : Denotes literal name) :
      Runs engine properties (.text literal value) (Function.update properties name (some (.text (engine.string value))))
  | number {literal back name backName : String} {operand : Operand} {value : Value} (denotes : Denotes literal name)
      (yields : operand.Yields engine properties value) (denotesBack : Denotes back backName) :
      Runs engine properties (.number literal operand back)
        (Function.update (Function.update properties name (some (.number value))) (engine.key value) (some (.text backName)))

/-- What statements make of the properties, one after the other. -/
inductive RunsAll (engine : Engine Value) : Properties Value → List Assignment → Properties Value → Prop
  | nil {properties : Properties Value} : RunsAll engine properties [] properties
  | cons {properties between after : Properties Value} {statement : Assignment} {later : List Assignment}
      (first : statement.Runs engine properties between) (others : RunsAll engine between later after) :
      RunsAll engine properties (statement :: later) after

/-! ## There is one outcome -/

theorem Denotes.unique {literal text other : String} (denotes : Denotes literal text) (same : Denotes literal other) :
    other = text := by
  obtain ⟨rest, position, split, read⟩ := denotes
  obtain ⟨rest', position', split', read'⟩ := same
  obtain rfl := (List.cons.inj (split.symm.trans split')).2
  rw [read] at read'
  injection read' with eq
  exact (String.toList_inj.mp (Prod.mk.inj eq).1).symm

theorem Operand.Yields.unique {operand : Operand} {value other : Value} (yields : operand.Yields engine properties value)
    (same : operand.Yields engine properties other) : other = value := by
  cases yields with
  | integer means =>
    cases same with
    | integer means' => rw [means.unique means']
  | negated _ means =>
    cases same with
    | negated _ means' => rw [means.unique means']
  | following denotes holds =>
    cases same with
    | following denotes' holds' =>
      obtain rfl := denotes.unique denotes'
      cases holds.symm.trans holds'
      rfl
  | other => cases same; rfl

theorem Assignment.Runs.unique {statement : Assignment} {other : Properties Value}
    (runs : statement.Runs engine properties after) (same : statement.Runs engine properties other) : other = after := by
  cases runs with
  | text denotes =>
    cases same with
    | text denotes' => rw [denotes.unique denotes']
  | number denotes yields back =>
    cases same with
    | number denotes' yields' back' => rw [denotes.unique denotes', yields.unique yields', back.unique back']

/-- Statements have one outcome. -/
theorem RunsAll.unique {statements : List Assignment} {other : Properties Value}
    (runs : RunsAll engine properties statements after) (same : RunsAll engine properties statements other) :
    other = after := by
  induction runs with
  | nil => cases same; rfl
  | cons first _ ih =>
    cases same with
    | cons first' others =>
      obtain rfl := first.unique first'
      exact ih others

/-! ## Texts that mean what they were made from -/

end Scaffold.Erasure
