import Scaffold.Syntax.Rule

/-! # The symbols of the source language

A symbol names a construct together with what the surroundings decide about it: how tightly an
expression has to bind, and whether a line break may end it. The rules of the symbols are given in
the modules for types, functions, expressions, markup, classes, modules and statements.
-/

namespace Scaffold.Syntax

/-- What surrounds an expression. -/
structure Place where
  /-- The statement may end after the expression without a semicolon. -/
  openEnded : Bool
  /-- An arrow function may declare the type of its result. -/
  typedArrows : Bool
  deriving DecidableEq, Repr, Inhabited

/-- Inside parentheses, brackets or braces. -/
def Place.enclosed : Place := ⟨false, true⟩

/-- At the end of a statement. -/
def Place.final : Place := ⟨true, true⟩

/-- What surrounds a type. -/
structure TypePlace where
  /-- What kind of statement may end after the type without a semicolon, if one may. -/
  ending : Option StatementEnd
  /-- The type may be that of a function without parentheses around it. -/
  functions : Bool
  /-- The type stands among the type arguments of a call, where a comparison could be meant. -/
  inCall : Bool
  /-- The type follows `as` where a name of more than two parts cannot go on. -/
  shortNames : Bool
  deriving DecidableEq, Repr, Inhabited

/-- Inside parentheses, brackets, braces or angle brackets. -/
def TypePlace.enclosed : TypePlace := ⟨none, true, false, false⟩

/-- At the end of a statement or of a member. -/
def TypePlace.final : TypePlace := ⟨some .type, true, false, false⟩

/-- The constructs of the language. -/
inductive Symbol where
  | statement | block | declaration | declarators (first : Bool)
  | expressions (place : Place)
  | expression (place : Place) (binding : Nat) (assertions : Bool)
  | operand (place : Place)
  | target
  | array | object | template | arguments
  | destructuring (assigned : Bool)
  | parameters | signature (place : TypePlace)
  | propertyName (reserved : List String)
  | type (place : TypePlace)
  | simpleType (place : TypePlace)
  | typeArguments (inCall : Bool) | typeParameters
  | typeMembers
  | classMembers | decorator
  | angled (place : Place)
  | markupElement
  deriving DecidableEq, Repr, Inhabited

/-- A rule of the language. -/
abbrev Shape := Rule Symbol

namespace Shape

open Rule

/-- The words that begin an expression of their own and are no names there. -/
def expressionWords : List String :=
  ["this", "super", "null", "true", "false", "function", "class", "typeof", "void", "delete", "await",
    "yield", "import"]

/-- The words that begin a statement of their own and are no names there. -/
def statementWords : List String :=
  ["if", "for", "while", "do", "switch", "try", "throw", "return", "break", "continue", "debugger",
    "with", "var", "const", "enum", "interface", "abstract", "case", "default"]

/-- A name that refers to a value. -/
def identifier : Shape := name .identifier expressionWords

/-- Any name at all, as the name of a property. -/
def propertyIdentifier : Shape := name .propertyIdentifier []

/-- A string literal. -/
def stringLiteral : Shape := .leaf .string .string

/-- An equals sign that is not part of a longer operator. -/
def assign : Shape := mark "=" ["=", ">"]

/-- A semicolon, or the place where it is left out. -/
def semicolon (ending : StatementEnd) : Shape := .alt (.ending ending) (sign ";")

/-- A word that is a keyword only when the statement cannot end after it. -/
def soft (ending : StatementEnd) (text : String) : Shape :=
  .seq (word text) (.without (.ending ending))

/-- A whole expression, without a comma. -/
def expression (place : Place) : Shape := .call (.expression place 1 true)

/-- One expression or several with commas between them. -/
def expressions (place : Place) : Shape := .call (.expressions place)

def type (place : TypePlace) : Shape := .call (.type place)

/-- A colon and a type. -/
def typeAscription (place : TypePlace) : Shape :=
  .node .typeAscription (.seq (sign ":") (type place))

/-- An equals sign and a value. -/
def initializer (place : Place) : Shape := .seq assign (.role .value (expression place))

def block : Shape := .call .block

/-- Fits where a rule does, and takes nothing. -/
def ahead (rule : Shape) : Shape := .without (.without rule)

/-- A clause that may be left out, but not where the keyword that begins it follows. -/
def clause (keyword : String) (body : Shape) (kind : Kind) : Shape :=
  .alt (.node kind (.seq (word keyword) body)) (.without (word keyword))

/-- Fits where the statement cannot end. -/
def goesOn (ending : Option StatementEnd) : Shape :=
  match ending with
  | some ending => .without (.ending ending)
  | none => .empty

/-- Expressions in parentheses, possibly with a type. -/
def parenthesized : Shape :=
  .node .parenthesizedExpression
    (parens (.seq (expressions .enclosed) (opt (typeAscription .enclosed))))

end Shape

end Scaffold.Syntax
