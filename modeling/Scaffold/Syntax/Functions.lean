import Scaffold.Syntax.Types

/-! # Patterns, parameters and function heads

A pattern names what a value or its parts are bound to. The patterns of declarations and parameters
bind names only; those of assignments may also reach properties.
-/

namespace Scaffold.Syntax.Shape

open Rule

/-- A pattern that takes a value apart. In an assignment the parts may go to properties. -/
def destructuring (assigned : Bool) : Shape :=
  let nested := .call (.destructuring assigned)
  let part := if assigned then .alt nested (.call .target) else .alt nested identifier
  let byDefault left := seqs [.role .left left, assign, .role .right (expression .enclosed)]
  let element := .alt (.node .assignmentPattern (byDefault part)) part
  let rest := .node .restPattern (.seq (sign "...") part)
  let shorthand := name .shorthandPropertyIdentifierPattern []
  let property := alts [
    .node .pairPattern (seqs [.role .key (.call (.propertyName [])), sign ":", .role .value element]),
    rest,
    .node .objectAssignmentPattern (byDefault shorthand),
    shorthand]
  .alt (.node .objectPattern (braces (holed property)))
    (.node .arrayPattern (brackets (holed (.alt rest element))))

/-- What a declaration binds. -/
def binding : Shape := .alt identifier (.call (.destructuring false))

def overrideModifier : Shape := .node .overrideModifier (word "override")

/-- A parameter of a function. A question mark makes it optional, unless it would open a conditional
expression. -/
def parameter : Shape :=
  let bound := alts [
    .leaf .this (.word "this"),
    binding,
    .node .restPattern (.seq (sign "...") binding)]
  let head := modified [accessibility, overrideModifier, word "readonly"] (.role .pattern bound)
  let type := opt (typeAscription .enclosed)
  let optional := barring (.leaf (.token "?") .questionMark) (sign "?")
  let decorators := .many (.call .decorator)
  let value := opt (initializer .enclosed)
  .alt (.node .optionalParameter (seqs [decorators, head, optional, type, value]))
    (.node .requiredParameter (seqs [decorators, head, type, value]))

def parameters : Shape := .node .formalParameters (parens (series parameter))

/-- The head of a function: its type parameters, its parameters and what it returns. -/
def signature (place : TypePlace) : Shape :=
  seqs [opt (.call .typeParameters), .role .parameters (.call .parameters),
    opt (resultAscription place)]

/-- The end of a function's result type, where a body or an omitted semicolon may follow. -/
def resultPlace : TypePlace := ⟨some .signature, true, false, false⟩

/-- A function as an expression. -/
def functionExpression : Shape :=
  let plain (kind : Kind) (star : Shape) := .node kind
    (seqs [opt (word "async"), word "function", star, opt (.role .name identifier),
      .call (.signature resultPlace), .role .body block])
  .alt (plain .generatorFunction (sign "*")) (plain .functionExpression .empty)

/-- A function as a declaration, with or without a body. -/
def functionDeclaration : Shape :=
  let head (star : Shape) := seqs [opt (word "async"), word "function", star, .role .name identifier,
    .call (.signature resultPlace)]
  alts [
    .node .generatorFunctionDeclaration (.seq (head (sign "*")) (.role .body block)),
    .node .functionDeclaration (.seq (head .empty) (.role .body block)),
    .node .functionSignature (.seq (head .empty) (semicolon .signature))]

/-- A function with an arrow. Where the result type may not be declared, a colon ends the head. A
result type that swallows the arrow is read again as one that is not a function. -/
def arrowFunction (place : Place) : Shape :=
  let head (result : Shape) := seqs [opt (.call .typeParameters), .role .parameters (.call .parameters), result]
  let typed (functions : Bool) := .seq
    (head (opt (resultAscription { TypePlace.enclosed with functions := functions }))) (sign "=>")
  let untyped := .seq (head .empty) (sign "=>")
  let single := .seq (.role .pattern identifier) (sign "=>")
  let heads := if place.typedArrows then alts [single, typed true, typed false] else .alt single untyped
  let body := .role .body (.alt block (barring (sign "\x7b") (expression place)))
  .node .arrowFunction (.seq (modified [word "async"] heads) body)

end Scaffold.Syntax.Shape
