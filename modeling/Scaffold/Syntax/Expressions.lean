import Scaffold.Syntax.Functions

/-! # Expressions

An expression is an operand that is extended by tails: accesses, calls, operators. Each tail has a
binding, and an expression takes only the tails that bind at least as tightly as it has to. An
assignment binds as tightly as its target, so that it needs no parentheses after an operator.
-/

namespace Scaffold.Syntax.Shape

open Rule

/-- The bindings of the operators that have one operand or three. -/
def ternaryBinding : Nat := 2
def assertionBinding : Nat := 3
def comparisonBinding : Nat := 11
def unaryBinding : Nat := 17
def updateBinding : Nat := 17
def callBinding : Nat := 18

/-- What can be called with a template or through `?.`, and what an assertion leaves as it is. -/
def isPrimary : Kind → Bool
  | .subscriptExpression | .memberExpression | .parenthesizedExpression | .identifier | .undefined
  | .this | .super | .number | .string | .templateString | .regex | .trueLiteral | .falseLiteral
  | .nullLiteral | .object | .array | .functionExpression | .arrowFunction | .generatorFunction
  | .classExpression | .metaProperty | .callExpression | .nonNullExpression => true
  | _ => false

/-- What a value can be assigned to. -/
def isAssignable : Kind → Bool
  | .identifier | .undefined | .memberExpression | .subscriptExpression | .nonNullExpression
  | .parenthesizedExpression => true
  | _ => false

/-- What a part of a value can be assigned to. -/
def isTarget : Kind → Bool
  | .identifier | .undefined | .memberExpression | .subscriptExpression | .nonNullExpression => true
  | _ => false

/-- The operators between two operands, with their binding. -/
def binaryOperators : List (Nat × List Shape) :=
  [(4, [mark "??" ["="]]),
    (5, [mark "||" ["="]]),
    (6, [mark "&&" ["="]]),
    (7, [mark "|" ["|", "="]]),
    (8, [mark "^" ["="]]),
    (9, [mark "&" ["&", "="]]),
    (10, [sign "===", sign "!==", mark "==" ["="], mark "!=" ["="]]),
    (comparisonBinding, [sign "<=", mark ">=" [], mark "<" ["<", "="], mark ">" [">", "="],
      word "in", word "instanceof"]),
    (12, [mark "<<" ["="], mark ">>>" ["="], mark ">>" [">", "="]]),
    (13, [mark "+" ["+", "="], mark "-" ["-", "="]]),
    (14, [mark "*" ["*", "="], mark "/" ["="], mark "%" ["="]])]

/-- The operator that groups to the right. -/
def powerBinding : Nat := 15

/-- The operators that combine a value with what it is assigned to. -/
def updatingOperators : List String :=
  ["+=", "-=", "*=", "/=", "%=", "^=", "&=", "|=", ">>>=", ">>=", "<<=", "**=", "&&=", "||=", "??="]

def spread : Shape := .node .spreadElement (.seq (sign "...") (expression .enclosed))

def arguments : Shape :=
  .node .arguments (parens (holed (.alt spread (expression .enclosed))))

def array : Shape := .node .array (brackets (holed (.alt spread (expression .enclosed))))

/-- A template with what is substituted into it. -/
def template : Shape :=
  .node .templateString (seqs [sign "\x60",
    .many (alts [
      .glued .stringFragment .templateChars,
      .glued .escapeSequence .escape,
      .node .templateSubstitution
        (seqs [.glued (.token "$\x7b") (.mark "$\x7b" []), expressions .enclosed, sign "\x7d"])]),
    .glued (.token "\x60") (.mark "\x60" [])])

/-- A method with its body. The guard says when a word in front of the name is a modifier. -/
def methodDefinition (modifier : String → Shape) (reserved : List String) : Shape :=
  .node .methodDefinition (modified
    [.node .accessibilityModifier (alts [modifier "public", modifier "private", modifier "protected"]),
      modifier "static", .node .overrideModifier (modifier "override"), modifier "readonly",
      modifier "async", alts [modifier "get", modifier "set", sign "*"]]
    (seqs [.role .name (.call (.propertyName reserved)), opt (sign "?"), .call (.signature resultPlace),
      .role .body block]))

def object : Shape :=
  .node .object (braces (holed (alts [
    methodDefinition word [],
    .node .pair (seqs [.role .key (.call (.propertyName [])), sign ":", .role .value (expression .enclosed)]),
    spread,
    name .shorthandPropertyIdentifier []])))

/-- Type arguments in front of the arguments of a call. -/
def callTypes : Shape := .call (.typeArguments true)

/-- What is read from a value. -/
def accessTails : List (Tail Symbol) :=
  let property := .role .property
    (.alt (.leaf .privatePropertyIdentifier .privateName) propertyIdentifier)
  let chain := .leaf .optionalChain
    (.mark "?." ["0", "1", "2", "3", "4", "5", "6", "7", "8", "9"])
  let index := brackets (.role .index (expressions .enclosed))
  let arguments := .role .arguments (.call .arguments)
  [.mk anyKind .memberExpression (some .object) (.seq (sign ".") property),
    .mk anyKind .memberExpression (some .object) (.seq chain property),
    .mk anyKind .subscriptExpression (some .object) (.seq chain index),
    .mk isPrimary .callExpression (some .function)
      (seqs [sign "?.", opt callTypes, arguments]),
    .mk anyKind .subscriptExpression (some .object) index,
    .mk (fun kind => isPrimary kind || kind = .newExpression) .callExpression (some .function)
      (.role .arguments (.call .template))]

/-- A call of a value. -/
def callTail : Tail Symbol :=
  .mk anyKind .callExpression (some .function) (.role .arguments (.call .arguments))

/-- A call with type arguments. -/
def typedCallTail : Tail Symbol :=
  .mk anyKind .callExpression (some .function)
    (.seq callTypes (.role .arguments (.call .arguments)))

def nonNullTail : Tail Symbol := .mk anyKind .nonNullExpression none (mark "!" ["="])

/-- What shows that an operand follows, so that angle brackets before it compare. -/
def operandStart : Shape :=
  alts [
    name .identifier (["as", "satisfies", "in", "instanceof", "of", "let", "extends", "implements"] ++
      statementWords),
    .leaf .number .number, stringLiteral, sign "\x60", sign "(", sign "[", sign "\x7b",
    mark "!" ["="], sign "~", sign "+", sign "-", .leaf .regex .regex]

/-- The assertions behind a value. -/
def assertionTails (place : Place) : List (Tail Symbol) :=
  let ending := if place.openEnded then some StatementEnd.expression else none
  let asserted := { ending := ending, functions := true, inCall := false, shortNames := place.openEnded }
  [nonNullTail,
    .mk anyKind .asExpression none (.seq (word "as") (type asserted)),
    .mk anyKind .satisfiesExpression none (.seq (word "satisfies") (type asserted))]

/-- The operators behind a value that bind at least as tightly as `binding`. -/
def operatorTails (place : Place) (binding : Nat) : List (Tail Symbol) :=
  let from_ (least : Nat) (tails : List (Tail Symbol)) := if binding ≤ least then tails else []
  let binary := binaryOperators.flatMap fun (level, operators) =>
    from_ level [.mk anyKind .binaryExpression (some .left)
      (.seq (alts operators) (.role .right (.call (.expression place (level + 1) false))))]
  let conditional (typedArrows : Bool) := seqs
    [.leaf (.token "?") .questionMark, expression ⟨false, typedArrows⟩, sign ":", expression place]
  binary
    ++ from_ powerBinding [.mk anyKind .binaryExpression (some .left)
      (.seq (mark "**" ["="]) (.role .right (.call (.expression place powerBinding true))))]
    ++ from_ ternaryBinding [.mk anyKind .ternaryExpression none (.alt (conditional true) (conditional false))]
    ++ [.mk isAssignable .assignmentExpression (some .left) (.seq assign (.role .right (expression place))),
      .mk isAssignable .augmentedAssignmentExpression (some .left)
        (.seq (alts (updatingOperators.map sign)) (.role .right (expression place)))]

/-- An expression that takes the tails of a binding and above. Assertions have a low binding, but the
operand of `await` takes them too. -/
def expressionRule (place : Place) (binding : Nat) (assertions : Bool) : Shape :=
  let ending := if place.openEnded then some StatementEnd.expression else none
  let from_ (least : Nat) (tails : List (Tail Symbol)) := if binding ≤ least then tails else []
  let typed := if place.openEnded then comparisonBinding else callBinding
  .grow (.call (.operand place)) (goesOn ending)
    (accessTails ++ [callTail] ++ from_ typed [typedCallTail]
      ++ from_ updateBinding [.mk anyKind .updateExpression (some .argument) (.alt (sign "++") (sign "--"))]
      ++ (if assertions then assertionTails place else [])
      ++ from_ typed [.mk anyKind .instantiationExpression none (.seq callTypes (.without operandStart))]
      ++ operatorTails place binding)

/-- One expression or several with commas between them. -/
def expressionsRule (place : Place) : Shape :=
  .grow (expression place) (goesOn (if place.openEnded then some .expression else none))
    [.mk anyKind .sequenceExpression none
      (.seq (.seq (sign ",") (expression place)) (.many (.seq (sign ",") (expression place))))]

/-- What a part of a value may be assigned to: a name, or a property reached from one. -/
def targetRule : Shape :=
  barring (.alt (sign "[") (sign "\x7b"))
    (.only isTarget (.grow (.call (.operand .enclosed)) .empty (accessTails ++ [callTail, nonNullTail])))

/-- What shows that `new` is not a name: the beginning of a constructor, or of `new.target`. -/
def constructorStart : Shape :=
  alts [name .identifier ["as", "satisfies", "in", "instanceof"], .leaf .number .number, stringLiteral,
    sign "\x60", sign "(", sign "[", sign "\x7b", sign "."]

/-- A new value. Without a constructor, `new` is a name. -/
def newExpression (place : Place) : Shape :=
  let constructor := .grow (.only isPrimary (.call (.operand place))) .empty accessTails
  .node .newExpression (seqs [word "new", goesOn (if place.openEnded then some .expression else none),
    constructor, opt callTypes, opt (.role .arguments (.call .arguments))])

/-- An expression in front of which a pattern is assigned to. -/
def destructuringAssignment (place : Place) : Shape :=
  .node .assignmentExpression (seqs [.role .left (.call (.destructuring true)), assign,
    .role .right (expression place)])

/-- An operand of the operators. -/
def operandRule (place : Place) : Shape :=
  let under (binding : Nat) (assertions : Bool) := .role .argument (.call (.expression place binding assertions))
  let literal (kind : Kind) (text : String) : Shape := .leaf kind (.word text)
  alts [
    arrowFunction place,
    functionExpression,
    .node .classExpression (seqs [.many (.call .decorator), word "class",
      opt (.role .name (name .typeIdentifier ["extends", "implements"])), .call .classMembers]),
    .node .metaProperty (seqs [word "new", sign ".", word "target"]),
    newExpression place,
    .node .awaitExpression (.seq (word "await") (under unaryBinding true)),
    .node .yieldExpression (.seq (word "yield") (.alt (.seq (sign "*") (expression place))
      (opt (.seq (goesOn (if place.openEnded then some .expression else none)) (expression place))))),
    .node .updateExpression (.seq (.alt (sign "++") (sign "--")) (under callBinding false)),
    .node .unaryExpression (.seq (alts [sign "!", sign "~", mark "-" ["-"], mark "+" ["+"], word "typeof",
      word "void", word "delete"]) (under unaryBinding false)),
    parenthesized,
    .seq (.call .array) (.without assign),
    .seq (.call .object) (.without assign),
    destructuringAssignment place,
    .call .template,
    .leaf .number .number,
    stringLiteral,
    .leaf .regex .regex,
    .call (.angled place),
    literal .this "this", literal .super "super", literal .nullLiteral "null",
    literal .trueLiteral "true", literal .falseLiteral "false",
    .node .metaProperty (seqs [word "import", sign ".", word "meta"]),
    .seq (literal .importKeyword "import") (ahead (alts [sign "(", sign "<", sign "."])),
    .seq (.leaf .privatePropertyIdentifier .privateName) (ahead (word "in")),
    literal .undefined "undefined",
    barring (seqs [word "new", goesOn (if place.openEnded then some .expression else none), constructorStart])
      identifier]

/-- A type in angle brackets in front of an expression. -/
def typeAssertion (place : Place) : Shape :=
  .node .typeAssertion (.seq (.call (.typeArguments false))
    (.call (.expression { place with openEnded := false } callBinding false)))

end Scaffold.Syntax.Shape
