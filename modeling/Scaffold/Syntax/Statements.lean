import Scaffold.Syntax.Classes
import Scaffold.Syntax.Modules

/-! # Declarations and statements -/

namespace Scaffold.Syntax.Shape

open Rule

/-- The variables that a declaration declares, up to its end. How the end may be left out depends on
whether the last of them has a value. The first name after `let` may not be one of some operators. -/
def declaratorsRule (first : Bool) : Shape :=
  let bound := if first then barring (words ["as", "satisfies", "in", "instanceof"]) binding else binding
  let typed := .seq (.role .name bound) (opt (typeAscription .final))
  let certain := seqs [.role .name identifier, sign "!", typeAscription .final]
  let rest (ending : StatementEnd) := .alt (.seq (sign ",") (.call (.declarators false))) (semicolon ending)
  alts [
    .seq (.node .variableDeclarator certain) (rest .type),
    .seq (.node .variableDeclarator (.seq typed (initializer .final))) (rest .expression),
    .seq (.node .variableDeclarator typed) (rest .type)]

def lexicalDeclaration : Shape :=
  .node .lexicalDeclaration
    (.alt (.seq (word "let") (.call (.declarators true)))
      (seqs [word "const", .without (word "enum"), .call (.declarators false)]))

def variableDeclaration : Shape :=
  .node .variableDeclaration (.seq (word "var") (.call (.declarators false)))

def className : Shape := .role .name (name .typeIdentifier [])

def classDeclaration : Shape :=
  let decorators := .many (.call .decorator)
  .alt
    (.node .classDeclaration
      (seqs [decorators, word "class", className, .call .classMembers, opt (.ending .expression)]))
    (.node .abstractClassDeclaration
      (seqs [decorators, word "abstract", word "class", className, .call .classMembers]))

def interfaceDeclaration : Shape :=
  .node .interfaceDeclaration (seqs [word "interface", className, opt (.call .typeParameters),
    opt (.node .extendsTypeClause (.seq (word "extends") (listed (namedType .enclosed)))),
    .role .body (.node .interfaceBody (.call .typeMembers))])

def typeAlias : Shape :=
  .node .typeAliasDeclaration (seqs [soft .expression "type", className, opt (.call .typeParameters),
    sign "=", .role .value (type .final), semicolon .type])

def enumDeclaration : Shape :=
  let key := .role .name (.call (.propertyName []))
  let member := .alt (.node .enumAssignment (.seq key (initializer .enclosed))) key
  .node .enumDeclaration (seqs [opt (word "const"), word "enum", .role .name (name .identifier []),
    .role .body (.node .enumBody (braces (series member)))])

/-- A namespace, or a module that is named by a string. -/
def namespaceDeclaration : Shape :=
  let rest := .seq (.role .name (.alt stringLiteral nestedName)) (opt (.role .body block))
  .alt (.node .namespaceDeclaration (.seq (soft .expression "namespace") rest))
    (.node .moduleDeclaration (.seq (soft .expression "module") rest))

def ambientDeclaration : Shape :=
  .node .ambientDeclaration (.seq (soft .expression "declare") (alts [
    .call .declaration,
    .seq (word "global") block,
    seqs [word "module", sign ".", propertyIdentifier, sign ":", type .final, semicolon .type]]))

def declaration : Shape :=
  alts [functionDeclaration, classDeclaration, enumDeclaration, lexicalDeclaration, variableDeclaration,
    namespaceDeclaration, typeAlias, interfaceDeclaration, importAlias, ambientDeclaration]

def statement : Shape := .call .statement

def ifStatement : Shape :=
  .node .ifStatement (seqs [word "if", parenthesized, statement,
    clause "else" statement .elseClause])

def switchStatement : Shape :=
  let body := .seq (sign ":") (.many statement)
  let case := .alt
    (.node .switchCase (seqs [word "case", .role .value (expressions .enclosed), body]))
    (.node .switchDefault (.seq (word "default") body))
  .node .switchStatement (seqs [word "switch", parenthesized,
    .node .switchBody (seqs [sign "\x7b", .items case, sign "\x7d"])])

def forStatement : Shape :=
  let nothing := .node .emptyStatement (sign ";")
  let ended := .seq (expressions .enclosed) (sign ";")
  .node .forStatement (seqs [word "for",
    parens (seqs [alts [lexicalDeclaration, variableDeclaration, ended, nothing], .alt ended nothing,
      opt (expressions .enclosed)]),
    statement])

def forInStatement : Shape :=
  let operator := words ["in", "of"]
  let unrelated := .seq assign (.role .value (.call (.expression .enclosed (comparisonBinding + 1) false)))
  let left := alts ([
    seqs [word "var", .role .left binding, opt (initializer .enclosed)],
    seqs [word "var", .role .left binding, unrelated],
    .seq (words ["let", "const"]) (.role .left binding),
    .role .left (.call (.destructuring true)),
    .role .left (.call .target),
    .role .left parenthesized].map fun left => .seq left operator)
  .node .forInStatement (seqs [word "for", opt (word "await"),
    parens (.seq left (.role .right (expressions .enclosed))), statement])

def tryStatement : Shape :=
  let caught := parens (.seq binding (opt (typeAscription .enclosed)))
  .node .tryStatement (seqs [word "try", block,
    clause "catch" (.seq (opt caught) block) .catchClause,
    clause "finally" block .finallyClause])

/-- A jump, perhaps with a label on the same line. -/
def jump (kind : Kind) (text : String) : Shape :=
  .node kind (seqs [word text,
    opt (.seq (goesOn (some .expression)) (name .statementIdentifier [])), semicolon .expression])

def labeledStatement : Shape :=
  .node .labeledStatement
    (seqs [name .statementIdentifier (expressionWords ++ statementWords), sign ":", statement])

/-- An expression as a statement. The word `export` is a name where no export can go on. -/
def expressionStatement : Shape :=
  let exported := .seq (word "export") (.alt (sign "*") assign)
  .node .expressionStatement (barring (alts [sign "\x7b", words statementWords, exported])
    (.seq (expressions .final) (semicolon .expression)))

def statementRule : Shape :=
  alts [
    block, exportStatement, importStatement, .call .declaration,
    ifStatement, switchStatement, forInStatement, forStatement,
    .node .whileStatement (seqs [word "while", parenthesized, statement]),
    .node .doStatement (seqs [word "do", statement, word "while", parenthesized, opt (semicolon .expression)]),
    tryStatement,
    .node .withStatement (seqs [word "with", parenthesized, statement]),
    jump .breakStatement "break", jump .continueStatement "continue",
    .node .debuggerStatement (.seq (word "debugger") (semicolon .expression)),
    .node .returnStatement (seqs [word "return",
      opt (.seq (goesOn (some .expression)) (expressions .final)), semicolon .expression]),
    .node .throwStatement (seqs [word "throw", expressions .final, semicolon .expression]),
    .node .emptyStatement (sign ";"),
    labeledStatement,
    expressionStatement]

/-- Statements in braces. An omitted semicolon behind them is part of the block. -/
def blockRule : Shape :=
  .node .statementBlock
    (seqs [sign "\x7b", .items statement, sign "\x7d", opt (.ending .expression)])

end Scaffold.Syntax.Shape
