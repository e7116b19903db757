import Scaffold.Syntax.Expressions

/-! # Imports and exports -/

namespace Scaffold.Syntax.Shape

open Rule

/-- The word that marks an import or export as one of types. -/
def typeMarker : Shape := words ["type", "typeof"]

/-- In front of an imported name the word is a name itself where `as` follows. -/
def specifierMarker : Shape := .seq typeMarker (.without (word "as"))

/-- A name across modules: a name or a string literal. -/
def moduleName (role : Role) : Shape := .role role (.alt (name .identifier []) stringLiteral)

def localName (role : Role) : Shape := .role role (name .identifier [])

/-- The module that something comes from. -/
def fromClause : Shape := .seq (word "from") (.role .source stringLiteral)

def importSpecifier : Shape :=
  .node .importSpecifier (modified [specifierMarker]
    (.alt (seqs [moduleName .name, word "as", localName .alias]) (localName .name)))

def namedImports : Shape := .node .namedImports (braces (trailing importSpecifier))

def namespaceImport : Shape :=
  .node .namespaceImport (seqs [sign "*", word "as", name .identifier []])

def importClause : Shape :=
  let bundle := .alt namespaceImport namedImports
  .node .importClause
    (.alt bundle (.seq (name .identifier []) (opt (.seq (sign ",") bundle))))

/-- A name of one or more parts. -/
def nestedName : Shape :=
  .grow (name .identifier []) .empty
    [.mk anyKind .nestedIdentifier (some .object) (.seq (sign ".") (.role .property propertyIdentifier))]

def importStatement : Shape :=
  let required := .node .importRequireClause (seqs [name .identifier [], sign "=", word "require",
    parens (.role .source stringLiteral)])
  let settings := .node .importAttribute (.seq (words ["with", "assert"]) (.call .object))
  .node .importStatement (seqs [word "import",
    modified [typeMarker] (alts [.seq importClause fromClause, required, .role .source stringLiteral]),
    opt (.seq (goesOn (some .expression)) settings), semicolon .expression])

/-- A local name for a name of a namespace. -/
def importAlias : Shape :=
  .node .importAlias (seqs [word "import", localName .name, sign "=", nestedName, semicolon .type])

/-- In an exported name the word is never the name itself. -/
def exportClause : Shape :=
  let specifier := .node .exportSpecifier (.seq (opt typeMarker)
    (.seq (moduleName .name) (opt (.seq (word "as") (moduleName .alias)))))
  .node .exportClause (braces (trailing specifier))

def exportStatement : Shape :=
  let namespaceExport := .node .namespaceExport (seqs [sign "*", word "as", moduleName .name])
  let declared := .alt (.call .declaration)
    (.seq (word "default") (.alt (.call .declaration)
      (.seq (.role .value (expression .final)) (semicolon .expression))))
  .node .exportStatement (alts [
    seqs [word "export", alts [
      .seq (sign "*") fromClause,
      .seq namespaceExport fromClause,
      .seq exportClause (opt fromClause),
      seqs [word "type", exportClause, opt fromClause],
      seqs [word "as", word "namespace", name .identifier []]], semicolon .expression],
    seqs [.many (.call .decorator), word "export", declared],
    seqs [word "export", importAlias],
    seqs [word "export", assign, expression .final, semicolon .expression]])

end Scaffold.Syntax.Shape
