import Scaffold.Syntax.Expressions

/-! # Markup elements

Elements stand where an operand may in files that hold markup. The name of a closing tag is not
compared with that of the opening one.
-/

namespace Scaffold.Syntax.Shape

open Rule

def tagName : Shape := .alt (.leaf .identifier .markupName) (name .identifier [])

/-- A tag or an attribute name with a namespace. -/
def qualifiedName : Shape := .node .markupNamespaceName (seqs [tagName, sign ":", tagName])

/-- The name of an element, which may be reached through other names. -/
def elementName : Shape :=
  .alt qualifiedName (.grow tagName .empty
    [.mk anyKind .memberExpression (some .object) (.seq (sign ".") (.role .property propertyIdentifier))])

/-- An expression in braces. -/
def markupExpression : Shape :=
  .node .markupExpression (braces (opt (.alt spread (expressions .enclosed))))

def markupAttribute : Shape :=
  let attributeName := .alt qualifiedName
    (.alt (.leaf .propertyIdentifier .markupName) (name .propertyIdentifier []))
  let value := alts [.leaf .string .markupString, markupExpression, .call .markupElement]
  .node .markupAttribute (.seq attributeName (opt (.seq (sign "=") value)))

def markupElement : Shape :=
  let attributes := .many (.alt markupExpression markupAttribute)
  let tagged := seqs [elementName, opt (.call (.typeArguments false)), attributes]
  let child := alts [
    .glued .markupText .markupText,
    .leaf .characterReference .characterReference,
    markupExpression,
    .call .markupElement]
  let closing := .node .markupClosing (seqs [sign "</", opt elementName, sign ">"])
  .alt (.node .markupSelfClosing (seqs [mark "<" ["/"], tagged, sign "/>"]))
    (.node .markupElement (seqs [
      .node .markupOpening (seqs [mark "<" ["/"], opt tagged, sign ">"]),
      .many child, closing]))

end Scaffold.Syntax.Shape
