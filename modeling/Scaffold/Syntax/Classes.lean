import Scaffold.Syntax.Expressions

/-! # Classes

The members of classes. A word such as `static` in front of a name is a modifier only on the same
line, for a field of that name may end there.
-/

namespace Scaffold.Syntax.Shape

open Rule

/-- An at sign and a name, a call, or an expression in parentheses. -/
def decorator : Shape :=
  let reached := .grow identifier .empty
    [.mk anyKind .memberExpression (some .object) (.seq (sign ".") (.role .property propertyIdentifier))]
  let called := .node .callExpression
    (seqs [.role .function reached, opt callTypes, .role .arguments (.call .arguments)])
  .node .decorator (.seq (sign "@") (alts [called, reached, parenthesized]))

/-- What a class extends: an expression that no operator ends, for the brace behind it begins the body of
the class. -/
def extendsClause : Shape :=
  let value := .seq
    (.grow (.call (.operand .enclosed)) .empty
      (accessTails ++ [callTail, typedCallTail] ++ assertionTails .enclosed ++
        [.mk anyKind .instantiationExpression none (.seq callTypes (ahead (sign ".")))]))
    (opt (.call (.typeArguments false)))
  .node .extendsClause (.seq (word "extends") (listed value))

def implementsClause : Shape :=
  .node .implementsClause (.seq (word "implements") (listed (type .enclosed)))

/-- The words that cannot name a member of a class. -/
def memberReserved : List String := ["abstract", "accessor"]

def memberName : Shape := .role .name (.call (.propertyName memberReserved))

/-- A modifier of a class member. -/
def modifier (text : String) : Shape := soft .type text

def memberAccess : Shape :=
  .node .accessibilityModifier (alts [modifier "public", modifier "private", modifier "protected"])

def memberOverride : Shape := .node .overrideModifier (modifier "override")

/-- A method without a body. -/
def methodSignature : Shape :=
  .node .methodSignature (modified
    [memberAccess, modifier "static", memberOverride, modifier "readonly", modifier "async",
      alts [modifier "get", modifier "set", sign "*"]]
    (seqs [memberName, opt (sign "?"), .call (.signature resultPlace)]))

/-- An abstract method. -/
def abstractMethodSignature : Shape :=
  .node .abstractMethodSignature (seqs [opt memberAccess, word "abstract", modified
    [memberOverride, alts [modifier "get", modifier "set", sign "*"]]
    (seqs [memberName, opt (sign "?"), .call (.signature resultPlace)])])

/-- A field with what ends it. -/
def field : Shape :=
  let body := seqs [memberName, opt (.alt (sign "?") (sign "!")), opt (typeAscription .final)]
  let marked := alts [
    seqs [modifier "readonly", word "abstract", body],
    modified [modifier "static", memberOverride, modifier "readonly"] body,
    .seq (word "abstract") (modified [modifier "readonly"] body),
    .seq (modifier "accessor") body]
  let head := .seq (.many (.call .decorator)) (alts [
    .seq (modifier "declare") (modified [memberAccess] marked),
    .seq memberAccess (modified [modifier "declare"] marked),
    marked])
  let separator (ending : StatementEnd) := .alt (semicolon ending) (sign ",")
  .alt (.seq (.node .publicFieldDefinition (.seq head (initializer .final))) (separator .expression))
    (.seq (.node .publicFieldDefinition head) (separator .type))

/-- An item of a class body. -/
def classMember : Shape :=
  let separator := .alt (semicolon .signature) (sign ",")
  alts [
    sign ";",
    .node .classStaticBlock (.seq (word "static") (.role .body block)),
    .seq (methodDefinition modifier memberReserved) (opt (sign ";")),
    .seq abstractMethodSignature separator,
    .seq (indexSignature .final) (.alt (semicolon .type) (sign ",")),
    .seq methodSignature separator,
    field,
    .call .decorator]

/-- What follows the name of a class. -/
def classRest : Shape :=
  seqs [opt (.call .typeParameters),
    opt (.node .classHeritage (.alt (.seq extendsClause (opt implementsClause)) implementsClause)),
    .role .body (.node .classBody (seqs [sign "\x7b", .items classMember, sign "\x7d"]))]

end Scaffold.Syntax.Shape
