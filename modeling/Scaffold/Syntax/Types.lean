import Scaffold.Syntax.Symbol

/-! # Types

The rules for types, for type arguments and type parameters, and for the members of object types.
-/

namespace Scaffold.Syntax.Shape

open Rule

/-- The words that begin a type of their own and are no names there. -/
def typeWords : List String :=
  ["typeof", "keyof", "readonly", "infer", "new", "abstract", "unique", "this", "import"]

def typeIdentifier : Shape := name .typeIdentifier []

def anyKind : Kind → Bool := fun _ => true

/-- The call `import('…')` and the names reached from it; no name follows it in a comparison. -/
def importedType : Shape :=
  .grow
    (.node .callExpression
      (.seq (.role .function (.leaf .importKeyword (.word "import"))) (.role .arguments (.call .arguments))))
    .empty
    [.mk anyKind .memberExpression (some .object) (.seq (sign ".") (.role .property propertyIdentifier))]

/-- What `typeof` may be asked about. -/
def queried (place : TypePlace) : Shape :=
  let base := alts [.leaf .this (.word "this"), if place.inCall then .never else importedType,
    name .identifier ["this", "import"]]
  .grow base (goesOn place.ending)
    [.mk anyKind .memberExpression (some .object)
        (.seq (.alt (sign ".") (sign "?."))
          (.role .property (.alt (.leaf .privatePropertyIdentifier .privateName) propertyIdentifier))),
      .mk anyKind .callExpression (some .function) (.role .arguments (.call .arguments)),
      .mk anyKind .instantiationExpression none (.call (.typeArguments place.inCall))]

/-- A name of one or more parts, which may have type arguments. -/
def namedType (place : TypePlace) : Shape :=
  let part : Tail Symbol := .mk anyKind .nestedTypeIdentifier none (.seq (sign ".") typeIdentifier)
  let lastPart : Tail Symbol := .mk (· = .typeIdentifier) .nestedTypeIdentifier none
    (.seq (sign ".") typeIdentifier)
  let arrayPart : Tail Symbol := .mk (· = .nestedTypeIdentifier) .arrayType none
    (seqs [sign ".", typeIdentifier, sign "[", sign "]"])
  let base := name .typeIdentifier typeWords
  let dotted :=
    if place.shortNames then .grow base (goesOn place.ending) [lastPart, arrayPart]
    else .grow base (goesOn place.ending) [part]
  .grow dotted (goesOn place.ending)
    [.mk (fun kind => kind = .typeIdentifier || kind = .nestedTypeIdentifier) .genericType none
      (.call (.typeArguments place.inCall))]

/-- A member of a tuple type. -/
def tupleMember (place : TypePlace) : Shape :=
  let inner := { TypePlace.enclosed with inCall := place.inCall }
  let label := name .identifier []
  let rest := .node .restPattern (.seq (sign "...") label)
  alts [
    .node .optionalParameter (seqs [label, sign "?", typeAscription inner]),
    .node .requiredParameter (.seq (.alt label rest) (typeAscription inner)),
    .node .restType (.seq (sign "...") (type inner)),
    if place.inCall then type inner
    else .alt (.node .optionalType (.seq (type inner) (sign "?"))) (type inner)]

/-- A template whose substitutions are types. -/
def templateType : Shape :=
  .node .templateLiteralType (seqs [sign "\x60",
    .many (alts [
      .glued .stringFragment .templateChars,
      .node .templateType (seqs [.glued (.token "$\x7b") (.mark "$\x7b" []), type .enclosed, sign "\x7d"])]),
    .glued (.token "\x60") (.mark "\x60" [])])

/-- A type to which no operator is applied, without what may follow it in brackets. -/
def atomicType (place : TypePlace) : Shape :=
  let inner := { TypePlace.enclosed with inCall := place.inCall }
  alts [
    .node .parenthesizedType (parens (type inner)),
    .node .typeQuery (.seq (word "typeof") (queried place)),
    .node .indexTypeQuery (.seq (word "keyof") (.call (.simpleType place))),
    .node .objectType (.call .typeMembers),
    .node .tupleType (brackets (trailing (tupleMember place))),
    templateType,
    .node .literalType (.alt stringLiteral (.seq (opt (.alt (sign "-") (sign "+"))) (.leaf .number .number))),
    .node .literalType (words ["true", "false", "null", "undefined"]),
    .node .predefinedType (.seq (word "unique") (word "symbol")),
    .leaf .thisType (.word "this"),
    .leaf .existentialType (.mark "*" []),
    .node .maybeType (.seq (sign "?") (.call (.simpleType place))),
    namedType place]

/-- A type to which no operator is applied. -/
def simpleType (place : TypePlace) : Shape :=
  .grow (atomicType place) (goesOn place.ending)
    [.mk anyKind .arrayType none (.seq (sign "[") (sign "]")),
      .mk anyKind .lookupType none (brackets (type .enclosed))]

/-- Whom a statement about an argument concerns. -/
def subject : Shape := .alt (.leaf .this (.word "this")) (name .identifier ["this"])

/-- What the result of a function says about the type of an argument. -/
def typePredicate (place : TypePlace) : Shape :=
  .node .typePredicate (seqs [subject, word "is", type place])

/-- What the return of a function says about an argument. -/
def asserted (place : TypePlace) : Shape :=
  .node .asserts (.seq (word "asserts") (.alt (typePredicate place) subject))

/-- A colon and what a function returns. -/
def resultAscription (place : TypePlace) : Shape :=
  alts [
    .node .assertsAscription (.seq (sign ":") (asserted place)),
    .node .typePredicateAscription (.seq (sign ":") (typePredicate place)),
    typeAscription place]

/-- The type of a function. -/
def functionType (place : TypePlace) : Shape :=
  let result := { place with functions := true }
  .node .functionType (seqs [opt (.call .typeParameters), .call .parameters, sign "=>",
    alts [asserted result, typePredicate result, type result]])

/-- The type of a constructor. -/
def constructorType (place : TypePlace) : Shape :=
  .node .constructorType (seqs [opt (word "abstract"), word "new", opt (.call .typeParameters),
    .call .parameters, sign "=>", type { place with functions := true }])

/-- An operand of the type operators. -/
def typeOperand (place : TypePlace) : Shape :=
  alts [
    if place.functions then functionType place else .never,
    constructorType place,
    .node .readonlyType (.seq (word "readonly") (type place)),
    .node .inferType (seqs [word "infer", typeIdentifier, opt (.seq (word "extends") (type place))]),
    if place.inCall then .never else importedType,
    .call (.simpleType place)]

/-- A type. -/
def typeRule (place : TypePlace) : Shape :=
  let operand := typeOperand place
  let base := alts [
    .node .unionType (.seq (sign "|") operand),
    .node .intersectionType (.seq (sign "&") operand),
    operand]
  .grow base (goesOn place.ending)
    [.mk anyKind .unionType none (.seq (sign "|") operand),
      .mk anyKind .intersectionType none (.seq (sign "&") operand),
      .mk anyKind .conditionalType none
        (seqs [word "extends", type place, sign "?", type place, sign ":", type place])]

def typeArguments (inCall : Bool) : Shape :=
  let inner := { TypePlace.enclosed with inCall := inCall }
  .node .typeArguments
    (seqs [if inCall then mark "<" ["<", "="] else sign "<", listed (type inner), opt (sign ","), sign ">"])

def typeParameters : Shape :=
  let parameter := .node .typeParameter (modified [word "const"]
    (seqs [typeIdentifier,
      opt (.node .constraint (.seq (.alt (word "extends") (sign ":")) (type .enclosed))),
      opt (.node .defaultType (.seq (sign "=") (type .enclosed)))]))
  .node .typeParameters (seqs [sign "<", listed parameter, opt (sign ","), sign ">"])

/-- The names under which a property can be reached, some words excepted. -/
def propertyName (reserved : List String) : Shape :=
  alts [
    name .propertyIdentifier reserved,
    .leaf .privatePropertyIdentifier .privateName,
    stringLiteral,
    .leaf .number .number,
    .node .computedPropertyName (brackets (expression .enclosed))]

/-- A name with a type in brackets, for all properties at once. -/
def indexSignature (place : TypePlace) : Shape :=
  let mapped := .node .mappedTypeClause (seqs [typeIdentifier, word "in", type .enclosed,
    opt (.seq (word "as") (type .enclosed))])
  let single := seqs [name .identifier [], sign ":", type .enclosed]
  let annotated kind text := .node kind (.seq (sign text) (type place))
  .node .indexSignature (seqs [
    opt (.seq (opt (.alt (sign "-") (sign "+"))) (word "readonly")),
    brackets (.alt single mapped),
    alts [typeAscription place, annotated .omittingTypeAscription "-?:",
      annotated .addingTypeAscription "+?:", annotated .optingTypeAscription "?:"]])

/-- The words that grant access to a member. -/
def accessibility : Shape :=
  .node .accessibilityModifier (words ["public", "private", "protected"])

/-- A member of an object type. -/
def typeMember : Shape :=
  let memberName := .role .name (.call (.propertyName ["abstract"]))
  let signature := .call (.signature .final)
  alts [
    .node .callSignature signature,
    .node .constructSignature (seqs [opt (word "abstract"), word "new", opt (.call .typeParameters),
      .call .parameters, opt (typeAscription .final)]),
    indexSignature .final,
    .node .methodSignature (modified
      [accessibility, word "static", .node .overrideModifier (word "override"), word "readonly",
        word "async", alts [word "get", word "set", sign "*"]]
      (seqs [memberName, opt (sign "?"), signature])),
    .node .propertySignature (modified
      [accessibility, word "static", .node .overrideModifier (word "override"), word "readonly"]
      (seqs [memberName, opt (sign "?"), opt (typeAscription .final)]))]

/-- The members of an object type or of an interface, without a kind of their own. -/
def typeMembers : Shape :=
  let separator := .alt (sign ",") (semicolon .type)
  let body := opt (seqs [opt (.alt (sign ",") (sign ";")), typeMember, .many (.seq separator typeMember),
    opt separator])
  .alt (braces body) (seqs [sign "\x7b|", body, sign "|\x7d"])

end Scaffold.Syntax.Shape
