import Scaffold.Text.Bytes

/-! # Concrete syntax trees

A tree of a source file records what each stretch of it is and where it lies, in bytes. Punctuation
and keywords are leaves like every other token, so a tree covers its source up to white space, and
comments are ordinary children of the construct that they stand in. A child may carry the role that
it plays in its parent.
-/

namespace Scaffold.Syntax

open Scaffold.Text

/-- What a tree is. `token` is a keyword or a punctuation mark; every other kind is a named one. -/
inductive Kind where
  | token (text : String)
  | error
  | comment | hashBang
  -- whole files and statements
  | program | statementBlock | expressionStatement | emptyStatement | labeledStatement
  | ifStatement | elseClause | switchStatement | switchBody | switchCase | switchDefault
  | forStatement | forInStatement | whileStatement | doStatement | withStatement
  | tryStatement | catchClause | finallyClause
  | breakStatement | continueStatement | returnStatement | throwStatement | debuggerStatement
  -- modules
  | importStatement | importClause | namedImports | importSpecifier | namespaceImport
  | importAttribute | importRequireClause | importAlias
  | exportStatement | exportClause | exportSpecifier | namespaceExport
  -- declarations
  | lexicalDeclaration | variableDeclaration | variableDeclarator
  | functionDeclaration | generatorFunctionDeclaration | functionSignature
  | classDeclaration | abstractClassDeclaration | enumDeclaration | enumBody | enumAssignment
  | interfaceDeclaration | interfaceBody | typeAliasDeclaration | ambientDeclaration
  | namespaceDeclaration | moduleDeclaration
  -- classes
  | classBody | classHeritage | extendsClause | extendsTypeClause | implementsClause
  | methodDefinition | methodSignature | abstractMethodSignature | publicFieldDefinition
  | indexSignature | classStaticBlock | decorator | accessibilityModifier | overrideModifier
  -- parameters and patterns
  | formalParameters | requiredParameter | optionalParameter
  | objectPattern | arrayPattern | pairPattern | restPattern | assignmentPattern
  | objectAssignmentPattern | shorthandPropertyIdentifierPattern
  -- names
  | identifier | undefined | propertyIdentifier | privatePropertyIdentifier | statementIdentifier
  | shorthandPropertyIdentifier | typeIdentifier | nestedIdentifier | computedPropertyName
  -- expressions
  | this | super | nullLiteral | trueLiteral | falseLiteral | number | string | regex
  | templateString | stringFragment | escapeSequence | templateSubstitution
  | object | pair | spreadElement | array | arguments | optionalChain | importKeyword
  | functionExpression | generatorFunction | arrowFunction | classExpression
  | parenthesizedExpression | sequenceExpression | memberExpression | subscriptExpression
  | callExpression | newExpression | metaProperty | awaitExpression | yieldExpression
  | unaryExpression | updateExpression | binaryExpression | ternaryExpression
  | assignmentExpression | augmentedAssignmentExpression
  | asExpression | satisfiesExpression | nonNullExpression | instantiationExpression | typeAssertion
  -- types
  | typeAscription | typePredicateAscription | assertsAscription
  | optingTypeAscription | omittingTypeAscription | addingTypeAscription
  | typeArguments | typeParameters | typeParameter | constraint | defaultType
  | unionType | intersectionType | conditionalType | functionType | constructorType | readonlyType
  | inferType | arrayType | lookupType | tupleType | optionalType | restType | parenthesizedType
  | predefinedType | literalType | templateLiteralType | templateType | genericType
  | nestedTypeIdentifier | typeQuery | indexTypeQuery | thisType | existentialType | maybeType
  | objectType | propertySignature | callSignature | constructSignature | mappedTypeClause
  | typePredicate | asserts
  -- markup elements
  | markupElement | markupOpening | markupClosing | markupSelfClosing | markupAttribute
  | markupExpression | markupText | markupNamespaceName | characterReference
  deriving DecidableEq, Repr, Inhabited

/-- A keyword or a punctuation mark is anonymous. -/
def Kind.isNamed : Kind → Bool
  | .token _ => false
  | _ => true

/-- The part that a tree plays in its parent. -/
inductive Role where
  | name | alias | source | body | parameters | pattern | value | key | argument
  | function | arguments | object | property | left | right | index
  deriving DecidableEq, Repr, Inhabited

/-- A tree of a source file; it covers the bytes from `start` up to `stop`. -/
inductive Tree where
  | node (kind : Kind) (role : Option Role) (start stop : Nat) (children : List Tree)
  deriving Inhabited

namespace Tree

def kind : Tree → Kind
  | node kind _ _ _ _ => kind

def role : Tree → Option Role
  | node _ role _ _ _ => role

def start : Tree → Nat
  | node _ _ start _ _ => start

def stop : Tree → Nat
  | node _ _ _ stop _ => stop

def children : Tree → List Tree
  | node _ _ _ _ children => children

/-- Puts a tree into a role, unless it is a comment or already has one. -/
def withRole (role : Role) : Tree → Tree
  | node kind none start stop children =>
    if kind = .comment then node kind none start stop children
    else node kind (some role) start stop children
  | tree => tree

def isComment (tree : Tree) : Bool := tree.kind = .comment

def isNamed (tree : Tree) : Bool := tree.kind.isNamed

/-- The children that are neither tokens nor comments. -/
def parts (tree : Tree) : List Tree :=
  tree.children.filter fun child => child.isNamed && !child.isComment

/-- The first child in a role. -/
def child? (tree : Tree) (role : Role) : Option Tree :=
  tree.children.find? fun child => child.role = some role

/-- Whether a keyword or a mark stands directly in a tree. -/
def hasToken (tree : Tree) (text : String) : Bool :=
  tree.children.any fun child => child.kind = .token text

/-- The source text of a tree. -/
def text (source : Bytes) (tree : Tree) : String := sliceText source tree.start tree.stop

mutual

/-- A tree and all the trees in it, each before its children, from left to right. -/
def preorder : Tree → List Tree
  | node kind role start stop children =>
    node kind role start stop children :: preorderAll children

/-- The trees of a list in the same order. -/
def preorderAll : List Tree → List Tree
  | [] => []
  | tree :: rest => preorder tree ++ preorderAll rest

end

mutual

/-- Whether two trees are the same. -/
def same : Tree → Tree → Bool
  | node kind role start stop children, node kind' role' start' stop' children' =>
    kind = kind' && role = role' && start = start' && stop = stop' && sameAll children children'

/-- Whether two lists hold the same trees. -/
def sameAll : List Tree → List Tree → Bool
  | [], [] => true
  | tree :: rest, tree' :: rest' => same tree tree' && sameAll rest rest'
  | _, _ => false

end

mutual

theorem same_iff : ∀ first second : Tree, first.same second = true ↔ first = second
  | node kind role start stop children, node kind' role' start' stop' children' => by
    simp [same, sameAll_iff children children', and_assoc]

theorem sameAll_iff : ∀ first second : List Tree, sameAll first second = true ↔ first = second
  | [], [] => by simp [sameAll]
  | [], _ :: _ => by simp [sameAll]
  | _ :: _, [] => by simp [sameAll]
  | tree :: rest, tree' :: rest' => by simp [sameAll, same_iff tree tree', sameAll_iff rest rest']

end

instance : DecidableEq Tree := fun first second =>
  decidable_of_iff (first.same second = true) (same_iff first second)

/-- What stands between the quotes of a string literal, escapes and all. -/
def stringValue? (source : Bytes) (tree : Tree) : Option String :=
  if tree.kind = .string then some (sliceText source (tree.start + 1) (tree.stop - 1)) else none

end Tree

end Scaffold.Syntax
