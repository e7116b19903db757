import Scaffold.Erasure.Constructor
import Scaffold.Erasure.Enumeration
import Scaffold.Erasure.ImportClause
import Scaffold.Syntax.Source

/-! # Erasing the types of a source file

What has a meaning for types only is cut out of the source, and what has a meaning at run time is
written in plain form. Everything else stays byte for byte.
-/

namespace Scaffold.Erasure

open Scaffold.Text Scaffold.Syntax

/-- Syntax of types, which is cut out exactly. -/
def isTypeSyntax : Kind → Bool
  | .typeAscription | .typePredicateAscription | .assertsAscription | .optingTypeAscription
  | .omittingTypeAscription | .addingTypeAscription | .typeArguments | .typeParameters => true
  | _ => false

/-- Statements and members about types, which are cut out with the lines they own. -/
def isTypeStatement : Kind → Bool
  | .interfaceDeclaration | .typeAliasDeclaration | .ambientDeclaration | .functionSignature
  | .indexSignature | .methodSignature | .abstractMethodSignature => true
  | _ => false

/-- The words and marks that say something about types where they stand in a construct. -/
def markers : Kind → List String
  | .requiredParameter => ["readonly"]
  | .optionalParameter => ["readonly", "?"]
  | .publicFieldDefinition => ["readonly", "?", "!"]
  | .methodDefinition => ["?"]
  | .variableDeclarator => ["!"]
  | .nonNullExpression => ["!"]
  | .abstractClassDeclaration => ["abstract"]
  | _ => []

/-- Whether a child of a construct is a word or a mark about types. -/
def isMarker (parent : Kind) (child : Tree) : Bool :=
  match child.kind with
  | .token text => text ∈ markers parent
  | kind => isModifier kind

/-- A field without a form at run time. -/
def isAmbientField (tree : Tree) : Bool :=
  tree.kind = .publicFieldDefinition && (tree.hasToken "declare" || tree.hasToken "abstract")

/-- An export of types only. -/
def isTypeExport (tree : Tree) : Bool :=
  tree.kind = .exportStatement &&
    tree.children.any fun child => child.kind = .token "type" || isTypeStatement child.kind

def isThisParameter (tree : Tree) : Bool :=
  tree.kind = .requiredParameter && (tree.child? .pattern).any (·.kind = .this)

/-- How the walk treats a tree. -/
inductive Treatment where
  /-- The tree yields this and is not entered. -/
  | whole (findings : Findings)
  /-- The first child is kept and entered, what follows it is erased. -/
  | assertion
  /-- The tree yields this, and its children are walked. -/
  | enter (findings : Findings)

/-- How the walk treats a tree among its siblings. -/
def treatment (source : Bytes) (siblings : List Tree) (tree : Tree) : Treatment :=
  let kind := tree.kind
  if isTypeSyntax kind then .whole (eraseRange tree.start tree.stop)
  else if kind = .implementsClause then .whole (eraseClause source tree)
  else if isTypeStatement kind || isAmbientField tree || isTypeExport tree then
    .whole (eraseStatement source tree)
  else if kind = .importStatement then .whole ⟨[], [], [tree]⟩
  else if (kind = .exportSpecifier && tree.hasToken "type") || isThisParameter tree then
    .whole (eraseElement source siblings tree)
  else if kind = .enumDeclaration then .whole (rewriteEnumeration source tree)
  else if kind = .asExpression || kind = .satisfiesExpression then .assertion
  else if isValueName kind then .whole ⟨[], [tree.text source], []⟩
  else if isConstructor source tree then .enter (assignProperties source tree)
  else .enter .empty

mutual

/-- What the walk finds in a tree. -/
def walk (source : Bytes) (siblings : List Tree) : Tree → Findings
  | .node kind role start stop children =>
    match treatment source siblings (.node kind role start stop children) with
    | .whole findings => findings
    | .assertion => walkAssertion source children stop
    | .enter findings => findings ++ walkChildren source kind children children

/-- What the walk finds in an assertion: its expression stays, the rest goes. -/
def walkAssertion (source : Bytes) : List Tree → Nat → Findings
  | [], _ => .empty
  | expression :: others, stop =>
    eraseRange expression.stop stop ++ walk source (expression :: others) expression

/-- What the walk finds in children of a construct. -/
def walkChildren (source : Bytes) (parent : Kind) (siblings : List Tree) : List Tree → Findings
  | [] => .empty
  | child :: later =>
    (if isMarker parent child then eraseToken source child else walk source siblings child) ++
      walkChildren source parent siblings later

end

/-- The edits that erase the types of a tree: first those of the walk, then those of the imports. -/
def erasureEdits (source : Bytes) (tree : Tree) : List Edit :=
  let findings := walk source [tree] tree
  findings.edits ++ findings.imports.filterMap (importEdit? source findings.used)

/-- A source file without its types. -/
def eraseTree (source : Bytes) (tree : Tree) : Bytes := applyEdits source (erasureEdits source tree)

/-- Erases the types of a source file, or tells the line near which it cannot be read. -/
def erase (dialect : Dialect) (source : Bytes) : Except Nat Bytes :=
  match dialect.parse source with
  | .ok tree => .ok (eraseTree source tree)
  | .error line => .error line

end Scaffold.Erasure
