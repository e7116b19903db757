import Scaffold.Syntax.Markup
import Scaffold.Syntax.Reading
import Scaffold.Syntax.Statements

/-! # Source files

A source file is read strictly. When that fails, a tolerant reading finds where: the first tree of
an error that it leaves, or else the statement at which it stopped.
-/

namespace Scaffold.Syntax

open Scaffold.Text

/-- Which of the two languages a file is in: with markup elements, or with types in angle brackets in
front of expressions. -/
inductive Dialect where
  | plain
  | markup
  deriving DecidableEq, Repr, Inhabited

/-- The rule of a symbol. -/
def Dialect.rule (dialect : Dialect) : Symbol → Shape
  | .statement => Shape.statementRule
  | .block => Shape.blockRule
  | .declaration => Shape.declaration
  | .declarators first => Shape.declaratorsRule first
  | .expressions place => Shape.expressionsRule place
  | .expression place binding assertions => Shape.expressionRule place binding assertions
  | .operand place => Shape.operandRule place
  | .target => Shape.targetRule
  | .array => Shape.array
  | .object => Shape.object
  | .template => Shape.template
  | .arguments => Shape.arguments
  | .destructuring assigned => Shape.destructuring assigned
  | .parameters => Shape.parameters
  | .signature place => Shape.signature place
  | .propertyName reserved => Shape.propertyName reserved
  | .type place => Shape.typeRule place
  | .simpleType place => Shape.simpleType place
  | .typeArguments inCall => Shape.typeArguments inCall
  | .typeParameters => Shape.typeParameters
  | .typeMembers => Shape.typeMembers
  | .classMembers => Shape.classRest
  | .decorator => Shape.decorator
  | .angled place =>
    match dialect with
    | .plain => Shape.typeAssertion place
    | .markup => Shape.markupElement
  | .markupElement => Shape.markupElement

def Dialect.grammar (dialect : Dialect) (tolerant : Bool) : Grammar Symbol := ⟨dialect.rule, tolerant⟩

/-- The statements of a file, and where their reading stopped. -/
def Dialect.statements (dialect : Dialect) (tolerant : Bool) (source : Bytes) : List Tree × Cursor :=
  let text := decodeLossy 0 source
  let fuel := 400 * (source.length + 2)
  let grammar := dialect.grammar tolerant
  let shape : Shape := .seq (Rule.opt (.glued .hashBang .hashBang)) (.items Shape.statement)
  match grammar.read fuel shape ⟨0, text⟩ with
  | some found => found
  | none => ([], ⟨0, text⟩)

/-- The number of the line that a byte stands on, from one. -/
def lineOf (source : Bytes) (offset : Nat) : Nat :=
  (source.take offset).count 10 + 1

/-- The tree of a file, or the line near which it does not fit the grammar. -/
def Dialect.parse (dialect : Dialect) (source : Bytes) : Except Nat Tree :=
  let (trees, stop) := dialect.statements false source
  let (comments, after) := stop.trivia
  if after.rest.isEmpty then
    .ok (.node .program none 0 source.length (trees ++ comments))
  else
    let (trees, stop) := dialect.statements true source
    match (Tree.preorderAll trees).find? fun tree => tree.kind = .error with
    | some tree => .error (lineOf source tree.start)
    | none => .error (lineOf source stop.trivia.2.offset)

instance (dialect : Dialect) (source : Bytes) (tree : Tree) : Decidable (dialect.parse source = .ok tree) :=
  match dialect.parse source with
  | .ok found => decidable_of_iff (found = tree) (by simp)
  | .error _ => isFalse (by simp)

end Scaffold.Syntax
