import Scaffold.Erasure.Findings

/-! # Parameter properties

A parameter of a constructor that has a modifier declares a property of the same name. Without types
the body of the constructor assigns it.
-/

namespace Scaffold.Erasure

open Scaffold.Text Scaffold.Syntax

def isModifier (kind : Kind) : Bool := kind = .accessibilityModifier || kind = .overrideModifier

def isParameter (kind : Kind) : Bool := kind = .requiredParameter || kind = .optionalParameter

/-- Whether a method is the constructor of its class. -/
def isConstructor (source : Bytes) (tree : Tree) : Bool :=
  tree.kind = .methodDefinition && (tree.child? .name).any fun name => name.text source = "constructor"

/-- The name of the property that a parameter declares. -/
def propertyName? (source : Bytes) (parameter : Tree) : Option String :=
  if isParameter parameter.kind && parameter.children.any fun child =>
      isModifier child.kind || child.kind = .token "readonly" then
    match parameter.child? .pattern with
    | some pattern => if pattern.kind = .identifier then some (pattern.text source) else none
    | none => none
  else none

/-- Whether a statement calls the constructor of the parent class. -/
def isParentCall (statement : Tree) : Bool :=
  statement.kind = .expressionStatement &&
    match statement.children.find? Tree.isNamed with
    | some call => call.kind = .callExpression && (call.child? .function).any (·.kind = .super)
    | none => false

/-- Adds the assignments of the declared properties to a constructor: after the call of the parent
constructor where that comes first, and otherwise at the start of the body. -/
def assignProperties (source : Bytes) (tree : Tree) : Findings :=
  match tree.child? .parameters, tree.child? .body with
  | some parameters, some body =>
    let names := parameters.children.filterMap (propertyName? source)
    let statements := body.parts
    let outer := indentationAt source tree.start
    let indent := match statements with
      | first :: _ => indentationAt source first.start
      | [] => outer ++ encode "    "
    let anchor := match statements with
      | first :: _ => if isParentCall first then first.stop else body.start + 1
      | [] => body.start + 1
    let assignments := names.flatMap fun name =>
      encode "\n" ++ indent ++ encode ("this." ++ name ++ " = " ++ name ++ ";")
    let oneLine := statements.isEmpty && lineFeed ∉ slice source body.start body.stop
    let text := if oneLine then assignments ++ encode "\n" ++ outer else assignments
    let stop := if oneLine && isBlankRange source anchor (body.stop - 1) then body.stop - 1 else anchor
    if names.isEmpty then .empty else .edit ⟨anchor, stop, text⟩
  | _, _ => .empty

end Scaffold.Erasure
