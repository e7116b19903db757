import Scaffold.Syntax.Element
import Scaffold.Syntax.Source

/-! # What a source file mentions

The modules that it imports, the functions that it calls, and the elements of its arrays.
-/

namespace Scaffold.Syntax

open Scaffold.Text

/-- The module that an import statement names. -/
def importedModule? (source : Bytes) (statement : Tree) : Option String :=
  match statement.child? .source with
  | some literal => literal.stringValue? source
  | none => none

/-- The name of what a call calls: a plain name, or a property with what it belongs to. -/
def calleeName? (source : Bytes) (call : Tree) : Option String :=
  match call.child? .function with
  | none => none
  | some function =>
    if function.kind = .identifier then some (function.text source)
    else if function.kind = .memberExpression then
      match function.child? .object, function.child? .property with
      | some object, some property => some (object.text source ++ "." ++ property.text source)
      | _, _ => none
    else none

/-- The first argument of a call. -/
def firstArgument? (call : Tree) : Option Tree :=
  (call.child? .arguments).bind fun arguments => arguments.parts.head?

/-- The import statements of a file, at any depth. -/
def imports (tree : Tree) : List Tree := tree.preorder.filter fun inner => inner.kind = .importStatement

/-- The calls of a file, at any depth. -/
def calls (tree : Tree) : List Tree := tree.preorder.filter fun inner => inner.kind = .callExpression

/-- An element of an array with all the children of the array. -/
structure ArrayElement where
  siblings : List Tree
  tree : Tree
  deriving Inhabited

mutual

/-- The elements of all array literals, at the place where each is met. -/
def elementsOf (siblings : Option (List Tree)) : Tree → List ArrayElement
  | .node kind role start stop children =>
    let tree : Tree := .node kind role start stop children
    let here := match siblings with
      | some siblings => if tree.isNamed && !tree.isComment then [⟨siblings, tree⟩] else []
      | none => []
    here ++ elementsOfAll (if kind = .array then some children else none) children

/-- The same for the trees of a list. -/
def elementsOfAll (siblings : Option (List Tree)) : List Tree → List ArrayElement
  | [] => []
  | tree :: later => elementsOf siblings tree ++ elementsOfAll siblings later

end

/-- The elements of the array literals of a file, in the order of their first bytes. -/
def elements (tree : Tree) : List ArrayElement := elementsOf none tree

end Scaffold.Syntax
