import Scaffold.Erasure.Findings

/-! # Import clauses

An import of names that are used as types only has no meaning at run time. A clause that loses all
of its names is removed with its statement; one that keeps some is written anew.
-/

namespace Scaffold.Erasure

open Scaffold.Text Scaffold.Syntax

/-- The names that an import clause brings in, by how many there are and which stay. -/
structure KeptBindings where
  total : Nat
  /-- The default name and the namespace, as they are written. -/
  whole : List String
  /-- The names in braces, as they are written. -/
  named : List String
  deriving DecidableEq, Repr, Inhabited

/-- Whether a name that a part of a clause brings in stays. A part without a name does. -/
def isKept (source : Bytes) (used : List String) (local_ : Option Tree) : Bool :=
  match local_ with
  | none => true
  | some name => name.text source ∈ used

/-- The specifiers of a list in braces that stay. -/
def keptSpecifiers (source : Bytes) (used : List String) (specifiers : List Tree) : List String :=
  (specifiers.filter fun specifier =>
    let local_ := (specifier.child? .alias).or (specifier.child? .name)
    !specifier.hasToken "type" &&
      match local_ with
      | none => true
      | some name => name.kind ≠ .identifier || name.text source ∈ used).map (Tree.text source)

/-- Adds what one part of a clause brings in. -/
def KeptBindings.add (source : Bytes) (used : List String) (kept : KeptBindings) (part : Tree) : KeptBindings :=
  match part.kind with
  | .identifier =>
    let whole := if part.text source ∈ used then [part.text source] else []
    { kept with total := kept.total + 1, whole := kept.whole ++ whole }
  | .namespaceImport =>
    let local_ := part.parts.find? fun name => name.kind = .identifier
    let whole := if isKept source used local_ then [part.text source] else []
    { kept with total := kept.total + 1, whole := kept.whole ++ whole }
  | .namedImports =>
    let specifiers := part.parts.filter fun specifier => specifier.kind = .importSpecifier
    { kept with
      total := kept.total + specifiers.length
      named := kept.named ++ keptSpecifiers source used specifiers }
  | _ => kept

/-- What an import clause keeps. -/
def keptBindings (source : Bytes) (used : List String) (clause : Tree) : KeptBindings :=
  clause.parts.foldl (KeptBindings.add source used) ⟨0, [], []⟩

def KeptBindings.count (kept : KeptBindings) : Nat := kept.whole.length + kept.named.length

/-- The text of a clause with the bindings that stay. -/
def KeptBindings.text (kept : KeptBindings) : String :=
  let named := if kept.named.isEmpty then [] else ["\x7b " ++ ", ".intercalate kept.named ++ " \x7d"]
  ", ".intercalate (kept.whole ++ named)

/-- What becomes of an import statement once the used names are known. -/
def importEdit? (source : Bytes) (used : List String) (statement : Tree) : Option Edit :=
  if statement.hasToken "type" || statement.hasToken "typeof" then some (statementRemoval source statement)
  else
    match statement.children.find? fun child => child.kind = .importClause with
    | none => none
    | some clause =>
      let kept := keptBindings source used clause
      if kept.count = kept.total then none
      else if kept.count = 0 then some (statementRemoval source statement)
      else some ⟨clause.start, clause.stop, encode kept.text⟩

end Scaffold.Erasure
