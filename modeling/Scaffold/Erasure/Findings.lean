import Scaffold.Syntax.Element

/-! # What erasure finds in a tree

A walk over a tree collects edits, the names that are used as values, and the import statements,
which can be judged only when all the names are known.
-/

namespace Scaffold.Erasure

open Scaffold.Text Scaffold.Syntax

/-- What a walk has collected, in the order of the source. -/
structure Findings where
  edits : List Edit
  used : List String
  imports : List Tree
  deriving Inhabited

namespace Findings

def empty : Findings := ⟨[], [], []⟩

def append (first second : Findings) : Findings :=
  ⟨first.edits ++ second.edits, first.used ++ second.used, first.imports ++ second.imports⟩

instance : Append Findings := ⟨append⟩

def edit (edit : Edit) : Findings := ⟨[edit], [], []⟩

end Findings

/-- Erases a range exactly. -/
def eraseRange (start stop : Nat) : Findings := .edit (.removal start stop)

/-- Erases the lines that a statement owns. After a blank line, or at the start of the file, the
blank lines behind it go too. -/
def statementRemoval (source : Bytes) (tree : Tree) : Edit :=
  let (start, stop) := lineRange source tree.start tree.stop
  let stop :=
    if start = 0 || followsBlankLine source start then skipBlankLines source stop else stop
  .removal start stop

def eraseStatement (source : Bytes) (tree : Tree) : Findings := .edit (statementRemoval source tree)

/-- Erases a token with the blanks behind it. -/
def eraseToken (source : Bytes) (tree : Tree) : Findings :=
  eraseRange tree.start (skipSpaces source tree.stop)

/-- Erases an element of a list with one comma. -/
def eraseElement (source : Bytes) (siblings : List Tree) (tree : Tree) : Findings :=
  let (start, stop) := elementRange source siblings tree
  eraseRange start stop

/-- Erases a clause with the blanks in front of it. -/
def eraseClause (source : Bytes) (tree : Tree) : Findings :=
  let blanks := ((source.take tree.start).reverse.takeWhile isIndent).length
  eraseRange (tree.start - blanks) tree.stop

/-- Whether a tree is a name that stands for a value. -/
def isValueName (kind : Kind) : Bool := kind = .identifier || kind = .shorthandPropertyIdentifier

/-- The names in a tree that stand for values. -/
def usedNames (source : Bytes) (tree : Tree) : List String :=
  (tree.preorder.filter fun inner => isValueName inner.kind).map (Tree.text source)

end Scaffold.Erasure
