import Scaffold.Syntax.Tree
import Scaffold.Text.Edit

/-! # Elements of lists

An element of a list in a source file, such as an array, a parameter list or a list of names, is
removed together with one comma beside it.
-/

namespace Scaffold.Syntax

open Scaffold.Text

/-- The trees before and after a tree among its siblings. The one before is nearest first. -/
def Tree.around (tree : Tree) : List Tree → List Tree → List Tree × List Tree
  | before, [] => (before, [])
  | before, sibling :: after =>
    if sibling.start = tree.start && sibling.stop = tree.stop then (before, after)
    else tree.around (sibling :: before) after

/-- The siblings directly before and after a tree, comments left out. -/
def Tree.neighbours (siblings : List Tree) (tree : Tree) : Option Tree × Option Tree :=
  let (before, after) := tree.around [] (siblings.filter fun sibling => !sibling.isComment)
  (before.head?, after.head?)

/-- Whether a tree is a comma. -/
def Tree.isComma (tree : Tree) : Bool := tree.kind = .token ","

/-- The range that an element takes with the comma after it, or else the one before it. Where the
element has lines of its own they are taken whole. -/
def elementRange (source : Bytes) (siblings : List Tree) (tree : Tree) : Nat × Nat :=
  let (start, stop) :=
    match tree.neighbours siblings with
    | (before, after) =>
      match after.filter Tree.isComma, before.filter Tree.isComma with
      | some comma, _ => (tree.start, skipSpaces source comma.stop)
      | none, some comma => (comma.start, tree.stop)
      | none, none => (tree.start, tree.stop)
  ownedLine source start stop

end Scaffold.Syntax
