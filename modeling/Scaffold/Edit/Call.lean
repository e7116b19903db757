import Scaffold.Edit.Import

/-! # Removing calls

A call is removed with the whole statement that it stands in, however deep in it. A call that stands
in no statement of its own, such as one in a member of a class, stays.
-/

namespace Scaffold.Edit

open Scaffold.Text Scaffold.Syntax

/-- The constructs that a statement does not reach beyond. -/
def isBoundary (kind : Kind) : Bool :=
  kind = .program || kind = .statementBlock || kind = .classBody || kind = .switchBody

/-- The statements, and the declarations of variables. -/
def isStatement : Kind → Bool
  | .expressionStatement | .emptyStatement | .labeledStatement | .ifStatement | .switchStatement
  | .forStatement | .forInStatement | .whileStatement | .doStatement | .withStatement | .tryStatement
  | .breakStatement | .continueStatement | .returnStatement | .throwStatement | .debuggerStatement
  | .importStatement | .exportStatement | .lexicalDeclaration | .variableDeclaration => true
  | _ => false

/-- The bytes from a start up to a stop. -/
structure Range where
  start : Nat
  stop : Nat
  deriving DecidableEq, Repr, Inhabited

/-- Whether a text occurs in another. -/
def occursIn (text : List Char) : List Char → Bool
  | [] => text.isEmpty
  | c :: rest => text.isPrefixOf (c :: rest) || occursIn text rest

/-- Which calls are meant: those of a function, and perhaps only those whose first argument holds a
text. -/
structure CallTarget where
  function : String
  argument : Option String
  deriving DecidableEq, Repr, Inhabited

/-- Whether a tree is a call that is meant. -/
def CallTarget.accepts (source : Bytes) (target : CallTarget) (tree : Tree) : Bool :=
  tree.kind = .callExpression && calleeName? source tree = some target.function &&
    match target.argument with
    | none => true
    | some text =>
      match firstArgument? tree with
      | none => false
      | some argument => occursIn text.toList (argument.text source).toList

/-- The statement that the children of a tree stand in, given the one around the tree. -/
def innerStatement (outer : Option Range) (tree : Tree) : Option Range :=
  if isBoundary tree.kind then none
  else if isStatement tree.kind then some ⟨tree.start, tree.stop⟩
  else outer

mutual

/-- The statements of the calls in a tree that are meant; `outer` is the statement around the tree. -/
def callRanges (source : Bytes) (target : CallTarget) (outer : Option Range) : Tree → List Range
  | .node kind role start stop children =>
    let tree : Tree := .node kind role start stop children
    (if target.accepts source tree then outer.toList else []) ++
      callRangesAll source target (innerStatement outer tree) children

/-- The same for the trees of a list. -/
def callRangesAll (source : Bytes) (target : CallTarget) (outer : Option Range) : List Tree → List Range
  | [] => []
  | tree :: later => callRanges source target outer tree ++ callRangesAll source target outer later

end

/-- The order of ranges: by their start, the longer first. -/
def Range.before (first second : Range) : Bool :=
  first.start < second.start || (first.start = second.start && second.stop ≤ first.stop)

/-- The ranges of an ordered list that do not lie in the last one kept before them. -/
def outermostAfter (last : Range) : List Range → List Range
  | [] => []
  | range :: later =>
    if last.start ≤ range.start && range.stop ≤ last.stop then outermostAfter last later
    else range :: outermostAfter range later

/-- The ranges that lie in no other. -/
def outermost (ranges : List Range) : List Range :=
  match ranges.mergeSort Range.before with
  | [] => []
  | range :: later => range :: outermostAfter range later

/-- The edits that remove the statements of the calls that are meant. -/
def callEdits (source : Bytes) (target : CallTarget) (file : Tree) : List Text.Edit :=
  (outermost (callRanges source target none file)).map fun range =>
    removeLines source range.start range.stop

/-- A file without the statements of the calls that are meant. -/
def removeCall (source : Bytes) (target : CallTarget) (file : Tree) : Bytes :=
  applyEdits source (callEdits source target file)

end Scaffold.Edit
