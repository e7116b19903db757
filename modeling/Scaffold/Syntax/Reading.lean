import Scaffold.Syntax.Rule

/-! # Reading a grammar

One reader interprets every grammar, so what holds of its steps holds of each construct of each
language.

Comments are read in front of the token that follows them. A construct begins at its first token, so
the comments in front of it go to its parent, and only an omitted semicolon can leave a comment at a
construct's end.
-/

namespace Scaffold.Syntax

open Scaffold.Text

/-- How far a source file has been read. -/
structure Cursor where
  offset : Nat
  rest : List Char
  deriving Inhabited

/-- What a rule has read: the trees, from left to right, and where it stopped. -/
abbrev Reading := Option (List Tree × Cursor)

/-- Moves past `length` characters. -/
def Cursor.advance (at_ : Cursor) (length : Nat) : Cursor :=
  ⟨at_.offset + width (at_.rest.take length), at_.rest.drop length⟩

/-- The comments from here to the next token, and where that begins. `skip` characters still belong
to a comment. -/
def triviaFrom (offset : Nat) : Nat → List Char → List Tree × Cursor
  | _, [] => ([], ⟨offset, []⟩)
  | skip + 1, c :: rest => triviaFrom (offset + charWidth c) skip rest
  | 0, c :: rest =>
    if isSeparator c then triviaFrom (offset + charWidth c) 0 rest
    else match commentLength (c :: rest) with
      | 0 => ([], ⟨offset, c :: rest⟩)
      | skip + 1 =>
        let stop := offset + width ((c :: rest).take (skip + 1))
        let later := triviaFrom (offset + charWidth c) skip rest
        (.node .comment none offset stop [] :: later.1, later.2)

def Cursor.trivia (at_ : Cursor) : List Tree × Cursor := triviaFrom at_.offset 0 at_.rest

/-- Reads a terminal right here. -/
def readGlued (kind : Kind) (terminal : Terminal) (at_ : Cursor) : Reading :=
  match terminal.length at_.rest with
  | 0 => none
  | length =>
    let next := at_.advance length
    some ([.node kind none at_.offset next.offset []], next)

/-- Reads a terminal after white space and comments. -/
def readLeaf (kind : Kind) (terminal : Terminal) (at_ : Cursor) : Reading :=
  let (comments, here) := at_.trivia
  match readGlued kind terminal here with
  | none => none
  | some (trees, next) => some (comments ++ trees, next)

/-- Reads the end of a statement whose semicolon is left out. The question is asked here and again
after every comment; `fresh` says that it is to be asked. -/
def readEnding (ending : StatementEnd) (offset : Nat) (fresh : Bool) : Nat → List Char → Reading
  | _, [] => if fresh then some ([], ⟨offset, []⟩) else none
  | skip + 1, c :: rest => readEnding ending (offset + charWidth c) (skip = 0) skip rest
  | 0, c :: rest =>
    if fresh && mayEnd ending (c :: rest) then some ([], ⟨offset, c :: rest⟩)
    else if isSeparator c then readEnding ending (offset + charWidth c) false 0 rest
    else match commentLength (c :: rest) with
      | 0 => none
      | skip + 1 =>
        let stop := offset + width ((c :: rest).take (skip + 1))
        match readEnding ending (offset + charWidth c) (skip = 0) skip rest with
        | none => none
        | some (trees, next) => some (.node .comment none offset stop [] :: trees, next)

/-- Puts trees under a new tree, which begins at the first of them that is not a comment. -/
def gather (kind : Kind) (trees : List Tree) : List Tree :=
  let comments := trees.takeWhile Tree.isComment
  match trees.dropWhile Tree.isComment with
  | [] => comments
  | first :: others =>
    let stop := ((first :: others).getLast (List.cons_ne_nil _ _)).stop
    comments ++ [.node kind none first.start stop (first :: others)]

/-- The length of the text up to the brace that closes the list which the text stands in. -/
def toClosingBrace : Nat → List Char → Option Nat
  | _, [] => none
  | depth, c :: rest =>
    if c = '\x7b' then (toClosingBrace (depth + 1) rest).map (· + 1)
    else if c = '\x7d' then
      match depth with
      | 0 => some 0
      | outer + 1 => (toClosingBrace outer rest).map (· + 1)
    else (toClosingBrace depth rest).map (· + 1)

/-- Covers the rest of a list up to its closing brace by an error tree, unless the list ends here. -/
def readError (at_ : Cursor) : Reading :=
  let (comments, here) := at_.trivia
  match toClosingBrace 0 here.rest with
  | none | some 0 => none
  | some length =>
    let next := here.advance length
    some (comments ++ [.node .error none here.offset next.offset []], next)

mutual

/-- Reads a rule. The fuel bounds the depth of the rules that are read one inside the other. -/
def Grammar.read {σ : Type} (grammar : Grammar σ) : Nat → Rule σ → Cursor → Reading
  | 0, _, _ => none
  | fuel + 1, rule, at_ =>
    match rule with
    | .empty => some ([], at_)
    | .never => none
    | .leaf kind terminal => readLeaf kind terminal at_
    | .glued kind terminal => readGlued kind terminal at_
    | .ending ending => readEnding ending at_.offset true 0 at_.rest
    | .call symbol => grammar.read fuel (grammar.rule symbol) at_
    | .seq first second =>
      match grammar.read fuel first at_ with
      | none => none
      | some (trees, next) =>
        match grammar.read fuel second next with
        | none => none
        | some (more, last) => some (trees ++ more, last)
    | .alt first second =>
      match grammar.read fuel first at_ with
      | some found => some found
      | none => grammar.read fuel second at_
    | .many item =>
      match grammar.read fuel item at_ with
      | none => some ([], at_)
      | some (trees, next) =>
        if next.offset ≤ at_.offset then some ([], at_)
        else match grammar.read fuel (.many item) next with
          | none => some (trees, next)
          | some (more, last) => some (trees ++ more, last)
    | .items item =>
      match grammar.read fuel item at_ with
      | some (trees, next) =>
        if next.offset ≤ at_.offset then some ([], at_)
        else match grammar.read fuel (.items item) next with
          | none => none
          | some (more, last) => some (trees ++ more, last)
      | none =>
        match (if grammar.tolerant then readError at_ else none) with
        | some found => some found
        | none => some ([], at_)
    | .node kind body =>
      match grammar.read fuel body at_ with
      | none => none
      | some (trees, next) => some (gather kind trees, next)
    | .role role body =>
      match grammar.read fuel body at_ with
      | none => none
      | some (trees, next) => some (trees.map (Tree.withRole role), next)
    | .without body =>
      match grammar.read fuel body at_ with
      | none => some ([], at_)
      | some _ => none
    | .only accepts body =>
      match grammar.read fuel body at_ with
      | none => none
      | some (trees, next) =>
        match trees.getLast? with
        | none => none
        | some tree => if accepts tree.kind then some (trees, next) else none
    | .grow base guard tails =>
      match grammar.read fuel base at_ with
      | none => none
      | some (trees, next) =>
        match trees.getLast? with
        | none => some (trees, next)
        | some tree =>
          match grammar.extend fuel guard tails tree next with
          | none => some (trees, next)
          | some (grown, last) => some (trees.dropLast ++ [grown], last)

/-- Extends a tree by tails, one after the other, until none fits or the guard does not. -/
def Grammar.extend {σ : Type} (grammar : Grammar σ) :
    Nat → Rule σ → List (Tail σ) → Tree → Cursor → Option (Tree × Cursor)
  | 0, _, _, _, _ => none
  | fuel + 1, guard, tails, tree, at_ =>
    match grammar.read fuel guard at_ with
    | none => some (tree, at_)
    | some _ =>
      match grammar.readTail fuel tails tree at_ with
      | none => some (tree, at_)
      | some (grown, next) =>
        match grammar.extend fuel guard tails grown next with
        | none => some (grown, next)
        | some found => some found

/-- Extends a tree by the first tail that accepts it and fits. -/
def Grammar.readTail {σ : Type} (grammar : Grammar σ) :
    Nat → List (Tail σ) → Tree → Cursor → Option (Tree × Cursor)
  | 0, _, _, _ => none
  | _ + 1, [], _, _ => none
  | fuel + 1, .mk accepts kind role body :: others, tree, at_ =>
    if accepts tree.kind then
      match grammar.read fuel body at_ with
      | none => grammar.readTail fuel others tree at_
      | some (trees, next) =>
        let left := match role with
          | some role => tree.withRole role
          | none => tree
        let stop := (trees.getLast?.map Tree.stop).getD tree.stop
        some (.node kind none tree.start stop (left :: trees), next)
    else grammar.readTail fuel others tree at_

end

end Scaffold.Syntax
