import Scaffold.Syntax.Terminal
import Scaffold.Syntax.Tree

/-! # Grammars as data

A grammar maps every symbol to a rule, and a rule is a finite value: an ordered choice takes its
first alternative that fits, and a repetition takes as much as it can. Left-recursive constructs,
such as a call of a call, are grown: a first tree is extended by one tail after another.
-/

namespace Scaffold.Syntax

mutual

/-- A rule over the symbols of a grammar. -/
inductive Rule (σ : Type) where
  | empty
  | never
  /-- A terminal after white space and comments. -/
  | leaf (kind : Kind) (terminal : Terminal)
  /-- A terminal right here. -/
  | glued (kind : Kind) (terminal : Terminal)
  /-- The end of a statement whose semicolon is left out. -/
  | ending (ending : StatementEnd)
  | call (symbol : σ)
  | seq (first second : Rule σ)
  | alt (first second : Rule σ)
  | many (item : Rule σ)
  /-- Like `many`, for a list that runs up to a closing brace or the end of the file. -/
  | items (item : Rule σ)
  | node (kind : Kind) (body : Rule σ)
  | role (role : Role) (body : Rule σ)
  /-- Takes nothing, and fits where `body` does not. -/
  | without (body : Rule σ)
  /-- Fits where `body` ends in a tree of an accepted kind. -/
  | only (accepts : Kind → Bool) (body : Rule σ)
  /-- A base that is extended by tails as long as the guard fits. -/
  | grow (base guard : Rule σ) (tails : List (Tail σ))

/-- A way to extend a tree of an accepted kind: the tree takes its role in a new tree of the given
kind, and the body follows it there. -/
inductive Tail (σ : Type) where
  | mk (accepts : Kind → Bool) (kind : Kind) (role : Option Role) (body : Rule σ)

end

/-- A rule for every symbol. A tolerant reading covers an item of a list that does not fit by an
error tree instead of giving up the list. -/
structure Grammar (σ : Type) where
  rule : σ → Rule σ
  tolerant : Bool

namespace Rule

variable {σ : Type}

/-- Rules one after the other. -/
def seqs : List (Rule σ) → Rule σ
  | [] => .empty
  | [rule] => rule
  | rule :: others => .seq rule (seqs others)

/-- The first of several rules that fits. -/
def alts : List (Rule σ) → Rule σ
  | [] => .never
  | [rule] => rule
  | rule :: others => .alt rule (alts others)

/-- A rule that may be left out. -/
def opt (rule : Rule σ) : Rule σ := .alt rule .empty

/-- A punctuation mark; it is not read where one of its continuations follows. -/
def mark (text : String) (continuations : List String) : Rule σ :=
  .leaf (.token text) (.mark text continuations)

/-- A punctuation mark that no longer mark begins with. -/
def sign (text : String) : Rule σ := mark text []

/-- A keyword. -/
def word (text : String) : Rule σ := .leaf (.token text) (.word text)

/-- One of several keywords. -/
def words (texts : List String) : Rule σ := alts (texts.map word)

/-- A name that is not reserved. -/
def name (kind : Kind) (reserved : List String) : Rule σ := .leaf kind (.name reserved)

/-- Words that may stand in front of a rule, in this order. A word that can also begin the rule
itself is given back when the rule does not fit after it. -/
def modified : List (Rule σ) → Rule σ → Rule σ
  | [], rule => rule
  | modifier :: others, rule =>
    let later := modified others rule
    .alt (.seq modifier later) later

/-- One or more items with commas between them. -/
def listed (item : Rule σ) : Rule σ := .seq item (.many (.seq (sign ",") item))

/-- Nothing, or items with commas between them, possibly with a comma at the end. -/
def series (item : Rule σ) : Rule σ := opt (.seq (listed item) (opt (sign ",")))

/-- Items with commas between them, possibly none, possibly with a comma at the end. -/
def trailing (item : Rule σ) : Rule σ := .seq (opt (listed item)) (opt (sign ","))

/-- Items with commas between them, each of which may be left out. -/
def holed (item : Rule σ) : Rule σ := .seq (opt item) (.many (.seq (sign ",") (opt item)))

def parens (body : Rule σ) : Rule σ := seqs [sign "(", body, sign ")"]

def brackets (body : Rule σ) : Rule σ := seqs [sign "[", body, sign "]"]

def braces (body : Rule σ) : Rule σ := seqs [sign "\x7b", body, sign "\x7d"]

/-- A rule where another one does not fit. -/
def barring (excluded rule : Rule σ) : Rule σ := .seq (.without excluded) rule

end Rule

end Scaffold.Syntax
