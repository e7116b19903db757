import Scaffold.Proofs.Syntax.Constructs

/-! # What a grammar produces

Apart from the text that a file consists of, a grammar says which trees there are: which constructs there are, which
children each of them has, and in which roles. Comments may stand anywhere between them. Every tree that is read is
produced in this sense.
-/

namespace Scaffold.Syntax

variable {σ : Type}

/-- The tree in a role, if there is one to take. -/
def Tree.inRole (role : Option Role) (tree : Tree) : Tree :=
  match role with
  | some role => tree.withRole role
  | none => tree

/-- A rule produces these trees, whatever text they stand for. -/
inductive Grammar.Produces (grammar : Grammar σ) : Rule σ → List Tree → Prop
  | empty : Produces grammar .empty []
  | leaf {kind : Kind} {terminal : Terminal} (start stop : Nat) :
      Produces grammar (.leaf kind terminal) [.node kind none start stop []]
  | glued {kind : Kind} {terminal : Terminal} (start stop : Nat) :
      Produces grammar (.glued kind terminal) [.node kind none start stop []]
  | ending {ending : StatementEnd} : Produces grammar (.ending ending) []
  | call {symbol : σ} {trees : List Tree} (body : Produces grammar (grammar.rule symbol) trees) :
      Produces grammar (.call symbol) trees
  | seq {first second : Rule σ} {trees more : List Tree} (front : Produces grammar first trees)
      (back : Produces grammar second more) : Produces grammar (.seq first second) (trees ++ more)
  | first {first second : Rule σ} {trees : List Tree} (taken : Produces grammar first trees) :
      Produces grammar (.alt first second) trees
  | second {first second : Rule σ} {trees : List Tree} (taken : Produces grammar second trees) :
      Produces grammar (.alt first second) trees
  | manyNone {item : Rule σ} : Produces grammar (.many item) []
  | manyMore {item : Rule σ} {trees more : List Tree} (front : Produces grammar item trees)
      (back : Produces grammar (.many item) more) : Produces grammar (.many item) (trees ++ more)
  | itemsNone {item : Rule σ} : Produces grammar (.items item) []
  | itemsMore {item : Rule σ} {trees more : List Tree} (front : Produces grammar item trees)
      (back : Produces grammar (.items item) more) : Produces grammar (.items item) (trees ++ more)
  /-- The comments in front of a construct are left to its parent. -/
  | node {kind : Kind} {body : Rule σ} {comments children : List Tree} (start stop : Nat)
      (inner : Produces grammar body (comments ++ children)) (areComments : ∀ tree ∈ comments, tree.isComment = true) :
      Produces grammar (.node kind body) (comments ++ [.node kind none start stop children])
  | hollow {kind : Kind} {body : Rule σ} {comments : List Tree} (inner : Produces grammar body comments)
      (areComments : ∀ tree ∈ comments, tree.isComment = true) : Produces grammar (.node kind body) comments
  | role {role : Role} {body : Rule σ} {trees : List Tree} (inner : Produces grammar body trees) :
      Produces grammar (.role role body) (trees.map (Tree.withRole role))
  | without {body : Rule σ} : Produces grammar (.without body) []
  | only {accepts : Kind → Bool} {body : Rule σ} {trees : List Tree} {tree : Tree} (inner : Produces grammar body trees)
      (last : trees.getLast? = some tree) (accepted : accepts tree.kind = true) : Produces grammar (.only accepts body) trees
  | base {base guard : Rule σ} {tails : List (Tail σ)} {trees : List Tree} (inner : Produces grammar base trees) :
      Produces grammar (.grow base guard tails) trees
  | grown {base guard : Rule σ} {tails : List (Tail σ)} {before trees : List Tree} {tree : Tree} {accepts : Kind → Bool}
      {kind : Kind} {role : Option Role} {body : Rule σ} (start stop : Nat)
      (smaller : Produces grammar (.grow base guard tails) (before ++ [tree])) (tail : .mk accepts kind role body ∈ tails)
      (accepted : accepts tree.kind = true) (behind : Produces grammar body trees) :
      Produces grammar (.grow base guard tails) (before ++ [.node kind none start stop (tree.inRole role :: trees)])
  | comment {rule : Rule σ} {front back : List Tree} {tree : Tree} (around : Produces grammar rule (front ++ back))
      (isComment : tree.isComment = true) (childless : tree.children = []) : Produces grammar rule (front ++ tree :: back)

namespace Grammar

variable {grammar : Grammar σ} {rule body : Rule σ} {trees between front back : List Tree}

/-- Comments may be put in anywhere. -/
theorem Produces.comments (produced : grammar.Produces rule (front ++ back))
    (areComments : ∀ tree ∈ between, tree.isComment = true ∧ tree.children = []) :
    grammar.Produces rule (front ++ (between ++ back)) := by
  induction between with
  | nil => exact produced
  | cons tree later puts =>
    apply Produces.comment
    · exact puts fun other mem => areComments other (List.mem_cons_of_mem _ mem)
    · exact (areComments tree List.mem_cons_self).1
    · exact (areComments tree List.mem_cons_self).2

theorem Produces.behind_comments (produced : grammar.Produces rule trees)
    (areComments : ∀ tree ∈ between, tree.isComment = true ∧ tree.children = []) :
    grammar.Produces rule (between ++ trees) :=
  Produces.comments (show grammar.Produces rule ([] ++ trees) from produced) areComments

/-- What a strict grammar derives from a text it produces. -/
theorem Derives.produces (strict : grammar.tolerant = false) {at_ next : Cursor} (derived : grammar.Derives rule at_ trees next) :
    grammar.Produces rule trees := by
  induction derived with
  | empty => exact .empty
  | leaf found =>
    obtain ⟨comments, start, stop, rfl, comment⟩ := exists_of_readLeaf found
    apply Produces.behind_comments (.leaf start stop)
    intro tree mem
    obtain ⟨start, stop, rfl⟩ := comment tree mem
    exact ⟨rfl, rfl⟩
  | glued found =>
    obtain ⟨start, stop, rfl⟩ := exists_of_readGlued found
    exact .glued start stop
  | @ending ending _ _ trees found =>
    rw [← List.append_nil trees]
    apply Produces.behind_comments .ending
    intro tree mem
    obtain ⟨start, stop, rfl⟩ := readEnding_comments _ _ _ _ found tree mem
    exact ⟨rfl, rfl⟩
  | call _ inner => exact .call inner
  | seq _ _ front back => exact .seq front back
  | first _ inner => exact .first inner
  | second _ inner => exact .second inner
  | manyNone => exact .manyNone
  | manyMore _ _ front back => exact .manyMore front back
  | itemsNone => exact .itemsNone
  | itemsMore _ _ front back => exact .itemsMore front back
  | itemsError tolerant _ =>
    rw [strict] at tolerant
    cases tolerant
  | @node kind body _ _ trees _ inner =>
    rcases comments_or_split trees with comments | ⟨comments, first, later, rfl, comment, plain⟩
    · rw [gather_of_comments comments]
      exact .hollow inner comments
    · rw [gather_eq comment plain]
      exact .node _ _ inner comment
  | role _ inner => exact .role inner
  | without => exact .without
  | only _ last accepted inner => exact .only inner last accepted
  | base _ inner => exact .base inner
  | grown _ tail accepted _ smaller behind => exact .grown _ _ smaller tail accepted behind

end Grammar

end Scaffold.Syntax
