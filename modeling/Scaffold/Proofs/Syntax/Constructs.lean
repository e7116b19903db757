import Scaffold.Proofs.Syntax.Coverage

/-! # What the constructs of a grammar are made of

Every tree with children comes from a construct or a tail of some rule. So what holds of all the
constructs of a grammar holds of all the trees that are read by it.
-/

namespace Scaffold.Syntax

open Scaffold.Text

variable {σ : Type}

mutual

/-- All constructs of a rule are of an accepted form, and all its tails are of accepted kinds. -/
@[simp]
def Rule.All (forms : Kind → Rule σ → Prop) (tails : Kind → Prop) : Rule σ → Prop
  | .seq first second | .alt first second => first.All forms tails ∧ second.All forms tails
  | .many item | .items item | .role _ item | .only _ item => item.All forms tails
  | .node kind body => forms kind body ∧ body.All forms tails
  | .grow base _ others => base.All forms tails ∧ Tail.AllIn forms tails others
  | _ => True

/-- All constructs in tails are of an accepted form, and the tails are of accepted kinds. -/
@[simp]
def Tail.AllIn (forms : Kind → Rule σ → Prop) (tails : Kind → Prop) : List (Tail σ) → Prop
  | [] => True
  | .mk _ kind _ body :: others => (tails kind ∧ body.All forms tails) ∧ Tail.AllIn forms tails others

end

theorem Tail.AllIn.of_mem {forms : Kind → Rule σ → Prop} {tails : Kind → Prop} {others : List (Tail σ)}
    (all : Tail.AllIn forms tails others) {accepts : Kind → Bool} {kind : Kind} {role : Option Role} {body : Rule σ}
    (mem : .mk accepts kind role body ∈ others) : tails kind ∧ body.All forms tails := by
  induction others with
  | nil => cases mem
  | cons head later found =>
    obtain ⟨headAccepts, headKind, headRole, headBody⟩ := head
    cases mem with
    | head => exact all.1
    | tail _ mem => exact found all.2 mem

namespace Tree

/-- What holds of a tree and of all the trees in it. -/
def Everywhere (holds : Tree → Prop) (tree : Tree) : Prop := ∀ inner ∈ tree.preorder, holds inner

theorem everywhere_iff {holds : Tree → Prop} {tree : Tree} :
    tree.Everywhere holds ↔ holds tree ∧ ∀ child ∈ tree.children, child.Everywhere holds := by
  constructor
  · intro everywhere
    exact ⟨everywhere tree (mem_preorder_iff.mpr (.inl rfl)), fun child member inner mem =>
      everywhere inner (mem_preorder_iff.mpr (.inr ⟨child, member, mem⟩))⟩
  · rintro ⟨own, below⟩ inner mem
    rcases mem_preorder_iff.mp mem with rfl | ⟨child, member, mem⟩
    · exact own
    · exact below child member inner mem

/-- Where a property concerns the kind and the children of a tree only, the tree may change its role. -/
theorem Everywhere.recast {holds : Tree → Prop} {tree : Tree} (everywhere : tree.Everywhere holds)
    (stable : ∀ tree role, holds tree → holds (tree.recast role)) (role : Option Role) :
    (tree.recast role).Everywhere holds := by
  obtain ⟨own, below⟩ := everywhere_iff.mp everywhere
  exact everywhere_iff.mpr ⟨stable tree role own, below⟩

theorem Everywhere.withRole {holds : Tree → Prop} {tree : Tree} (everywhere : tree.Everywhere holds)
    (stable : ∀ tree role, holds tree → holds (tree.recast role)) (role : Role) : (tree.withRole role).Everywhere holds := by
  obtain ⟨own, eq, -⟩ := tree.withRole_eq_recast role
  rw [eq]
  exact everywhere.recast stable own

end Tree

open Scaffold.Syntax.Tree

/-! ## Leaves and comments -/

theorem triviaFrom_comments (offset skip : Nat) (rest : List Char) :
    ∀ tree ∈ (triviaFrom offset skip rest).1, ∃ start stop, tree = .node .comment none start stop [] := by
  induction rest generalizing offset skip with
  | nil => cases skip <;> simp [triviaFrom]
  | cons c rest comments =>
    cases skip with
    | succ skip => exact comments _ skip
    | zero =>
      unfold triviaFrom
      split
      · exact comments _ 0
      · split
        · simp
        · intro tree mem
          rcases List.mem_cons.mp mem with rfl | mem
          · exact ⟨_, _, rfl⟩
          · exact comments _ _ tree mem

theorem readEnding_comments {ending : StatementEnd} (offset : Nat) (fresh : Bool) (skip : Nat)
    (rest : List Char) {trees : List Tree} {next : Cursor}
    (found : readEnding ending offset fresh skip rest = some (trees, next)) :
    ∀ tree ∈ trees, ∃ start stop, tree = .node .comment none start stop [] := by
  induction rest generalizing offset fresh skip trees next with
  | nil =>
    cases skip <;>
      (simp only [readEnding] at found
       split at found
       · cases found
         simp
       · cases found)
  | cons c rest comments =>
    cases skip with
    | succ skip => exact comments _ _ skip found
    | zero =>
      rw [readEnding] at found
      split at found
      · cases found
        simp
      · split at found
        · exact comments _ _ 0 found
        · split at found
          · cases found
          · dsimp only at found
            split at found
            · cases found
            · next later_found =>
              cases found
              intro tree mem
              rcases List.mem_cons.mp mem with rfl | mem
              · exact ⟨_, _, rfl⟩
              · exact comments _ _ _ later_found tree mem

/-- A terminal yields one leaf, behind comments. -/
theorem exists_of_readLeaf {kind : Kind} {terminal : Terminal} {at_ next : Cursor} {trees : List Tree}
    (found : readLeaf kind terminal at_ = some (trees, next)) :
    ∃ comments start stop, trees = comments ++ [.node kind none start stop []] ∧
      ∀ tree ∈ comments, ∃ start stop, tree = .node .comment none start stop [] := by
  unfold readLeaf readGlued at found
  dsimp only at found
  split at found
  · cases found
  · next glued_found =>
    split at glued_found
    · cases glued_found
    · cases glued_found
      cases found
      exact ⟨_, _, _, rfl, triviaFrom_comments _ 0 _⟩

theorem exists_of_readGlued {kind : Kind} {terminal : Terminal} {at_ next : Cursor} {trees : List Tree}
    (found : readGlued kind terminal at_ = some (trees, next)) :
    ∃ start stop, trees = [.node kind none start stop []] := by
  unfold readGlued at found
  split at found
  · cases found
  · cases found
    exact ⟨_, _, rfl⟩

theorem exists_of_readError {at_ next : Cursor} {trees : List Tree}
    (found : readError at_ = some (trees, next)) :
    ∀ tree ∈ trees, ∃ kind start stop, tree = .node kind none start stop [] := by
  unfold readError at found
  dsimp only at found
  split at found
  · cases found
  · cases found
  · cases found
    intro tree mem
    rcases List.mem_append.mp mem with mem | mem
    · obtain ⟨start, stop, rfl⟩ := triviaFrom_comments _ 0 _ tree mem
      exact ⟨_, _, _, rfl⟩
    · exact ⟨_, _, _, List.mem_singleton.mp mem⟩

/-- A construct begins at its first tree that is no comment, and ends with its last tree. -/
theorem exists_of_mem_gather {kind : Kind} {trees : List Tree} {tree : Tree} (mem : tree ∈ gather kind trees) :
    tree ∈ trees ∧ tree.isComment = true ∨ ∃ first others, trees.dropWhile isComment = first :: others ∧
      tree = .node kind none first.start ((first :: others).getLast (List.cons_ne_nil _ _)).stop (first :: others) := by
  unfold gather at mem
  dsimp only at mem
  have comments {tree : Tree} (mem : tree ∈ trees.takeWhile isComment) : tree ∈ trees ∧ tree.isComment = true :=
    ⟨List.takeWhile_subset _ mem, List.all_eq_true.mp List.all_takeWhile tree mem⟩
  split at mem
  · exact .inl (comments mem)
  · next first others nonempty =>
    rcases List.mem_append.mp mem with mem | mem
    · exact .inl (comments mem)
    · exact .inr ⟨first, others, nonempty, List.mem_singleton.mp mem⟩

/-- What is read as a construct is a tree of its kind behind comments, or comments only. -/
theorem mem_gather {kind : Kind} {trees : List Tree} {tree : Tree} (mem : tree ∈ gather kind trees) :
    tree ∈ trees ∧ tree.isComment = true ∨
      ∃ start stop, tree = .node kind none start stop (trees.dropWhile isComment) ∧
        trees.dropWhile isComment ≠ [] := by
  rcases exists_of_mem_gather mem with comment | ⟨first, others, eq, rfl⟩
  · exact .inl comment
  · rw [eq]
    exact .inr ⟨_, _, rfl, List.cons_ne_nil _ _⟩

/-! ## Derivations -/

/-- What holds of leaves and of every construct and every tail holds everywhere in what is derived. -/
theorem Grammar.Derives.everywhere {grammar : Grammar σ} {text : List Char} {forms : Kind → Rule σ → Prop}
    {tails : Kind → Prop} {holds : Tree → Prop} (all : ∀ symbol, (grammar.rule symbol).All forms tails)
    (leaf : ∀ kind start stop, holds (.node kind none start stop []))
    (stable : ∀ tree role, holds tree → holds (tree.recast role))
    (construct : ∀ kind body at_ trees next first others, forms kind body → Cursor.In text at_ →
      grammar.Derives body at_ trees next → trees.dropWhile isComment = first :: others →
        holds (.node kind none first.start ((first :: others).getLast (List.cons_ne_nil _ _)).stop (first :: others)))
    (tail : ∀ kind start stop children, tails kind → holds (.node kind none start stop children))
    {rule : Rule σ} {at_ next : Cursor} {trees : List Tree} (derived : grammar.Derives rule at_ trees next)
    (inside : at_.In text) (own : rule.All forms tails) : ∀ tree ∈ trees, tree.Everywhere holds := by
  have alone (kind : Kind) (start stop : Nat) : (Tree.node kind none start stop []).Everywhere holds :=
    everywhere_iff.mpr ⟨leaf kind start stop, fun child mem => nomatch mem⟩
  induction derived with
  | empty | manyNone | itemsNone | without => simp
  | leaf found =>
    obtain ⟨comments, start, stop, rfl, comment⟩ := exists_of_readLeaf found
    intro tree mem
    rcases List.mem_append.mp mem with mem | mem
    · obtain ⟨start, stop, rfl⟩ := comment tree mem
      exact alone _ _ _
    · rw [List.mem_singleton.mp mem]
      exact alone _ _ _
  | glued found =>
    obtain ⟨start, stop, rfl⟩ := exists_of_readGlued found
    intro tree mem
    rw [List.mem_singleton.mp mem]
    exact alone _ _ _
  | ending found =>
    intro tree mem
    obtain ⟨start, stop, rfl⟩ := readEnding_comments _ _ _ _ found tree mem
    exact alone _ _ _
  | itemsError _ found =>
    intro tree mem
    obtain ⟨kind, start, stop, rfl⟩ := exists_of_readError found tree mem
    exact alone _ _ _
  | call _ inner => exact inner inside (all _)
  | first _ inner => exact inner inside own.1
  | second _ inner => exact inner inside own.2
  | only _ _ _ inner => exact inner inside own
  | base _ inner => exact inner inside own.1
  | seq frontDerived _ front back =>
    intro tree mem
    rcases List.mem_append.mp mem with mem | mem
    · exact front inside own.1 tree mem
    · exact back (frontDerived.span inside).2 own.2 tree mem
  | manyMore frontDerived _ front back | itemsMore frontDerived _ front back =>
    intro tree mem
    rcases List.mem_append.mp mem with mem | mem
    · exact front inside own tree mem
    · exact back (frontDerived.span inside).2 own tree mem
  | node innerDerived inner =>
    intro tree mem
    rcases exists_of_mem_gather mem with ⟨mem, -⟩ | ⟨first, others, eq, rfl⟩
    · exact inner inside own.2 tree mem
    · refine everywhere_iff.mpr ⟨construct _ _ _ _ _ _ _ own.1 inside innerDerived eq, fun child mem => ?_⟩
      rw [Tree.children, ← eq] at mem
      exact inner inside own.2 child ((List.dropWhile_sublist _).subset mem)
  | role _ inner =>
    intro tree mem
    obtain ⟨original, member, rfl⟩ := List.mem_map.mp mem
    exact (inner inside own original member).withRole stable _
  | @grown _ _ _ _ _ _ _ trees tree _ kind role _ smallerDerived mem _ _ smaller behind =>
    obtain ⟨accepted, body⟩ := own.2.of_mem mem
    have smallerAll := smaller inside own
    have behindAll := behind (smallerDerived.span inside).2 body
    obtain ⟨other, eq⟩ := extended_eq kind role tree trees
    intro other_ mem
    rcases List.mem_append.mp mem with mem | mem
    · exact smallerAll other_ (List.mem_append_left _ mem)
    · rw [List.mem_singleton.mp mem, eq]
      refine everywhere_iff.mpr ⟨tail _ _ _ _ accepted, fun child mem => ?_⟩
      rcases List.mem_cons.mp mem with rfl | mem
      · exact (smallerAll tree (by simp)).recast stable other
      · exact behindAll child mem

end Scaffold.Syntax
