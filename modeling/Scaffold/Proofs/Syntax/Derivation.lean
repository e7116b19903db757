import Scaffold.Syntax.Source

/-! # What a grammar derives

A derivation says how a rule takes a stretch of a source file and which trees it yields there, without
the fuel of the reader and without saying why another alternative was not taken. Everything that the
reader reads is derived, so what holds along derivations holds of every tree that is read.
-/

namespace Scaffold.Syntax

variable {σ : Type}

/-- The tree that a tail makes of a tree and the trees behind it. -/
def Tree.extended (kind : Kind) (role : Option Role) (tree : Tree) (trees : List Tree) : Tree :=
  let left := match role with
    | some role => tree.withRole role
    | none => tree
  .node kind none tree.start ((trees.getLast?.map Tree.stop).getD tree.stop) (left :: trees)

/-- The same tree in another role, or in none. -/
def Tree.recast (role : Option Role) (tree : Tree) : Tree := .node tree.kind role tree.start tree.stop tree.children

/-- A tree that takes a role changes in nothing else, and a comment does not take it. -/
theorem Tree.withRole_eq_recast (role : Role) (tree : Tree) :
    ∃ own, tree.withRole role = tree.recast own ∧ (own = tree.role ∨ own = some role ∧ tree.isComment = false) := by
  obtain ⟨kind, own, start, stop, children⟩ := tree
  cases own with
  | none =>
    by_cases comment : kind = .comment
    · exact ⟨none, if_pos comment, .inl rfl⟩
    · exact ⟨some role, if_neg comment, .inr ⟨rfl, decide_eq_false comment⟩⟩
  | some own => exact ⟨some own, rfl, .inl rfl⟩

namespace Tree

@[simp]
theorem kind_withRole (tree : Tree) (role : Role) : (tree.withRole role).kind = tree.kind := by
  obtain ⟨own, eq, -⟩ := tree.withRole_eq_recast role
  rw [eq]
  rfl

@[simp]
theorem start_withRole (tree : Tree) (role : Role) : (tree.withRole role).start = tree.start := by
  obtain ⟨own, eq, -⟩ := tree.withRole_eq_recast role
  rw [eq]
  rfl

@[simp]
theorem stop_withRole (tree : Tree) (role : Role) : (tree.withRole role).stop = tree.stop := by
  obtain ⟨own, eq, -⟩ := tree.withRole_eq_recast role
  rw [eq]
  rfl

@[simp]
theorem children_withRole (tree : Tree) (role : Role) : (tree.withRole role).children = tree.children := by
  obtain ⟨own, eq, -⟩ := tree.withRole_eq_recast role
  rw [eq]
  rfl

@[simp]
theorem isComment_withRole (tree : Tree) (role : Role) : (tree.withRole role).isComment = tree.isComment := by
  rw [isComment, kind_withRole, isComment]

@[simp]
theorem start_extended (kind : Kind) (role : Option Role) (tree : Tree) (trees : List Tree) :
    (tree.extended kind role trees).start = tree.start := rfl

@[simp]
theorem stop_extended (kind : Kind) (role : Option Role) (tree : Tree) (trees : List Tree) :
    (tree.extended kind role trees).stop = (trees.getLast?.map Tree.stop).getD tree.stop := rfl

end Tree

theorem Tree.extended_eq (kind : Kind) (role : Option Role) (tree : Tree) (trees : List Tree) :
    ∃ own, tree.extended kind role trees =
      .node kind none tree.start ((trees.getLast?.map Tree.stop).getD tree.stop) (tree.recast own :: trees) := by
  cases role with
  | none => exact ⟨tree.role, by cases tree; rfl⟩
  | some role =>
    obtain ⟨own, eq, -⟩ := tree.withRole_eq_recast role
    exact ⟨own, by simp only [extended, eq]⟩

/-! ## Constructs behind comments -/

/-- Trees are comments only, or they are comments in front of a tree that is none and of what follows it. -/
theorem comments_or_split (trees : List Tree) :
    (∀ tree ∈ trees, tree.isComment = true) ∨ ∃ comments first later, trees = comments ++ first :: later ∧
      (∀ tree ∈ comments, tree.isComment = true) ∧ first.isComment = false := by
  induction trees with
  | nil => exact .inl nofun
  | cons head trees found =>
    cases comment : head.isComment with
    | false => exact .inr ⟨[], head, trees, rfl, nofun, comment⟩
    | true =>
      rcases found with all | ⟨comments, first, later, rfl, all, plain⟩
      · exact .inl (List.forall_mem_cons.mpr ⟨comment, all⟩)
      · exact .inr ⟨head :: comments, first, later, rfl, List.forall_mem_cons.mpr ⟨comment, all⟩, plain⟩

/-- In front of what a construct is made of stand comments. -/
theorem exists_comments_of_dropWhile {trees others : List Tree} {first : Tree}
    (eq : trees.dropWhile Tree.isComment = first :: others) :
    ∃ comments, trees = comments ++ first :: others ∧ (∀ tree ∈ comments, tree.isComment = true) ∧
      first.isComment = false := by
  have plain := List.head?_dropWhile_not Tree.isComment trees
  rw [eq] at plain
  refine ⟨trees.takeWhile Tree.isComment, ?_, List.all_eq_true.mp List.all_takeWhile, plain⟩
  rw [← eq, List.takeWhile_append_dropWhile]

/-- Comments alone make no construct. -/
theorem gather_of_comments {kind : Kind} {trees : List Tree} (comments : ∀ tree ∈ trees, tree.isComment = true) :
    gather kind trees = trees := by
  have taken : (trees ++ []).takeWhile Tree.isComment = trees ++ [] := List.takeWhile_append_of_pos comments
  have left : (trees ++ []).dropWhile Tree.isComment = [] := List.dropWhile_append_of_pos comments
  rw [List.append_nil] at taken left
  simp only [gather, left, taken]

/-- The comments in front of a construct are left out of it. -/
theorem gather_eq {kind : Kind} {comments later : List Tree} {first : Tree}
    (comment : ∀ tree ∈ comments, tree.isComment = true) (plain : first.isComment = false) :
    gather kind (comments ++ first :: later) =
      comments ++ [.node kind none first.start ((first :: later).getLast (List.cons_ne_nil _ _)).stop (first :: later)] := by
  have taken : (comments ++ first :: later).takeWhile Tree.isComment = comments := by
    rw [List.takeWhile_append_of_pos comment, List.takeWhile_cons_of_neg (by simp [plain]), List.append_nil]
  have left : (comments ++ first :: later).dropWhile Tree.isComment = first :: later := by
    rw [List.dropWhile_append_of_pos comment, List.dropWhile_cons_of_neg (by simp [plain])]
  unfold gather
  dsimp only
  rw [taken]
  split
  · next empty =>
    rw [left] at empty
    cases empty
  · next head tail nonempty =>
    rw [left] at nonempty
    cases nonempty
    rfl

/-- A construct ends where the last of its trees does. -/
theorem getLast?_gather {kind : Kind} (trees : List Tree) :
    (gather kind trees).getLast?.map Tree.stop = trees.getLast?.map Tree.stop := by
  rcases comments_or_split trees with comments | ⟨comments, first, later, rfl, comment, plain⟩
  · rw [gather_of_comments comments]
  · rw [gather_eq comment plain, List.getLast?_append, List.getLast?_append,
      List.getLast?_eq_some_getLast (List.cons_ne_nil first later)]
    rfl

/-! ## Derivations -/

/-- A rule takes what stands between two cursors and yields these trees. -/
inductive Grammar.Derives (grammar : Grammar σ) : Rule σ → Cursor → List Tree → Cursor → Prop
  | empty {at_ : Cursor} : Derives grammar .empty at_ [] at_
  | leaf {kind : Kind} {terminal : Terminal} {at_ next : Cursor} {trees : List Tree}
      (found : readLeaf kind terminal at_ = some (trees, next)) : Derives grammar (.leaf kind terminal) at_ trees next
  | glued {kind : Kind} {terminal : Terminal} {at_ next : Cursor} {trees : List Tree}
      (found : readGlued kind terminal at_ = some (trees, next)) : Derives grammar (.glued kind terminal) at_ trees next
  | ending {ending : StatementEnd} {at_ next : Cursor} {trees : List Tree}
      (found : readEnding ending at_.offset true 0 at_.rest = some (trees, next)) :
      Derives grammar (.ending ending) at_ trees next
  | call {symbol : σ} {at_ next : Cursor} {trees : List Tree}
      (body : Derives grammar (grammar.rule symbol) at_ trees next) : Derives grammar (.call symbol) at_ trees next
  | seq {first second : Rule σ} {at_ between next : Cursor} {trees more : List Tree}
      (front : Derives grammar first at_ trees between) (back : Derives grammar second between more next) :
      Derives grammar (.seq first second) at_ (trees ++ more) next
  | first {first second : Rule σ} {at_ next : Cursor} {trees : List Tree}
      (taken : Derives grammar first at_ trees next) : Derives grammar (.alt first second) at_ trees next
  | second {first second : Rule σ} {at_ next : Cursor} {trees : List Tree}
      (taken : Derives grammar second at_ trees next) : Derives grammar (.alt first second) at_ trees next
  | manyNone {item : Rule σ} {at_ : Cursor} : Derives grammar (.many item) at_ [] at_
  | manyMore {item : Rule σ} {at_ between next : Cursor} {trees more : List Tree}
      (front : Derives grammar item at_ trees between) (back : Derives grammar (.many item) between more next) :
      Derives grammar (.many item) at_ (trees ++ more) next
  | itemsNone {item : Rule σ} {at_ : Cursor} : Derives grammar (.items item) at_ [] at_
  | itemsMore {item : Rule σ} {at_ between next : Cursor} {trees more : List Tree}
      (front : Derives grammar item at_ trees between) (back : Derives grammar (.items item) between more next) :
      Derives grammar (.items item) at_ (trees ++ more) next
  | itemsError {item : Rule σ} {at_ next : Cursor} {trees : List Tree} (tolerant : grammar.tolerant = true)
      (found : readError at_ = some (trees, next)) : Derives grammar (.items item) at_ trees next
  | node {kind : Kind} {body : Rule σ} {at_ next : Cursor} {trees : List Tree}
      (inner : Derives grammar body at_ trees next) : Derives grammar (.node kind body) at_ (gather kind trees) next
  | role {role : Role} {body : Rule σ} {at_ next : Cursor} {trees : List Tree}
      (inner : Derives grammar body at_ trees next) :
      Derives grammar (.role role body) at_ (trees.map (Tree.withRole role)) next
  | without {body : Rule σ} {at_ : Cursor} : Derives grammar (.without body) at_ [] at_
  | only {accepts : Kind → Bool} {body : Rule σ} {at_ next : Cursor} {trees : List Tree} {tree : Tree}
      (inner : Derives grammar body at_ trees next) (last : trees.getLast? = some tree)
      (accepted : accepts tree.kind = true) : Derives grammar (.only accepts body) at_ trees next
  | base {base guard : Rule σ} {tails : List (Tail σ)} {at_ next : Cursor} {trees : List Tree}
      (inner : Derives grammar base at_ trees next) : Derives grammar (.grow base guard tails) at_ trees next
  | grown {base guard : Rule σ} {tails : List (Tail σ)} {at_ between next : Cursor} {before trees : List Tree}
      {tree : Tree} {accepts : Kind → Bool} {kind : Kind} {role : Option Role} {body : Rule σ}
      (smaller : Derives grammar (.grow base guard tails) at_ (before ++ [tree]) between)
      (tail : .mk accepts kind role body ∈ tails) (accepted : accepts tree.kind = true)
      (behind : Derives grammar body between trees next) :
      Derives grammar (.grow base guard tails) at_ (before ++ [tree.extended kind role trees]) next

variable {grammar : Grammar σ}

/-- With this fuel, what a rule reads is derived. -/
private def ReadsDerived (grammar : Grammar σ) (fuel : Nat) : Prop :=
  ∀ rule at_ trees next, grammar.read fuel rule at_ = some (trees, next) → grammar.Derives rule at_ trees next

/-- With this fuel, what a tree is extended to is derived. -/
private def ExtendsDerived (grammar : Grammar σ) (fuel : Nat) : Prop :=
  ∀ base guard tails at_ before tree between grown next,
    grammar.Derives (.grow base guard tails) at_ (before ++ [tree]) between →
      grammar.extend fuel guard tails tree between = some (grown, next) →
        grammar.Derives (.grow base guard tails) at_ (before ++ [grown]) next

/-- With this fuel, one of the tails that are read extends the tree by what it derives. -/
private def TailsDerived (grammar : Grammar σ) (fuel : Nat) : Prop :=
  ∀ tails tree at_ grown next, grammar.readTail fuel tails tree at_ = some (grown, next) →
    ∃ accepts kind role body trees, Tail.mk accepts kind role body ∈ tails ∧ accepts tree.kind = true ∧
      grammar.Derives body at_ trees next ∧ grown = tree.extended kind role trees

private theorem readsDerived_succ {fuel : Nat} (read : ReadsDerived grammar fuel) (extend : ExtendsDerived grammar fuel) :
    ReadsDerived grammar (fuel + 1) := by
  intro rule at_ trees next found
  cases rule with
  | empty =>
    cases found
    exact .empty
  | never => cases found
  | leaf kind terminal => exact .leaf found
  | glued kind terminal => exact .glued found
  | ending ending => exact .ending found
  | call symbol => exact .call (read _ _ _ _ found)
  | seq first second =>
    simp only [Grammar.read] at found
    split at found
    · cases found
    · next front between front_found =>
      split at found
      · cases found
      · next back _ back_found =>
        cases found
        exact .seq (read _ _ _ _ front_found) (read _ _ _ _ back_found)
  | alt first second =>
    simp only [Grammar.read] at found
    split at found
    · next result first_found =>
      cases found
      exact .first (read _ _ _ _ first_found)
    · exact .second (read _ _ _ _ found)
  | many item =>
    simp only [Grammar.read] at found
    split at found
    · cases found
      exact .manyNone
    · next front between front_found =>
      split at found
      · cases found
        exact .manyNone
      · split at found
        · cases found
          have derived := Grammar.Derives.manyMore (read _ _ _ _ front_found) .manyNone
          rwa [List.append_nil] at derived
        · next back _ back_found =>
          cases found
          exact .manyMore (read _ _ _ _ front_found) (read _ _ _ _ back_found)
  | items item =>
    simp only [Grammar.read] at found
    split at found
    · next front between front_found =>
      split at found
      · cases found
        exact .itemsNone
      · split at found
        · cases found
        · next back _ back_found =>
          cases found
          exact .itemsMore (read _ _ _ _ front_found) (read _ _ _ _ back_found)
    · split at found
      · next result error_found =>
        cases found
        split at error_found
        · next tolerant => exact .itemsError tolerant error_found
        · cases error_found
      · cases found
        exact .itemsNone
  | node kind body =>
    simp only [Grammar.read] at found
    split at found
    · cases found
    · next inner _ inner_found =>
      cases found
      exact .node (read _ _ _ _ inner_found)
  | role role body =>
    simp only [Grammar.read] at found
    split at found
    · cases found
    · next inner _ inner_found =>
      cases found
      exact .role (read _ _ _ _ inner_found)
  | without body =>
    simp only [Grammar.read] at found
    split at found
    · cases found
      exact .without
    · cases found
  | only accepts body =>
    simp only [Grammar.read] at found
    split at found
    · cases found
    · next inner _ inner_found =>
      split at found
      · cases found
      · next tree last =>
        split at found
        · next accepted =>
          cases found
          exact .only (read _ _ _ _ inner_found) last accepted
        · cases found
  | grow base guard tails =>
    simp only [Grammar.read] at found
    split at found
    · cases found
    · next inner between inner_found =>
      have derived : grammar.Derives (.grow base guard tails) at_ inner between := .base (read _ _ _ _ inner_found)
      split at found
      · cases found
        exact derived
      · next tree last =>
        split at found
        · cases found
          exact derived
        · next grown _ grown_found =>
          cases found
          obtain ⟨before, rfl⟩ := List.getLast?_eq_some_iff.mp last
          rw [List.dropLast_concat]
          exact extend _ _ _ _ _ _ _ _ _ derived grown_found

private theorem extendsDerived_succ {fuel : Nat} (readTail : TailsDerived grammar fuel)
    (extend : ExtendsDerived grammar fuel) : ExtendsDerived grammar (fuel + 1) := by
  intro base guard tails at_ before tree between grown next smaller found
  simp only [Grammar.extend] at found
  split at found
  · cases found
    exact smaller
  · split at found
    · cases found
      exact smaller
    · next longer after longer_found =>
      obtain ⟨accepts, kind, role, body, trees, tail, accepted, behind, rfl⟩ := readTail _ _ _ _ _ longer_found
      have derived := Grammar.Derives.grown smaller tail accepted behind
      split at found
      · cases found
        exact derived
      · next result result_found =>
        cases found
        exact extend _ _ _ _ _ _ _ _ _ derived result_found

private theorem tailsDerived_succ {fuel : Nat} (read : ReadsDerived grammar fuel) (readTail : TailsDerived grammar fuel) :
    TailsDerived grammar (fuel + 1) := by
  intro tails tree at_ grown next found
  cases tails with
  | nil => cases found
  | cons tail others =>
    obtain ⟨accepts, kind, role, body⟩ := tail
    simp only [Grammar.readTail] at found
    have later (found : grammar.readTail fuel others tree at_ = some (grown, next)) :
        ∃ accepts' kind' role' body' trees,
          Tail.mk accepts' kind' role' body' ∈ Tail.mk accepts kind role body :: others ∧
            accepts' tree.kind = true ∧ grammar.Derives body' at_ trees next ∧
              grown = tree.extended kind' role' trees := by
      obtain ⟨accepts', kind', role', body', trees, tail, rest⟩ := readTail _ _ _ _ _ found
      exact ⟨accepts', kind', role', body', trees, List.mem_cons_of_mem _ tail, rest⟩
    split at found
    · next accepted =>
      split at found
      · exact later found
      · next trees after body_found =>
        cases found
        exact ⟨accepts, kind, role, body, trees, List.mem_cons_self, accepted, read _ _ _ _ body_found, rfl⟩
    · exact later found

private theorem derived_of_fuel (fuel : Nat) :
    ReadsDerived grammar fuel ∧ ExtendsDerived grammar fuel ∧ TailsDerived grammar fuel := by
  induction fuel with
  | zero =>
    refine ⟨?_, ?_, ?_⟩
    · intro rule at_ trees next found
      cases found
    · intro base guard tails at_ before tree between grown next smaller found
      cases found
    · intro tails tree at_ grown next found
      cases found
  | succ fuel earlier =>
    obtain ⟨read, extend, readTail⟩ := earlier
    exact ⟨readsDerived_succ read extend, extendsDerived_succ readTail extend, tailsDerived_succ read readTail⟩

/-- What is read is derived. -/
theorem Grammar.derives_of_read {fuel : Nat} {rule : Rule σ} {at_ next : Cursor} {trees : List Tree}
    (found : grammar.read fuel rule at_ = some (trees, next)) : grammar.Derives rule at_ trees next :=
  (derived_of_fuel fuel).1 rule at_ trees next found

end Scaffold.Syntax
