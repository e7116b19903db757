import Scaffold.Syntax.Element

/-! # Where trees lie

A tree is well placed when its children follow each other inside it, each with at least one byte. Then
two trees of a list lie apart, and what lies beside an element of a list is known: comments, the comma
that goes with the element, or nothing near it.
-/

namespace Scaffold.Syntax

open Scaffold.Text

namespace Tree

mutual

/-- The trees without children in a tree, from left to right. -/
def leaves : Tree → List Tree
  | .node kind role start stop children =>
    match children with
    | [] => [.node kind role start stop children]
    | _ :: _ => leavesAll children

/-- The trees without children in the trees of a list. -/
def leavesAll : List Tree → List Tree
  | [] => []
  | tree :: later => leaves tree ++ leavesAll later

end

mutual

/-- The children of a tree, and theirs, follow each other inside it. -/
def Placed : Tree → Prop
  | .node _ _ start stop children => PlacedIn start stop children

/-- Trees of a list follow each other from `start` up to `stop`. -/
def PlacedIn : Nat → Nat → List Tree → Prop
  | start, stop, [] => start ≤ stop
  | start, stop, tree :: later =>
    (start ≤ tree.start ∧ tree.start < tree.stop) ∧ Placed tree ∧ PlacedIn tree.stop stop later

end

variable {start stop : Nat} {trees : List Tree} {tree : Tree}

theorem PlacedIn.le (placed : PlacedIn start stop trees) : start ≤ stop := by
  induction trees generalizing start with
  | nil => exact placed
  | cons head later le =>
    obtain ⟨bounds, -, rest⟩ := placed
    have := le rest
    omega

/-- A tree of a list lies inside the list's range. -/
theorem PlacedIn.bounds (placed : PlacedIn start stop trees) (mem : tree ∈ trees) :
    start ≤ tree.start ∧ tree.start < tree.stop ∧ tree.stop ≤ stop := by
  induction trees generalizing start with
  | nil => cases mem
  | cons head later bounds =>
    obtain ⟨own, -, rest⟩ := placed
    cases mem with
    | head => exact ⟨own.1, own.2, rest.le⟩
    | tail _ mem =>
      have := bounds rest mem
      omega

/-- Lists that follow each other form one list. -/
theorem placedIn_append_iff {more : List Tree} :
    PlacedIn start stop (trees ++ more) ↔ ∃ between, PlacedIn start between trees ∧ PlacedIn between stop more := by
  induction trees generalizing start with
  | nil =>
    constructor
    · intro placed
      exact ⟨start, Nat.le_refl _, placed⟩
    · rintro ⟨between, le, placed⟩
      cases more with
      | nil => exact Nat.le_trans le placed
      | cons head later =>
        obtain ⟨bounds, own, rest⟩ := placed
        exact ⟨⟨Nat.le_trans le bounds.1, bounds.2⟩, own, rest⟩
  | cons head later iff =>
    constructor
    · rintro ⟨bounds, own, rest⟩
      obtain ⟨between, front, back⟩ := iff.mp rest
      exact ⟨between, ⟨bounds, own, front⟩, back⟩
    · rintro ⟨between, ⟨bounds, own, front⟩, back⟩
      exact ⟨bounds, own, iff.mpr ⟨between, front, back⟩⟩

theorem PlacedIn.placed (placed : PlacedIn start stop trees) (mem : tree ∈ trees) : tree.Placed := by
  induction trees generalizing start with
  | nil => cases mem
  | cons head later placedLater =>
    obtain ⟨-, own, rest⟩ := placed
    cases mem with
    | head => exact own
    | tail _ mem => exact placedLater rest mem

/-- The trees of a list stand in the order of the source. -/
theorem PlacedIn.pairwise (placed : PlacedIn start stop trees) :
    trees.Pairwise fun first second => first.stop ≤ second.start := by
  induction trees generalizing start with
  | nil => exact .nil
  | cons head later pairwise =>
    obtain ⟨-, -, rest⟩ := placed
    exact .cons (fun other mem => (rest.bounds mem).1) (pairwise rest)

theorem Placed.children (placed : tree.Placed) : PlacedIn tree.start tree.stop tree.children := by
  cases tree with
  | node kind role start stop children =>
    unfold Placed at placed
    exact placed

theorem Placed.start_le_stop (placed : tree.Placed) : tree.start ≤ tree.stop := placed.children.le

theorem leaves_of_children_eq_nil (childless : tree.children = []) : tree.leaves = [tree] := by
  cases tree with
  | node kind role start stop children =>
    cases childless
    rfl

theorem leaves_of_children_ne_nil (inner : tree.children ≠ []) : tree.leaves = leavesAll tree.children := by
  cases tree with
  | node kind role start stop children =>
    cases children with
    | nil => exact absurd rfl inner
    | cons child later => rfl

theorem mem_leavesAll_iff {leaf : Tree} : leaf ∈ leavesAll trees ↔ ∃ tree ∈ trees, leaf ∈ tree.leaves := by
  induction trees with
  | nil => simp [leavesAll]
  | cons head later iff => simp [leavesAll, iff]

mutual

/-- What holds of a tree whenever it holds of its children holds of every tree. -/
theorem induction_on_children {motive : Tree → Prop}
    (step : ∀ tree, (∀ child ∈ tree.children, motive child) → motive tree) : ∀ tree, motive tree
  | .node kind role start stop children =>
    step (.node kind role start stop children) (induction_on_all step children)

private theorem induction_on_all {motive : Tree → Prop}
    (step : ∀ tree, (∀ child ∈ tree.children, motive child) → motive tree) :
    ∀ trees : List Tree, ∀ child ∈ trees, motive child
  | [], _, mem => nomatch mem
  | head :: later, child, mem => by
    cases mem with
    | head => exact induction_on_children step head
    | tail _ mem => exact induction_on_all step later child mem

end

/-- The leaves of a well placed tree lie inside it. -/
theorem Placed.leaf_bounds {leaf : Tree} (placed : tree.Placed) (nonempty : tree.start < tree.stop)
    (mem : leaf ∈ tree.leaves) : tree.start ≤ leaf.start ∧ leaf.start < leaf.stop ∧ leaf.stop ≤ tree.stop := by
  induction tree using induction_on_children with
  | step tree inner =>
    by_cases childless : tree.children = []
    · rw [leaves_of_children_eq_nil childless, List.mem_singleton] at mem
      subst mem
      exact ⟨Nat.le_refl _, nonempty, Nat.le_refl _⟩
    · rw [leaves_of_children_ne_nil childless, mem_leavesAll_iff] at mem
      obtain ⟨child, member, mem⟩ := mem
      have outer := placed.children.bounds member
      have := inner child member (placed.children.placed member) outer.2.1 mem
      omega

/-- The leaves of the trees of a list lie inside its range. -/
theorem PlacedIn.leaf_bounds {leaf : Tree} (placed : PlacedIn start stop trees) (mem : leaf ∈ leavesAll trees) :
    start ≤ leaf.start ∧ leaf.start < leaf.stop ∧ leaf.stop ≤ stop := by
  obtain ⟨tree, member, mem⟩ := mem_leavesAll_iff.mp mem
  have outer := placed.bounds member
  have := (placed.placed member).leaf_bounds outer.2.1 mem
  omega

/-- No leaf has children. -/
theorem children_of_mem_leaves {leaf : Tree} (mem : leaf ∈ tree.leaves) : leaf.children = [] := by
  induction tree using induction_on_children with
  | step tree inner =>
    by_cases childless : tree.children = []
    · rw [leaves_of_children_eq_nil childless, List.mem_singleton] at mem
      exact mem ▸ childless
    · rw [leaves_of_children_ne_nil childless, mem_leavesAll_iff] at mem
      obtain ⟨child, member, mem⟩ := mem
      exact inner child member mem

/-! ## Trees inside a tree -/

/-- Two trees lie apart: one ends before the other begins. -/
def Apart (first second : Tree) : Prop := first.stop ≤ second.start ∨ second.stop ≤ first.start

theorem PlacedIn.apart (placed : PlacedIn start stop trees) :
    ∀ first ∈ trees, ∀ second ∈ trees, first = second ∨ first.Apart second := by
  refine List.Pairwise.forall_of_forall_of_flip (fun _ _ => .inl rfl) (placed.pairwise.imp ?_) (placed.pairwise.imp ?_)
  · exact fun before => .inr (.inl before)
  · exact fun before => .inr (.inr before)

theorem mem_preorderAll_iff {trees : List Tree} {inner : Tree} :
    inner ∈ preorderAll trees ↔ ∃ tree ∈ trees, inner ∈ tree.preorder := by
  induction trees with
  | nil => simp [preorderAll]
  | cons head later iff => simp [preorderAll, iff]

theorem mem_preorder_iff {tree inner : Tree} :
    inner ∈ tree.preorder ↔ inner = tree ∨ ∃ child ∈ tree.children, inner ∈ child.preorder := by
  cases tree with
  | node kind role start stop children =>
    rw [preorder, List.mem_cons, mem_preorderAll_iff]
    rfl

theorem mem_preorder_self (tree : Tree) : tree ∈ tree.preorder := mem_preorder_iff.mpr (.inl rfl)

theorem mem_preorder_trans {root inner : Tree} (outer : tree ∈ root.preorder) (mem : inner ∈ tree.preorder) :
    inner ∈ root.preorder := by
  induction root using induction_on_children with
  | step root trans =>
    rcases mem_preorder_iff.mp outer with rfl | ⟨child, member, outer⟩
    · exact mem
    · exact mem_preorder_iff.mpr (.inr ⟨child, member, trans child member outer⟩)

theorem mem_preorder_of_mem_children {root child : Tree} (outer : tree ∈ root.preorder) (mem : child ∈ tree.children) :
    child ∈ root.preorder :=
  mem_preorder_trans outer (mem_preorder_iff.mpr (.inr ⟨child, mem, mem_preorder_self child⟩))

theorem mem_preorder_of_mem_leaves {leaf : Tree} (mem : leaf ∈ tree.leaves) : leaf ∈ tree.preorder := by
  induction tree using induction_on_children with
  | step tree below =>
    by_cases childless : tree.children = []
    · rw [leaves_of_children_eq_nil childless, List.mem_singleton] at mem
      exact mem ▸ mem_preorder_self tree
    · rw [leaves_of_children_ne_nil childless, mem_leavesAll_iff] at mem
      obtain ⟨child, member, mem⟩ := mem
      exact mem_preorder_iff.mpr (.inr ⟨child, member, below child member mem⟩)

theorem eq_or_exists_parent {root : Tree} (inside : tree ∈ root.preorder) :
    tree = root ∨ ∃ parent ∈ root.preorder, tree ∈ parent.children := by
  induction root using Tree.induction_on_children with
  | step root below =>
    rcases Tree.mem_preorder_iff.mp inside with rfl | ⟨child, member, mem⟩
    · exact .inl rfl
    · rcases below child member mem with rfl | ⟨parent, outer, found⟩
      · exact .inr ⟨root, root.mem_preorder_self, member⟩
      · exact .inr ⟨parent, Tree.mem_preorder_trans (Tree.mem_preorder_of_mem_children root.mem_preorder_self member) outer,
          found⟩

/-- A tree inside a well placed one is well placed and lies within its range. -/
theorem Placed.inner {root inner : Tree} (placed : root.Placed) (mem : inner ∈ root.preorder) :
    inner.Placed ∧ root.start ≤ inner.start ∧ inner.stop ≤ root.stop := by
  induction root using induction_on_children with
  | step root below =>
    rcases mem_preorder_iff.mp mem with rfl | ⟨child, member, mem⟩
    · exact ⟨placed, Nat.le_refl _, Nat.le_refl _⟩
    · have bounds := placed.children.bounds member
      obtain ⟨own, front, back⟩ := below child member (placed.children.placed member) mem
      exact ⟨own, by omega, by omega⟩

/-- The children of the trees inside a well placed one lie within its range, with a byte at least. -/
theorem Placed.child {root parent child : Tree} (placed : root.Placed) (inside : parent ∈ root.preorder)
    (mem : child ∈ parent.children) : root.start ≤ child.start ∧ child.start < child.stop ∧ child.stop ≤ root.stop := by
  obtain ⟨own, front, back⟩ := placed.inner inside
  have := own.children.bounds mem
  omega

/-- A leaf lies in a tree or apart from it. -/
theorem Placed.mem_leaves_or_apart {root inner leaf : Tree} (placed : root.Placed) (mem : inner ∈ root.preorder)
    (member : leaf ∈ root.leaves) : leaf ∈ inner.leaves ∨ leaf.Apart inner := by
  induction root using induction_on_children with
  | step root below =>
    rcases mem_preorder_iff.mp mem with rfl | ⟨first, firstMember, mem⟩
    · exact .inl member
    · rw [leaves_of_children_ne_nil (List.ne_nil_of_mem firstMember)] at member
      obtain ⟨second, secondMember, member⟩ := mem_leavesAll_iff.mp member
      have firstBounds := placed.children.bounds firstMember
      have secondBounds := placed.children.bounds secondMember
      have leafBounds := (placed.children.placed secondMember).leaf_bounds secondBounds.2.1 member
      have innerBounds := (placed.children.placed firstMember).inner mem
      by_cases same : first = second
      · subst same
        exact below first firstMember (placed.children.placed firstMember) mem member
      · right
        rcases placed.children.apart first firstMember second secondMember with eq | before | after
        · exact absurd eq same
        · exact .inr (by omega)
        · exact .inl (by omega)

/-- Of two trees one lies in the other, or they lie apart. -/
theorem Placed.nested_or_apart {root first second : Tree} (placed : root.Placed) (memFirst : first ∈ root.preorder)
    (memSecond : second ∈ root.preorder) :
    first ∈ second.preorder ∨ second ∈ first.preorder ∨ first.Apart second := by
  induction root using induction_on_children with
  | step root below =>
    rcases mem_preorder_iff.mp memFirst with rfl | ⟨outer, outerMember, memOuter⟩
    · exact .inr (.inl memSecond)
    rcases mem_preorder_iff.mp memSecond with rfl | ⟨other, otherMember, memOther⟩
    · exact .inl memFirst
    rcases placed.children.apart outer outerMember other otherMember with rfl | apart
    · exact below outer outerMember (placed.children.placed outerMember) memOuter memOther
    · have firstBounds := (placed.children.placed outerMember).inner memOuter
      have secondBounds := (placed.children.placed otherMember).inner memOther
      unfold Apart at apart ⊢
      omega

/-! ## Neighbours -/

/-- A tree is found among its siblings, which it parts. -/
theorem around_of_mem (before : List Tree) (ordered : trees.Pairwise fun first second => first.stop ≤ second.start)
    (nonempty : ∀ sibling ∈ trees, sibling.start < sibling.stop) (mem : tree ∈ trees) :
    ∃ front behind, trees = front ++ tree :: behind ∧ tree.around before trees = (front.reverse ++ before, behind) := by
  induction trees generalizing before with
  | nil => cases mem
  | cons head later found =>
    obtain ⟨first, rest⟩ := List.pairwise_cons.mp ordered
    unfold around
    by_cases same : tree = head
    · subst same
      exact ⟨[], later, rfl, by simp⟩
    · have member : tree ∈ later := (List.mem_cons.mp mem).resolve_left same
      have differs : ¬ (decide (head.start = tree.start) && decide (head.stop = tree.stop)) = true := by
        have := first tree member
        have := nonempty head List.mem_cons_self
        simp only [Bool.and_eq_true, decide_eq_true_eq]
        omega
      obtain ⟨front, behind, rfl, eq⟩ :=
        found (head :: before) rest (fun sibling mem => nonempty sibling (List.mem_cons_of_mem _ mem)) member
      refine ⟨head :: front, behind, rfl, ?_⟩
      rw [if_neg differs, eq]
      simp

/-- The comma that goes with an element of a list: the one behind it, or else the one before it. -/
def listComma? (siblings : List Tree) (tree : Tree) : Option Tree :=
  ((tree.neighbours siblings).2.filter isComma).or ((tree.neighbours siblings).1.filter isComma)

/-- The range of an element together with its comma. -/
def stretch (siblings : List Tree) (tree : Tree) : Nat × Nat :=
  match tree.listComma? siblings with
  | some comma => (min tree.start comma.start, max tree.stop comma.stop)
  | none => (tree.start, tree.stop)

/-- A range lies apart from a tree. -/
def ApartFrom (tree : Tree) (range : Nat × Nat) : Prop := tree.stop ≤ range.1 ∨ range.2 ≤ tree.start

/-- The comma of an element stands next to it when comments are left out. -/
inductive CommaBeside (siblings : List Tree) (tree : Tree) : Prop
  | behind {comma : Tree} {front later : List Tree} (isComma : comma.isComma = true)
      (order : siblings.filter (fun sibling => !sibling.isComment) = front ++ tree :: comma :: later)
      (next : (tree.neighbours siblings).2.filter Tree.isComma = some comma)
  | before {comma : Tree} {earlier later : List Tree} (isComma : comma.isComma = true)
      (order : siblings.filter (fun sibling => !sibling.isComment) = earlier ++ comma :: tree :: later)
      (next : (tree.neighbours siblings).2.filter Tree.isComma = none)
      (previous : (tree.neighbours siblings).1.filter Tree.isComma = some comma)
  | missing {front later : List Tree}
      (order : siblings.filter (fun sibling => !sibling.isComment) = front ++ tree :: later)
      (next : (tree.neighbours siblings).2.filter Tree.isComma = none)
      (previous : (tree.neighbours siblings).1.filter Tree.isComma = none)

theorem PlacedIn.commaBeside (placed : PlacedIn start stop trees) (mem : tree ∈ trees)
    (notComment : tree.isComment = false) : CommaBeside trees tree := by
  have member : tree ∈ trees.filter fun sibling => !sibling.isComment := by simp [mem, notComment]
  obtain ⟨front, behind, order, around⟩ := around_of_mem [] (placed.pairwise.filter _)
    (fun sibling member => (placed.bounds (List.mem_filter.mp member).1).2.1) member
  have neighbours : tree.neighbours trees = (front.reverse.head?, behind.head?) := by
    unfold Tree.neighbours
    rw [around, List.append_nil]
  rcases after : (tree.neighbours trees).2.filter Tree.isComma with _ | comma
  · rcases before : (tree.neighbours trees).1.filter Tree.isComma with _ | comma
    · exact .missing order after before
    · have found := before
      rw [neighbours] at found
      obtain ⟨last, isComma⟩ := Option.filter_eq_some_iff.mp found
      obtain ⟨later, split⟩ := List.head?_eq_some_iff.mp last
      have frontSplit : front = later.reverse ++ [comma] := by
        rw [← List.reverse_reverse front, split, List.reverse_cons]
      have beside : trees.filter (fun sibling => !sibling.isComment) = later.reverse ++ comma :: tree :: behind := by
        rw [order, frontSplit, List.append_assoc]
        rfl
      exact .before isComma beside after before
  · have found := after
    rw [neighbours] at found
    obtain ⟨first, isComma⟩ := Option.filter_eq_some_iff.mp found
    obtain ⟨later, split⟩ := List.head?_eq_some_iff.mp first
    exact .behind isComma (by rw [order, split]) after

/-- The comma of an element stands among its siblings. -/
theorem PlacedIn.mem_of_listComma? (placed : PlacedIn start stop trees) (mem : tree ∈ trees)
    (notComment : tree.isComment = false) {sibling : Tree} (comma : tree.listComma? trees = some sibling) :
    sibling ∈ trees := by
  have found {other : Tree} (among : other ∈ trees.filter fun sibling => !sibling.isComment) : other ∈ trees :=
    (List.mem_filter.mp among).1
  cases placed.commaBeside mem notComment with
  | behind isComma order next =>
    rw [listComma?, next] at comma
    cases comma
    exact found (by rw [order]; simp)
  | before isComma order next previous =>
    rw [listComma?, next, previous] at comma
    cases comma
    exact found (by rw [order]; simp)
  | missing order next previous =>
    rw [listComma?, next, previous] at comma
    cases comma

theorem PlacedIn.isComma_of_listComma? (placed : PlacedIn start stop trees) (mem : tree ∈ trees)
    (notComment : tree.isComment = false) {sibling : Tree} (comma : tree.listComma? trees = some sibling) :
    sibling.isComma = true := by
  cases placed.commaBeside mem notComment with
  | behind isComma _ next =>
    rw [listComma?, next] at comma
    cases comma
    exact isComma
  | before isComma _ next previous =>
    rw [listComma?, next, previous] at comma
    cases comma
    exact isComma
  | missing _ next previous =>
    rw [listComma?, next, previous] at comma
    cases comma

/-- Between an element and its comma stand comments only. -/
theorem PlacedIn.apart_stretch (placed : PlacedIn start stop trees) (mem : tree ∈ trees)
    (notComment : tree.isComment = false) {sibling : Tree} (member : sibling ∈ trees) :
    sibling = tree ∨ sibling.isComment = true ∨ tree.listComma? trees = some sibling ∨
      sibling.ApartFrom (tree.stretch trees) := by
  by_cases comment : sibling.isComment = true
  · exact .inr (.inl comment)
  have sifted : sibling ∈ trees.filter fun sibling => !sibling.isComment := by simp [member, comment]
  have ordered := placed.pairwise.filter fun sibling => !sibling.isComment
  unfold ApartFrom stretch
  cases placed.commaBeside mem notComment with
  | @behind comma front later isComma order next =>
    have found : tree.listComma? trees = some comma := by rw [listComma?, next]; rfl
    rw [order] at sifted ordered
    obtain ⟨-, tail, inFront⟩ := List.pairwise_append.mp ordered
    obtain ⟨behind, rest⟩ := List.pairwise_cons.mp tail
    obtain ⟨afterComma, -⟩ := List.pairwise_cons.mp rest
    have next := behind comma List.mem_cons_self
    rw [found]
    dsimp only
    rcases List.mem_append.mp sifted with inFront' | sifted
    · have := inFront sibling inFront' tree List.mem_cons_self
      have := inFront sibling inFront' comma (by simp)
      omega
    · rcases List.mem_cons.mp sifted with same | sifted
      · exact .inl same
      · rcases List.mem_cons.mp sifted with same | sifted
        · exact .inr (.inr (.inl (same ▸ rfl)))
        · have := afterComma sibling sifted
          have := behind sibling (List.mem_cons_of_mem _ sifted)
          omega
  | @before comma earlier later isComma order next previous =>
    have found : tree.listComma? trees = some comma := by rw [listComma?, next, previous]; rfl
    rw [order] at sifted ordered
    obtain ⟨-, tail, inFront⟩ := List.pairwise_append.mp ordered
    obtain ⟨behind, rest⟩ := List.pairwise_cons.mp tail
    obtain ⟨afterTree, -⟩ := List.pairwise_cons.mp rest
    have next := behind tree List.mem_cons_self
    rw [found]
    dsimp only
    rcases List.mem_append.mp sifted with sifted | sifted
    · have := inFront sibling sifted comma List.mem_cons_self
      have := inFront sibling sifted tree (by simp)
      omega
    · rcases List.mem_cons.mp sifted with same | sifted
      · exact .inr (.inr (.inl (same ▸ rfl)))
      · rcases List.mem_cons.mp sifted with same | sifted
        · exact .inl same
        · have := afterTree sibling sifted
          have := behind sibling (List.mem_cons_of_mem _ sifted)
          omega
  | @missing front later order next previous =>
    have found : tree.listComma? trees = none := by rw [listComma?, next, previous]; rfl
    rw [order] at sifted ordered
    obtain ⟨-, tail, inFront⟩ := List.pairwise_append.mp ordered
    obtain ⟨behind, -⟩ := List.pairwise_cons.mp tail
    rw [found]
    dsimp only
    rcases List.mem_append.mp sifted with sifted | sifted
    · exact .inr (.inr (.inr (.inl (inFront sibling sifted tree List.mem_cons_self))))
    · rcases List.mem_cons.mp sifted with same | sifted
      · exact .inl same
      · exact .inr (.inr (.inr (.inr (behind sibling sifted))))

/-- An element and its comma lie in the range of their list. -/
theorem PlacedIn.stretch_bounds (placed : PlacedIn start stop trees) (mem : tree ∈ trees)
    (notComment : tree.isComment = false) :
    start ≤ (tree.stretch trees).1 ∧ (tree.stretch trees).1 ≤ tree.start ∧ tree.stop ≤ (tree.stretch trees).2 ∧
      (tree.stretch trees).2 ≤ stop := by
  have own := placed.bounds mem
  have inside {comma : Tree} (member : comma ∈ trees.filter fun sibling => !sibling.isComment) :=
    placed.bounds (List.mem_filter.mp member).1
  unfold stretch
  cases placed.commaBeside mem notComment with
  | @behind comma front later isComma order next =>
    have found : tree.listComma? trees = some comma := by rw [listComma?, next]; rfl
    have := inside (by simp [order] : comma ∈ _)
    rw [found]
    dsimp only
    omega
  | @before comma earlier later isComma order next previous =>
    have found : tree.listComma? trees = some comma := by rw [listComma?, next, previous]; rfl
    have := inside (by simp [order] : comma ∈ _)
    rw [found]
    dsimp only
    omega
  | missing order next previous =>
    have found : tree.listComma? trees = none := by rw [listComma?, next, previous]; rfl
    rw [found]
    dsimp only
    omega

end Tree

end Scaffold.Syntax
