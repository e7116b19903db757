import Scaffold.Proofs.Syntax.Openings
import Scaffold.Proofs.Syntax.Relocation

/-! # The same text at another offset

A derivation does not depend on how much of the file stands in front of it. The trees are moved, and nothing else
changes in them.
-/

namespace Scaffold.Syntax

open Scaffold.Text

variable {source target offset place skip : Nat} {trees : List Tree} {at_ next : Cursor}

/-- The place of a cursor after a move. -/
structure Cursor.Shifts (source target : Nat) (at_ there : Cursor) : Prop where
  offset_eq : at_.offset + target = there.offset + source
  rest_eq : there.rest = at_.rest

theorem triviaFrom_shift (text : List Char) (moves : offset + target = place + source) :
    (triviaFrom place skip text).1 = (triviaFrom offset skip text).1.map (Tree.moved source target) ∧
      Cursor.Shifts source target (triviaFrom offset skip text).2 (triviaFrom place skip text).2 := by
  induction text generalizing offset place skip with
  | nil => cases skip <;> exact ⟨rfl, moves, rfl⟩
  | cons c text same =>
    have step : offset + charWidth c + target = place + charWidth c + source := by omega
    cases skip with
    | succ skip => exact same step
    | zero =>
      simp only [triviaFrom]
      split
      · exact same step
      · split
        · exact ⟨rfl, moves, rfl⟩
        · next skip _ =>
          obtain ⟨comments, shifts⟩ := @same _ _ skip step
          refine ⟨?_, shifts⟩
          rw [comments, List.map_cons, Tree.moved, Tree.movedAll]
          simp only [List.cons.injEq, Tree.node.injEq, true_and, and_true]
          omega

theorem readGlued_shift {kind : Kind} {terminal : Terminal} {there : Cursor} (shifts : at_.Shifts source target there)
    (found : readGlued kind terminal at_ = some (trees, next)) :
    ∃ next', next.Shifts source target next' ∧ readGlued kind terminal there = some (trees.map (Tree.moved source target), next') := by
  obtain ⟨offset, rest⟩ := at_
  obtain ⟨place, rest'⟩ := there
  obtain ⟨moves, same⟩ := shifts
  obtain rfl : rest' = rest := same
  dsimp only at moves
  unfold readGlued at found ⊢
  split at found
  · cases found
  · cases found
    refine ⟨Cursor.advance ⟨place, rest'⟩ (terminal.length rest'), ⟨?_, rfl⟩, ?_⟩
    · simp only [Cursor.advance]
      omega
    · simp only [List.map_cons, List.map_nil, Tree.moved, Tree.movedAll, Cursor.advance, Option.some.injEq, Prod.mk.injEq,
        List.cons.injEq, Tree.node.injEq, true_and, and_true]
      omega

theorem readLeaf_shift {kind : Kind} {terminal : Terminal} {there : Cursor} (shifts : at_.Shifts source target there)
    (found : readLeaf kind terminal at_ = some (trees, next)) :
    ∃ next', next.Shifts source target next' ∧ readLeaf kind terminal there = some (trees.map (Tree.moved source target), next') := by
  obtain ⟨offset, rest⟩ := at_
  obtain ⟨place, rest'⟩ := there
  obtain ⟨moves, same⟩ := shifts
  obtain rfl : rest' = rest := same
  obtain ⟨comments, behind⟩ := @triviaFrom_shift _ _ _ _ 0 rest' moves
  unfold readLeaf at found ⊢
  simp only [Cursor.trivia] at found ⊢
  split at found
  · cases found
  · next glued =>
    cases found
    obtain ⟨next', shifts, glued'⟩ := readGlued_shift behind glued
    refine ⟨next', shifts, ?_⟩
    rw [glued']
    simp only [comments, List.map_append]

theorem readEnding_shift {ending : StatementEnd} {fresh : Bool} (text : List Char) (moves : offset + target = place + source)
    (found : readEnding ending offset fresh skip text = some (trees, next)) :
    ∃ next', next.Shifts source target next' ∧
      readEnding ending place fresh skip text = some (trees.map (Tree.moved source target), next') := by
  induction text generalizing offset place fresh skip trees with
  | nil =>
    cases skip <;> cases fresh <;> simp only [readEnding] at found <;> cases found <;>
      exact ⟨⟨place, []⟩, ⟨moves, rfl⟩, rfl⟩
  | cons c text same =>
    have step : offset + charWidth c + target = place + charWidth c + source := by omega
    cases skip with
    | succ skip => exact same step found
    | zero =>
      simp only [readEnding] at found ⊢
      split at found
      · next stops =>
        cases found
        rw [if_pos stops]
        exact ⟨⟨place, c :: text⟩, ⟨moves, rfl⟩, rfl⟩
      · next goesOn =>
        rw [if_neg goesOn]
        split at found
        · next separator =>
          rw [if_pos separator]
          exact same step found
        · next plain =>
          rw [if_neg plain]
          split at found
          · cases found
          · split at found
            · cases found
            · next inner =>
              cases found
              obtain ⟨next', shifts, inner'⟩ := same step inner
              refine ⟨next', shifts, ?_⟩
              rw [inner', List.map_cons, Tree.moved, Tree.movedAll]
              simp only [Option.some.injEq, Prod.mk.injEq, List.cons.injEq, Tree.node.injEq, true_and, and_true]
              omega

theorem gather_map_moved (kind : Kind) (trees : List Tree) :
    gather kind (trees.map (Tree.moved source target)) = (gather kind trees).map (Tree.moved source target) := by
  rcases comments_or_split trees with comments | ⟨comments, first, later, rfl, comment, plain⟩
  · rw [gather_of_comments comments, gather_of_comments (by simpa using comments)]
  · have last : ((first.moved source target) :: later.map (Tree.moved source target)).getLast (List.cons_ne_nil _ _) =
        ((first :: later).getLast (List.cons_ne_nil _ _)).moved source target := by
      simp only [← List.map_cons, List.getLast_map]
    rw [List.map_append, List.map_cons, gather_eq comment plain, gather_eq (by simpa using comment) (by simpa using plain)]
    simp only [List.map_append, List.map_cons, List.map_nil, Tree.moved, Tree.movedAll_eq, Tree.start_moved, last,
      Tree.stop_moved]

theorem moved_extended (kind : Kind) (role : Option Role) (tree : Tree) (trees : List Tree) :
    (tree.extended kind role trees).moved source target =
      (tree.moved source target).extended kind role (trees.map (Tree.moved source target)) := by
  have stop : ((trees.map (Tree.moved source target)).getLast?.map Tree.stop).getD (tree.moved source target).stop =
      (trees.getLast?.map Tree.stop).getD tree.stop + target - source := by
    rw [List.getLast?_map]
    cases trees.getLast? <;> simp
  unfold Tree.extended
  rw [stop, Tree.start_moved]
  cases role with
  | none => rw [Tree.moved, Tree.movedAll_eq, List.map_cons]
  | some role => rw [Tree.moved, Tree.movedAll_eq, List.map_cons, Tree.moved_withRole]

variable {σ : Type} {grammar : Grammar σ} {rule : Rule σ}

/-- What is derived at one offset is derived at any other. -/
theorem Grammar.Derives.shift {there : Cursor} (strict : grammar.tolerant = false) (derived : grammar.Derives rule at_ trees next)
    (shifts : at_.Shifts source target there) :
    ∃ next', next.Shifts source target next' ∧ grammar.Derives rule there (trees.map (Tree.moved source target)) next' := by
  induction derived generalizing there with
  | empty => exact ⟨there, shifts, .empty⟩
  | without => exact ⟨there, shifts, .without⟩
  | manyNone => exact ⟨there, shifts, .manyNone⟩
  | itemsNone => exact ⟨there, shifts, .itemsNone⟩
  | leaf found =>
    obtain ⟨next', shifts, found⟩ := readLeaf_shift shifts found
    exact ⟨next', shifts, .leaf found⟩
  | glued found =>
    obtain ⟨next', shifts, found⟩ := readGlued_shift shifts found
    exact ⟨next', shifts, .glued found⟩
  | ending found =>
    obtain ⟨next', after, found⟩ := readEnding_shift _ shifts.offset_eq found
    rw [← shifts.rest_eq] at found
    exact ⟨next', after, .ending found⟩
  | call _ inner =>
    obtain ⟨next', shifts, inner⟩ := inner shifts
    exact ⟨next', shifts, .call inner⟩
  | seq _ _ front back =>
    obtain ⟨between', shifts, front⟩ := front shifts
    obtain ⟨next', shifts, back⟩ := back shifts
    exact ⟨next', shifts, List.map_append ▸ .seq front back⟩
  | first _ inner =>
    obtain ⟨next', shifts, inner⟩ := inner shifts
    exact ⟨next', shifts, .first inner⟩
  | second _ inner =>
    obtain ⟨next', shifts, inner⟩ := inner shifts
    exact ⟨next', shifts, .second inner⟩
  | manyMore _ _ front back =>
    obtain ⟨between', shifts, front⟩ := front shifts
    obtain ⟨next', shifts, back⟩ := back shifts
    exact ⟨next', shifts, List.map_append ▸ .manyMore front back⟩
  | itemsMore _ _ front back =>
    obtain ⟨between', shifts, front⟩ := front shifts
    obtain ⟨next', shifts, back⟩ := back shifts
    exact ⟨next', shifts, List.map_append ▸ .itemsMore front back⟩
  | itemsError tolerant =>
    rw [strict] at tolerant
    cases tolerant
  | node _ inner =>
    obtain ⟨next', shifts, inner⟩ := inner shifts
    exact ⟨next', shifts, gather_map_moved _ _ ▸ .node inner⟩
  | @role role _ _ _ _ _ inner =>
    obtain ⟨next', shifts, inner⟩ := inner shifts
    refine ⟨next', shifts, ?_⟩
    have swaps : Tree.moved source target ∘ Tree.withRole role = Tree.withRole role ∘ Tree.moved source target :=
      funext fun tree => Tree.moved_withRole tree role
    rw [List.map_map, swaps, ← List.map_map]
    exact .role inner
  | only _ last accepted inner =>
    obtain ⟨next', shifts, inner⟩ := inner shifts
    have last' : (List.map (Tree.moved source target) _).getLast? = _ := List.getLast?_map.trans (congrArg _ last)
    exact ⟨next', shifts, .only inner last' (by rw [Tree.kind_moved]; exact accepted)⟩
  | base _ inner =>
    obtain ⟨next', shifts, inner⟩ := inner shifts
    exact ⟨next', shifts, .base inner⟩
  | grown _ tail accepted _ front back =>
    obtain ⟨between', shifts, front⟩ := front shifts
    obtain ⟨next', shifts, back⟩ := back shifts
    rw [List.map_append] at front
    refine ⟨next', shifts, ?_⟩
    rw [List.map_append, List.map_cons, List.map_nil, moved_extended]
    exact .grown front tail (by rw [Tree.kind_moved]; exact accepted) back

/-! ## The same offset -/

namespace Tree

mutual

theorem moved_zero : ∀ tree : Tree, tree.moved 0 0 = tree
  | .node kind role start stop children => by rw [moved, movedAll_zero children]; rfl

theorem movedAll_zero : ∀ trees : List Tree, movedAll 0 0 trees = trees
  | [] => rfl
  | tree :: later => by rw [movedAll, moved_zero tree, movedAll_zero later]

end

end Tree

theorem triviaFrom_blank {blank : List Char} (each : ∀ c ∈ blank, isSeparator c = true) (offset : Nat) (rest : List Char) :
    triviaFrom offset 0 (blank ++ rest) = triviaFrom (offset + width blank) 0 rest := by
  induction blank generalizing offset with
  | nil => rfl
  | cons c blank same =>
    rw [List.cons_append, triviaFrom, if_pos (each c List.mem_cons_self),
      same (fun d mem => each d (List.mem_cons_of_mem c mem)), width_cons, Nat.add_assoc]

/-- The comments in front of a token are those in front of another one there. -/
theorem triviaFrom_swap {offset : Nat} {gap more other : List Char}
    (stops : (triviaFrom offset 0 (gap ++ more)).2.rest = more) (solid : more ≠ []) (inky : Inky other) :
    triviaFrom offset 0 (gap ++ other) = ((triviaFrom offset 0 (gap ++ more)).1, ⟨offset + width gap, other⟩) := by
  have inked : ∀ c ∈ more.head?, isSeparator c = false := by
    intro c head
    obtain ⟨rest, rfl⟩ := List.head?_eq_some_iff.mp head
    exact triviaFrom_stop _ _ _ stops
  rw [triviaFrom_append stops (Nat.zero_le _) inked solid inky (rfl : offset + 0 = offset + 0),
    List.map_congr_left fun tree _ => Tree.moved_zero tree, List.map_id']

end Scaffold.Syntax
