import Scaffold.Edit.Call
import Scaffold.Proofs.Syntax.Placement

/-! # The statements of calls

A call that is meant takes the statement with it that is the nearest one around it. No block, class or file lies
between the two.
-/

namespace Scaffold.Edit

open Scaffold.Text Scaffold.Syntax

variable {source : Bytes} {target : CallTarget} {outer : Option Range} {root tree : Tree} {range : Range}

/-- A tree holds a call that is meant, and that stands in no statement or block inside the tree. -/
inductive HoldsCall (source : Bytes) (target : CallTarget) : Tree → Prop
  | child {tree child : Tree} (mem : child ∈ tree.children) (accepted : target.accepts source child = true) :
      HoldsCall source target tree
  | deeper {tree child : Tree} (mem : child ∈ tree.children) (inner : isBoundary child.kind = false)
      (other : isStatement child.kind = false) (holds : HoldsCall source target child) : HoldsCall source target tree

/-- A call that is meant, or a tree from which one is reached past no statement or block. -/
def LeadsToCall (source : Bytes) (target : CallTarget) (tree : Tree) : Prop :=
  target.accepts source tree = true ∨
    isBoundary tree.kind = false ∧ isStatement tree.kind = false ∧ HoldsCall source target tree

theorem HoldsCall.of_child {child : Tree} (mem : child ∈ tree.children) (leads : LeadsToCall source target child) :
    HoldsCall source target tree := by
  rcases leads with accepted | ⟨inner, other, holds⟩
  · exact .child mem accepted
  · exact .deeper mem inner other holds

theorem callRangesAll_eq_flatMap (target : CallTarget) (outer : Option Range) (trees : List Tree) :
    callRangesAll source target outer trees = trees.flatMap (callRanges source target outer) := by
  induction trees with
  | nil => rfl
  | cons tree later eq => rw [callRangesAll, eq, List.flatMap_cons]

theorem callRanges_eq (target : CallTarget) (outer : Option Range) (tree : Tree) :
    callRanges source target outer tree = (if target.accepts source tree then outer.toList else []) ++
      tree.children.flatMap (callRanges source target (innerStatement outer tree)) := by
  cases tree
  rw [callRanges, callRangesAll_eq_flatMap]
  rfl

/-- The range of a call is the one around the tree, or that of a statement in it that holds the call. -/
theorem mem_callRanges (mem : range ∈ callRanges source target outer tree) :
    outer = some range ∧ LeadsToCall source target tree ∨ ∃ statement ∈ tree.preorder,
      isStatement statement.kind = true ∧ HoldsCall source target statement ∧ range = ⟨statement.start, statement.stop⟩ := by
  induction tree using Tree.induction_on_children generalizing outer with
  | step tree below =>
    rw [callRanges_eq] at mem
    rcases List.mem_append.mp mem with own | mem
    · split at own
      · next accepted => exact .inl ⟨Option.mem_toList.mp own, .inl accepted⟩
      · cases own
    · obtain ⟨child, member, mem⟩ := List.mem_flatMap.mp mem
      rcases below child member mem with ⟨around, leads⟩ | ⟨statement, inside, found⟩
      · have holds := HoldsCall.of_child member leads
        unfold innerStatement at around
        split at around
        · cases around
        · next inner =>
          split at around
          · next isStatement_ =>
            cases around
            exact .inr ⟨tree, tree.mem_preorder_self, isStatement_, holds, rfl⟩
          · next other =>
            exact .inl ⟨around, .inr ⟨Bool.eq_false_iff.mpr inner, Bool.eq_false_iff.mpr other, holds⟩⟩
      · exact .inr ⟨statement, Tree.mem_preorder_trans (Tree.mem_preorder_of_mem_children tree.mem_preorder_self member)
          inside, found⟩

/-- The ranges of the calls of a file are those of the statements that hold them. -/
theorem exists_holder_of_mem_callRanges (mem : range ∈ callRanges source target none root) :
    ∃ statement ∈ root.preorder, isStatement statement.kind = true ∧ HoldsCall source target statement ∧
      range = ⟨statement.start, statement.stop⟩ := by
  rcases mem_callRanges mem with ⟨none_, -⟩ | found
  · cases none_
  · exact found

/-- The statement around a tree is among the ranges of the calls that are reached from the tree. -/
theorem mem_callRanges_of_leads (leads : LeadsToCall source target tree) :
    range ∈ callRanges source target (some range) tree := by
  have through (inner : isBoundary tree.kind = false) (other : isStatement tree.kind = false)
      (below : range ∈ tree.children.flatMap (callRanges source target (some range))) :
      range ∈ callRanges source target (some range) tree := by
    rw [callRanges_eq, innerStatement, inner, other]
    exact List.mem_append_right _ below
  rcases leads with accepted | ⟨inner, other, holds⟩
  · rw [callRanges_eq, if_pos accepted]
    exact List.mem_append_left _ (by simp)
  · apply through inner other
    clear through inner other
    induction holds with
    | child mem accepted =>
      refine List.mem_flatMap.mpr ⟨_, mem, ?_⟩
      rw [callRanges_eq, if_pos accepted]
      exact List.mem_append_left _ (by simp)
    | @deeper tree child mem inner other holds below =>
      refine List.mem_flatMap.mpr ⟨_, mem, ?_⟩
      rw [callRanges_eq, innerStatement, inner, other]
      exact List.mem_append_right _ below

/-- No statement is one of the constructs that statements do not reach beyond. -/
theorem isBoundary_of_isStatement {kind : Kind} (isStatement_ : isStatement kind = true) : isBoundary kind = false := by
  cases kind <;> first | rfl | cases isStatement_

theorem HoldsCall.exists_leads (holds : HoldsCall source target tree) :
    ∃ child ∈ tree.children, LeadsToCall source target child := by
  cases holds with
  | child mem accepted => exact ⟨_, mem, .inl accepted⟩
  | deeper mem inner other holds => exact ⟨_, mem, .inr ⟨inner, other, holds⟩⟩

/-- Every statement that holds a call is among the ranges. -/
theorem mem_callRanges_of_holds {statement : Tree} (inside : statement ∈ tree.preorder)
    (isStatement_ : isStatement statement.kind = true) (holds : HoldsCall source target statement) :
    ⟨statement.start, statement.stop⟩ ∈ callRanges source target outer tree := by
  induction tree using Tree.induction_on_children generalizing outer with
  | step tree below =>
    rw [callRanges_eq]
    apply List.mem_append_right
    rcases Tree.mem_preorder_iff.mp inside with rfl | ⟨child, member, mem⟩
    · obtain ⟨child, member, leads⟩ := holds.exists_leads
      refine List.mem_flatMap.mpr ⟨child, member, ?_⟩
      rw [innerStatement, isBoundary_of_isStatement isStatement_, isStatement_]
      exact mem_callRanges_of_leads leads
    · exact List.mem_flatMap.mpr ⟨child, member, below child member mem⟩

/-- The ranges of the calls of a file are those of the statements that hold them, and no others. -/
theorem mem_callRanges_iff : range ∈ callRanges source target none root ↔
    ∃ statement ∈ root.preorder, isStatement statement.kind = true ∧ HoldsCall source target statement ∧
      range = ⟨statement.start, statement.stop⟩ := by
  constructor
  · exact exists_holder_of_mem_callRanges
  · rintro ⟨statement, inside, isStatement_, holds, rfl⟩
    exact mem_callRanges_of_holds inside isStatement_ holds

/-! ## Ranges that lie in no other -/

theorem outermostAfter_sublist (last : Range) (ranges : List Range) : (outermostAfter last ranges).Sublist ranges := by
  induction ranges generalizing last with
  | nil => exact .refl _
  | cons range later sublist =>
    unfold outermostAfter
    split
    · exact (sublist last).cons range
    · exact (sublist range).cons_cons range

theorem mem_of_mem_outermost {ranges : List Range} {range : Range} (mem : range ∈ outermost ranges) : range ∈ ranges := by
  refine (List.mergeSort_perm ranges Range.before).mem_iff.mp ?_
  unfold outermost at mem
  split at mem
  · cases mem
  · next first later eq =>
    rw [eq]
    exact ((outermostAfter_sublist first later).cons_cons first).subset mem

namespace Range

/-- A range lies in another one. -/
def Within (inner outer : Range) : Prop := outer.start ≤ inner.start ∧ inner.stop ≤ outer.stop

theorem before_trans {first second third : Range} (earlier : first.before second = true)
    (later : second.before third = true) : first.before third = true := by
  simp only [before, Bool.or_eq_true, decide_eq_true_eq, Bool.and_eq_true] at *
  omega

theorem before_total (first second : Range) : (first.before second || second.before first) = true := by
  simp only [before, Bool.or_eq_true, decide_eq_true_eq, Bool.and_eq_true]
  omega

end Range


variable {ranges : List Range}

end Scaffold.Edit
