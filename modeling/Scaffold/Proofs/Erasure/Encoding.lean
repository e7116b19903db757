import Scaffold.Proofs.Erasure.Assignments
import Scaffold.Proofs.Erasure.Edits
import Scaffold.Proofs.Syntax.Characters

/-! # Erasure between characters

Each edit of erasure begins and ends where a tree does, or beside white space or a brace. It puts a text in its place, so
what is left of a file is a text.
-/

namespace Scaffold.Erasure

open Scaffold.Text Scaffold.Syntax

variable {text : List Char} {root tree method statement body : Tree} {edit : Edit} {used names : List String}

/-! ## Sites -/

theorem keepsCharacters_statementRemoval (own : tree.IsBetween text) :
    KeepsCharacters text (statementRemoval (encodeChars text) tree) := by
  obtain ⟨start, stop⟩ := atBoundaries_lineRange own.1 own.2
  unfold statementRemoval
  dsimp only
  split
  · exact keepsCharacters_removal ⟨start, isBoundary_skipBlankLines stop⟩
  · exact keepsCharacters_removal ⟨start, stop⟩

theorem keepsCharacters_importEdit (kept : root.KeepsCharacters text) (inside : statement ∈ root.preorder)
    (judged : importEdit? (encodeChars text) used statement = some edit) : KeepsCharacters text edit := by
  have fate := importFate (encodeChars text) used statement
  rw [judged] at fate
  cases fate with
  | typed | dropped => exact keepsCharacters_statementRemoval (kept statement inside)
  | rewritten _ found => exact ⟨kept.of_mem_children inside (List.mem_of_find?_eq_some found), isEncoded_encode _⟩

theorem keepsCharacters_of_met {site : Site} (kept : root.KeepsCharacters text)
    (met : Block.Met (encodeChars text) root (.site site)) (eq : site.edit? (encodeChars text) used = some edit) :
    KeepsCharacters text edit := by
  cases met with
  | @whole parent tree _ inside member whole =>
    have own := kept.of_mem_children inside member
    cases whole with
    | exact =>
      cases eq
      exact keepsCharacters_removal own
    | clause =>
      cases eq
      exact keepsCharacters_removal ⟨(isBoundary_iff_of_blank (blank_before own.1.le) (Nat.sub_le _ _)).mpr own.1, own.2⟩
    | statement =>
      cases eq
      exact keepsCharacters_statementRemoval own
    | importing => exact keepsCharacters_importEdit kept (Tree.mem_preorder_of_mem_children inside member) eq
    | element =>
      cases eq
      exact keepsCharacters_removal (atBoundaries_elementRange own fun _ mem => kept.of_mem_children inside mem)
    | enumeration =>
      cases eq
      exact ⟨own, isEncoded_encode _⟩
  | @tail parent expression others inside _ children =>
    cases eq
    have own := kept.of_mem_children inside (children ▸ List.mem_cons_self : expression ∈ parent.children)
    exact keepsCharacters_removal ⟨own.2, (kept parent inside).2⟩
  | marker inside _ member _ =>
    cases eq
    have own := kept.of_mem_children inside member
    exact keepsCharacters_removal ⟨own.1, isBoundary_skipSpaces own.2⟩

/-! ## Constructors -/

theorem IsIndent.isEncoded {bytes : Bytes} (spaced : IsIndent bytes) : IsEncoded bytes :=
  .of_ascii fun _ mem => toNat_lt_of_isBlankByte (isBlankByte_of_isIndent (spaced _ mem))

theorem IsRun.isEncoded {run : Bytes} (isRun : IsRun names run) : IsEncoded run := by
  cases isRun with
  | @mk indent closing spaced closes =>
    refine .append ?_ ?_
    · induction names with
      | nil => exact ⟨[], rfl⟩
      | cons name later inner =>
        rw [List.flatMap_cons]
        exact (((isEncoded_encode _).append spaced.isEncoded).append (isEncoded_encode _)).append inner
    · rcases closes with rfl | ⟨outer, rfl, spaced⟩
      · exact ⟨[], rfl⟩
      · exact (isEncoded_encode _).append spaced.isEncoded

/-- The assignments of a constructor go behind a brace or a statement. In a body without statements they take the white space up to
the closing brace. -/
theorem keepsCharacters_assignProperties (kept : root.KeepsCharacters text) (inside : method ∈ root.preorder)
    (opens : ∀ body, method.child? .body = some body → body.Opens)
    (mem : edit ∈ (assignProperties (encodeChars text) method).edits) : KeepsCharacters text edit := by
  have replacement : IsEncoded edit.replacement := by
    rcases assignProperties_cases (encodeChars text) method with none_ | ⟨body, names, only, -, eq, inserts⟩
    · rw [none_] at mem
      cases mem
    · rw [eq] at mem
      obtain rfl := List.mem_singleton.mp mem
      exact inserts.run.isEncoded
  refine ⟨?_, replacement⟩
  obtain ⟨body, found, place⟩ := exists_of_mem_assignProperties mem
  have within := Tree.mem_preorder_of_mem_children inside (List.mem_of_find?_eq_some found)
  rcases place with ⟨first, part, start, stop⟩ | ⟨start, stop⟩
  · have own := kept.of_mem_children within (List.mem_filter.mp part).1
    rw [start, stop]
    exact ⟨own.2, own.2⟩
  · have brace := (opens body found).isBoundary kept within
    rw [start]
    refine ⟨brace, ?_⟩
    rcases stop with stop | ⟨stop, blank⟩
    · rw [stop]
      exact brace
    · rw [stop]
      have own := kept body within
      obtain ⟨opening, -, -, behind, room⟩ := opens body found
      rcases Nat.eq_or_lt_of_le room with same | more
      · -- a body that is nothing but its opening token
        rw [← same, behind, Nat.add_sub_cancel]
        exact own.1
      · have last := own.2.le
        exact (isBoundary_iff_of_blank (blank_of_isBlankRange (by omega) blank) (by omega)).mp brace

/-! ## Files -/

/-- The edits of erasure are between characters, whatever stands in the file. -/
theorem keepsCharacters_of_mem_erasureEdits (kept : root.KeepsCharacters text) (braced : root.IsBraced)
    (mem : edit ∈ erasureEdits (encodeChars text) root) : KeepsCharacters text edit := by
  -- the root may be of any kind: it is met as the only child of a program around it
  let file : Tree := .node .program none root.start root.stop [root]
  have child : root ∈ file.children := List.mem_singleton_self root
  have inside : root ∈ file.preorder := Tree.mem_preorder_of_mem_children file.mem_preorder_self child
  have below {tree : Tree} (mem : tree ∈ file.preorder) : tree = file ∨ tree ∈ root.preorder := by
    rcases Tree.mem_preorder_iff.mp mem with same | ⟨other, member, mem⟩
    · exact .inl same
    · exact .inr (List.mem_singleton.mp member ▸ mem)
  have keptFile : file.KeepsCharacters text := by
    intro tree mem
    rcases below mem with rfl | mem
    · exact kept root root.mem_preorder_self
    · exact kept tree mem
  have met {block : Block} (found : block ∈ blocks (encodeChars text) [root] root) : block.Met (encodeChars text) file :=
    Block.met_of_mem (encodeChars text) [root] inside (fun _ whole => .whole file.mem_preorder_self child whole) block found
  rcases mem_erasureEdits_iff.mp mem with ⟨site, found, eq⟩ | ⟨method, found, mem⟩
  · exact keepsCharacters_of_met keptFile (met found) eq
  · cases met found with
    | constructor within constructor =>
      have isMethod := kind_of_isConstructor constructor
      rcases below within with rfl | within
      · cases isMethod
      · exact keepsCharacters_assignProperties kept within (braced.body method within isMethod) mem

theorem isEncoded_eraseTree (kept : root.KeepsCharacters text) (braced : root.IsBraced) :
    IsEncoded (eraseTree (encodeChars text) root) :=
  isEncoded_applyEdits fun _ => keepsCharacters_of_mem_erasureEdits kept braced

end Scaffold.Erasure
