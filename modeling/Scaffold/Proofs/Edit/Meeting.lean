import Scaffold.Proofs.Edit.Calls
import Scaffold.Proofs.Erasure.Survival

/-! # Statements that come to stand side by side

Whole statements are deleted with the types of a file, with the imports of a module, and with calls. Of what
stood between two statements that stay, white space and comments are left and nothing else: no semicolon
takes the place of what is deleted. So the second of them goes on with the first one exactly when the first
needs a semicolon, the token that begins the second may follow an expression, and no text with a semicolon
is written between them.
-/

namespace Scaffold.Edit

open Scaffold.Text Scaffold.Syntax

/-! ## The three deletions -/

/-- What is deleted from a file with whole statements. -/
inductive Deletion where
  | types
  | imports (moduleName : String)
  | calls (target : CallTarget)

namespace Deletion

def edits (source : Bytes) (root : Tree) : Deletion → List Text.Edit
  | .types => Erasure.erasureEdits source root
  | .imports moduleName => importEdits source moduleName root
  | .calls target => callEdits source target root

/-- The file without what is deleted. -/
def apply (source : Bytes) (root : Tree) : Deletion → Bytes
  | .types => Erasure.eraseTree source root
  | .imports moduleName => removeImport source moduleName root
  | .calls target => removeCall source target root

/-- Where the bytes of the file without what is deleted come from. -/
def origins (deletion : Deletion) (source : Bytes) (root : Tree) : List Origin :=
  Text.origins source.length (deletion.edits source root)

theorem apply_eq_applyEdits (deletion : Deletion) (source : Bytes) (root : Tree) :
    deletion.apply source root = applyEdits source (deletion.edits source root) := by
  cases deletion <;> rfl

end Deletion

variable {source : Bytes} {text : List Char} {root : Tree}

/-! ## Whole statements -/

theorem fits_removeLines {start stop : Nat} (ordered : start ≤ stop) (le : stop ≤ source.length) :
    (removeLines source start stop).Fits source.length := by
  have widened := widened_lineRange ordered le
  have past := le_pastSemicolon source stop
  exact ⟨Nat.le_trans widened.start_le (Nat.le_trans ordered (Nat.le_trans past widened.le_stop)), widened.stop_le⟩

namespace Deletion

/-- An edit of imports or of calls removes the lines of a statement. -/
theorem removes_of_ne_types {deletion : Deletion} {edit : Text.Edit} (mem : edit ∈ deletion.edits source root)
    (other : deletion ≠ .types) :
    ∃ statement ∈ root.preorder, edit = removeLines source statement.start statement.stop := by
  cases deletion with
  | types => exact absurd rfl other
  | imports moduleName =>
    obtain ⟨statement, member, rfl⟩ := List.mem_map.mp mem
    exact ⟨statement, Tree.mem_preorder_of_mem_children root.mem_preorder_self (List.mem_filter.mp member).1, rfl⟩
  | calls target =>
    obtain ⟨range, member, rfl⟩ := List.mem_map.mp mem
    obtain ⟨statement, inside, -, -, rfl⟩ := exists_holder_of_mem_callRanges (mem_of_mem_outermost member)
    exact ⟨statement, inside, rfl⟩

theorem fits (describes : root.Describes text) (deletion : Deletion) :
    ∀ edit ∈ deletion.edits (encodeChars text) root, edit.Fits (encodeChars text).length := by
  intro edit mem
  by_cases types : deletion = .types
  · subst types
    exact Erasure.fits_of_mem_erasureEdits describes edit mem
  · obtain ⟨statement, inside, rfl⟩ := removes_of_ne_types mem types
    have inner := describes.placed.inner inside
    exact fits_removeLines inner.1.start_le_stop (Nat.le_trans inner.2.2 describes.stop_le)

/-- Only the deletion of types writes anything. -/
theorem rewrites (describes : root.Describes text) {deletion : Deletion} {edit : Text.Edit}
    (mem : edit ∈ deletion.edits (encodeChars text) root) (writes : edit.replacement ≠ []) :
    deletion = .types ∧ Erasure.Rewrites (encodeChars text) root edit := by
  by_cases types : deletion = .types
  · subst types
    exact ⟨rfl, Erasure.rewrites_of_replacement_ne_nil describes mem writes⟩
  · obtain ⟨statement, -, rfl⟩ := removes_of_ne_types mem types
    exact absurd rfl writes

end Deletion

/-! ## Two statements that stay -/

def IsBlankAt (source : Bytes) (position : Nat) : Prop :=
  ∃ byte, source[position]? = some byte ∧ isBlankByte byte = true

/-- The last byte of a tree that is left, but for white space. -/
structure EndsAt (source : Bytes) (output : List Origin) (tree : Tree) (position : Nat) : Prop where
  covers : tree.Covers position
  kept : .kept position ∈ output
  last : ∀ later, tree.Covers later → position < later → .kept later ∈ output → IsBlankAt source later

/-- The first byte of a tree that is left, but for white space. -/
structure BeginsAt (source : Bytes) (output : List Origin) (tree : Tree) (position : Nat) : Prop where
  covers : tree.Covers position
  kept : .kept position ∈ output
  first : ∀ earlier, tree.Covers earlier → earlier < position → .kept earlier ∈ output → IsBlankAt source earlier

/-- A tree is deleted with all that is in it. -/
def Deleted (edits : List Text.Edit) (tree : Tree) : Prop :=
  ∃ edit ∈ applied edits, edit.replacement = [] ∧ edit.start ≤ tree.start ∧ tree.stop ≤ edit.stop

/-- Two statements of one list stay, and all that is between them is deleted, but for comments. -/
structure Meet (source : Bytes) (root : Tree) (deletion : Deletion) (first second : Tree) (ends begins : Nat) : Prop where
  siblings : ∃ parent ∈ root.preorder, ∃ before gone after, parent.children = before ++ first :: (gone ++ second :: after) ∧
    ∀ tree ∈ gone, tree.isComment = true ∨ Deleted (deletion.edits source root) tree
  first : EndsAt source (deletion.origins source root) first ends
  second : BeginsAt source (deletion.origins source root) second begins

def InComment (root : Tree) (position : Nat) : Prop := ∃ leaf ∈ root.leaves, leaf.isComment = true ∧ leaf.Covers position

/-- A statement that ends at a byte has to be ended by what follows. -/
def Open (source : Bytes) (position : Nat) : Prop := source[position]? ≠ some 59 ∧ source[position]? ≠ some 125

/-- What begins at an offset goes on with an expression in front of it. -/
def GoesOn (text : List Char) (position : Nat) : Prop :=
  ∃ before rest, text = before ++ rest ∧ width before = position ∧ beginsStatement .expression rest = false

/-- A statement goes on with the one before it: that one is open, and no semicolon stands between them. -/
structure RunsOn (text : List Char) (root : Tree) (ends begins : Nat) (middle : List Origin) : Prop where
  isOpen : Open (encodeChars text) ends
  goesOn : GoesOn text begins
  bare : ∀ origin ∈ middle, origin.byte (encodeChars text) = 59 → ∃ position, origin = .kept position ∧ InComment root position

variable {deletion : Deletion} {first second : Tree} {ends begins position : Nat}

/-- Of what stood between the two statements, comments and white space are left. -/
theorem Meet.comment_or_blank (describes : root.Describes text) (meet : Meet (encodeChars text) root deletion first second ends begins)
    (kept : .kept position ∈ deletion.origins (encodeChars text) root) (after : ends < position) (before : position < begins) :
    InComment root position ∨ InCharacter isSeparator text position ∨ IsBlankAt (encodeChars text) position := by
  obtain ⟨lt, free⟩ := (kept_mem_origins_iff (deletion.fits describes)).mp kept
  obtain ⟨parent, inside, front, gone, back, children, deleted⟩ := meet.siblings
  rw [length_encodeChars] at lt
  rcases describes.filled position lt with ⟨leaf, mem, covers⟩ | separator
  · have own := describes.placed.inner inside
    have placed := own.1.children
    have member {tree : Tree} (mem : tree ∈ front ++ first :: (gone ++ second :: back)) : tree ∈ parent.children := by
      rwa [children]
    have firstBounds := placed.bounds (member (by simp : first ∈ _))
    have secondBounds := placed.bounds (member (by simp : second ∈ _))
    obtain ⟨firstBegins, firstEnds⟩ := meet.first.covers
    obtain ⟨secondBegins, secondEnds⟩ := meet.second.covers
    obtain ⟨leafBegins, leafEnds⟩ := covers
    have inParent : leaf ∈ parent.leaves := by
      rcases describes.placed.mem_leaves_or_apart inside mem with mem | apart | apart
      · exact mem
      · omega
      · omega
    rw [Tree.leaves_of_children_ne_nil (List.ne_nil_of_mem (member (by simp : first ∈ _)))] at inParent
    obtain ⟨child, childMember, childMem⟩ := Tree.mem_leavesAll_iff.mp inParent
    have childBounds := placed.bounds childMember
    have within := (placed.placed childMember).leaf_bounds childBounds.2.1 childMem
    -- the leaf lies in one of the statements, or between them
    have pairwise := placed.pairwise
    rw [children] at pairwise childMember
    obtain ⟨-, fromFirst, frontFirst⟩ := List.pairwise_append.mp pairwise
    obtain ⟨firstBefore, rest⟩ := List.pairwise_cons.mp fromFirst
    obtain ⟨-, fromSecond, -⟩ := List.pairwise_append.mp rest
    have secondBefore := (List.pairwise_cons.mp fromSecond).1
    simp only [List.mem_append, List.mem_cons] at childMember
    rcases childMember with inFront | rfl | inGone | rfl | inBack
    · have := frontFirst child inFront first List.mem_cons_self
      omega
    · exact .inr (.inr (meet.first.last position ⟨by omega, by omega⟩ after kept))
    · rcases deleted child inGone with comment | ⟨edit, taken, -, begins, ends⟩
      · have kind : child.kind = .comment := of_decide_eq_true comment
        have childInside := Tree.mem_preorder_of_mem_children inside (member (by simp [inGone]) : child ∈ _)
        have childless := (describes.shaped child childInside).children_eq_nil (by rw [kind]; rfl)
        rw [Tree.leaves_of_children_eq_nil childless] at childMem
        obtain rfl := List.mem_singleton.mp childMem
        exact .inl ⟨leaf, mem, comment, leafBegins, leafEnds⟩
      · exact absurd ⟨edit, taken, by omega, by omega⟩ free
    · exact .inr (.inr (meet.second.first position ⟨by omega, by omega⟩ before kept))
    · have := secondBefore child inBack
      omega
  · exact .inr (.inl separator)

/-- What stands in the output between the two statements. -/
structure Between (text : List Char) (root : Tree) (deletion : Deletion) (ends begins : Nat) (middle : List Origin) : Prop where
  /-- Comments and white space are left of the source. -/
  kept : ∀ position, .kept position ∈ middle →
    InComment root position ∨ InCharacter isSeparator text position ∨ IsBlankAt (encodeChars text) position
  /-- All the rest is written by enumerations, import clauses and constructors when types are deleted. -/
  written : ∀ byte, .inserted byte ∈ middle → deletion = .types ∧
    ∃ edit ∈ applied (deletion.edits (encodeChars text) root), Erasure.Rewrites (encodeChars text) root edit ∧
      (ends < edit.start ∧ edit.stop ≤ begins) ∧ byte ∈ edit.replacement
  runsOn_iff : RunsOn text root ends begins middle ↔
    Open (encodeChars text) ends ∧ GoesOn text begins ∧ .inserted 59 ∉ middle

theorem Meet.exists_between (describes : root.Describes text) (meet : Meet (encodeChars text) root deletion first second ends begins)
    (lt : ends < begins) :
    ∃ front middle back, deletion.origins (encodeChars text) root =
        front ++ .kept ends :: (middle ++ .kept begins :: back) ∧ Between text root deletion ends begins middle := by
  have fits := deletion.fits describes
  have keptEnds := (kept_mem_origins_iff fits).mp meet.first.kept
  have keptBegins := (kept_mem_origins_iff fits).mp meet.second.kept
  obtain ⟨front, middle, back, eq, kept, inserted⟩ := origins_between fits lt keptBegins.1 keptEnds.2 keptBegins.2
  have classified (position : Nat) (mem : .kept position ∈ middle) :
      InComment root position ∨ InCharacter isSeparator text position ∨ IsBlankAt (encodeChars text) position := by
    obtain ⟨⟨after, before⟩, free⟩ := (kept position).mp mem
    exact meet.comment_or_blank describes ((kept_mem_origins_iff fits).mpr ⟨Nat.lt_trans before keptBegins.1, free⟩)
      after before
  refine ⟨front, middle, back, eq, classified, fun byte mem => ?_, ?_, ?_⟩
  · obtain ⟨edit, taken, range, member⟩ := (inserted byte).mp mem
    obtain ⟨types, rewrites⟩ := Deletion.rewrites describes (mem_of_mem_applied taken) (List.ne_nil_of_mem member)
    exact ⟨types, edit, taken, rewrites, range, member⟩
  · rintro ⟨isOpen, goesOn, bare⟩
    refine ⟨isOpen, goesOn, fun mem => ?_⟩
    obtain ⟨position, same, -⟩ := bare _ mem rfl
    cases same
  · rintro ⟨isOpen, goesOn, absent⟩
    refine ⟨isOpen, goesOn, fun origin mem semicolon => ?_⟩
    cases origin with
    | inserted byte =>
      cases semicolon
      exact absurd mem absent
    | kept position =>
      refine ⟨position, rfl, (classified position mem).resolve_right ?_⟩
      change (encodeChars text)[position]?.getD 0 = 59 at semicolon
      rintro (separator | ⟨byte, at_, blank⟩)
      · obtain ⟨c, byte, isSeparator_, at_, same | ⟨-, high⟩⟩ := separator.byte
        · rw [at_] at semicolon
          cases semicolon
          obtain rfl : c = ';' := Char.toNat_inj.mp same.symm
          cases isSeparator_
        · rw [at_] at semicolon
          cases semicolon
          exact absurd high (by decide)
      · rw [at_] at semicolon
        cases semicolon
        cases blank

/-- Between two statements that stay, a deletion leaves comments and white space only, and no semicolon. The second
one runs on exactly when the first is open, the second goes on with an expression, and nothing with a semicolon is
written between them. -/
theorem statements_meet {dialect : Dialect} (parsed : dialect.parse (encodeChars text) = .ok root) (deletion : Deletion) :
    deletion.apply (encodeChars text) root =
        (deletion.origins (encodeChars text) root).map (Origin.byte (encodeChars text)) ∧
      ∀ first second ends begins, Meet (encodeChars text) root deletion first second ends begins →
        ∃ front middle back, deletion.origins (encodeChars text) root =
            front ++ .kept ends :: (middle ++ .kept begins :: back) ∧
          Between text root deletion ends begins middle := by
  have describes := Dialect.describes_of_parse parsed
  refine ⟨?_, fun first second ends begins meet => ?_⟩
  · rw [deletion.apply_eq_applyEdits, applyEdits_eq_map_origins (deletion.fits describes), Deletion.origins]
  · obtain ⟨parent, inside, front, gone, back, children, -⟩ := meet.siblings
    have pairwise := (describes.placed.inner inside).1.children.pairwise
    rw [children] at pairwise
    have ordered := (List.pairwise_cons.mp (List.pairwise_append.mp pairwise).2.1).1 second (by simp)
    have firstEnds := meet.first.covers.2
    have secondBegins := meet.second.covers.1
    exact meet.exists_between describes (by omega)

/-! ## Two files -/

/-- A tree is deleted by the one edit of a file when that spans it. -/
theorem deleted_of_singleton {edits : List Text.Edit} {start stop : Nat} {tree : Tree} (eq : edits = [.removal start stop])
    (begins : start ≤ tree.start) (ends : tree.stop ≤ stop) : Deleted edits tree := by
  refine ⟨.removal start stop, ?_, rfl, begins, ends⟩
  rw [eq, applied, List.mergeSort_singleton]
  exact List.mem_singleton_self _

def importText : List Char := "a\nimport 'x';\n// c\nb\n".toList

/-- The statement that consists of a name at an offset. -/
def nameTree (start : Nat) : Tree :=
  .node .expressionStatement none start (start + 1) [.node .identifier none start (start + 1) []]

def importStatementTree : Tree :=
  .node .importStatement none 2 13
    [.node (.token "import") none 2 8 [], .node .string (some .source) 9 12 [], .node (.token ";") none 12 13 []]

/-- The tree of two statements with an import and a comment between them. -/
def importTree : Tree :=
  .node .program none 0 21 [nameTree 0, importStatementTree, .node .comment none 14 18 [], nameTree 19]

private theorem importEdits_importTree : importEdits (encodeChars importText) "x" importTree = [.removal 2 14] := by
  decide +kernel

private theorem origins_importTree : (Deletion.imports "x").origins (encodeChars importText) importTree =
    (List.range' 0 2 ++ List.range' 14 7).map .kept := by
  rw [Deletion.origins, origins, applied, Deletion.edits, importEdits_importTree, List.mergeSort_singleton]
  decide +kernel

set_option maxRecDepth 8000 in
theorem statements_meet_at_import :
    Dialect.plain.parse (encodeChars importText) = .ok importTree ∧
      ∃ first second, Meet (encodeChars importText) importTree (.imports "x") first second 0 19 ∧
        ∃ front middle back, (Deletion.imports "x").origins (encodeChars importText) importTree =
            front ++ .kept 0 :: (middle ++ .kept 19 :: back) ∧
          Between importText importTree (.imports "x") 0 19 middle := by
  have parsed : Dialect.plain.parse (encodeChars importText) = .ok importTree := by decide +kernel
  have meet : Meet (encodeChars importText) importTree (.imports "x") (nameTree 0) (nameTree 19) 0 19 := by
    refine ⟨⟨importTree, importTree.mem_preorder_self, [], [importStatementTree, .node .comment none 14 18 []], [],
      rfl, ?_⟩, ⟨by decide, ?_, ?_⟩, ⟨by decide, ?_, ?_⟩⟩
    · intro tree mem
      rcases List.mem_cons.mp mem with rfl | mem
      · exact .inr (deleted_of_singleton importEdits_importTree (by decide) (by decide))
      · rw [List.mem_singleton.mp mem]
        exact .inl rfl
    · rw [origins_importTree]
      decide
    · intro later covers after
      exact absurd covers.2 (Nat.not_lt.mpr after)
    · rw [origins_importTree]
      decide
    · intro earlier covers before
      exact absurd covers.1 (Nat.not_le.mpr before)
  exact ⟨parsed, _, _, meet, (statements_meet parsed (.imports "x")).2 _ _ 0 19 meet⟩

/-! Where an interface between two statements goes, the second may become the arguments of a call. -/

def interfaceText : List Char := "a\ninterface I \x7b\x7d\n(b)\n".toList

def interfaceStatementTree : Tree :=
  .node .interfaceDeclaration none 2 16
    [.node (.token "interface") none 2 11 [], .node .typeIdentifier (some .name) 12 13 [],
      .node .interfaceBody (some .body) 14 16 [.node (.token "\x7b") none 14 15 [], .node (.token "\x7d") none 15 16 []]]

def parenthesizedTree : Tree :=
  .node .expressionStatement none 17 20
    [.node .parenthesizedExpression none 17 20
      [.node (.token "(") none 17 18 [], .node .identifier none 18 19 [], .node (.token ")") none 19 20 []]]

/-- The tree of two statements with an interface between them. -/
def interfaceTree : Tree := .node .program none 0 21 [nameTree 0, interfaceStatementTree, parenthesizedTree]

/-- The tree of one call, its arguments on a line of their own. -/
def callTree : Tree :=
  .node .program none 0 6
    [.node .expressionStatement none 0 5
      [.node .callExpression none 0 5
        [.node .identifier (some .function) 0 1 [],
          .node .arguments (some .arguments) 2 5
            [.node (.token "(") none 2 3 [], .node .identifier none 3 4 [], .node (.token ")") none 4 5 []]]]]

private theorem erasureEdits_interfaceTree :
    Erasure.erasureEdits (encodeChars interfaceText) interfaceTree = [.removal 2 17] := by
  decide +kernel

private theorem origins_interfaceTree : Deletion.types.origins (encodeChars interfaceText) interfaceTree =
    .kept 0 :: .kept 1 :: (List.range' 17 4).map .kept := by
  rw [Deletion.origins, origins, applied, Deletion.edits, erasureEdits_interfaceTree, List.mergeSort_singleton]
  decide +kernel

set_option maxRecDepth 8000 in
theorem statements_become_call :
    Dialect.plain.parse (encodeChars interfaceText) = .ok interfaceTree ∧
      Deletion.types.apply (encodeChars interfaceText) interfaceTree = encode "a\n(b)\n" ∧
      Dialect.plain.parse (encode "a\n(b)\n") = .ok callTree ∧
      ∃ first second, Meet (encodeChars interfaceText) interfaceTree .types first second 0 17 ∧
        ∃ back, Deletion.types.origins (encodeChars interfaceText) interfaceTree = .kept 0 :: ([.kept 1] ++ .kept 17 :: back) ∧
          RunsOn interfaceText interfaceTree 0 17 [.kept 1] := by
  refine ⟨by decide +kernel, ?_, by decide +kernel, nameTree 0, parenthesizedTree, ?_, _, origins_interfaceTree, ?_⟩
  · rw [Deletion.apply_eq_applyEdits, Deletion.edits, erasureEdits_interfaceTree, applyEdits, List.mergeSort_singleton]
    decide +kernel
  · refine ⟨⟨interfaceTree, interfaceTree.mem_preorder_self, [], [interfaceStatementTree], [], rfl, ?_⟩,
      ⟨by decide, ?_, ?_⟩, ⟨by decide, ?_, ?_⟩⟩
    · intro tree mem
      rw [List.mem_singleton.mp mem]
      exact .inr (deleted_of_singleton erasureEdits_interfaceTree (by decide) (by decide))
    · rw [origins_interfaceTree]
      decide
    · intro later covers after
      exact absurd covers.2 (Nat.not_lt.mpr after)
    · rw [origins_interfaceTree]
      decide
    · intro earlier covers before
      exact absurd covers.1 (Nat.not_le.mpr before)
  · refine ⟨by unfold Open; decide +kernel, ⟨"a\ninterface I \x7b\x7d\n".toList, "(b)\n".toList, ?_, ?_, ?_⟩, ?_⟩
    · decide
    · decide
    · decide
    · intro origin mem semicolon
      rw [List.mem_singleton.mp mem] at semicolon
      exact absurd semicolon (by decide +kernel)

end Scaffold.Edit
