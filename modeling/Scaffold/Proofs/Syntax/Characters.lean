import Scaffold.Proofs.Syntax.Literals
import Scaffold.Proofs.Syntax.Methods
import Scaffold.Proofs.Syntax.Objects
import Scaffold.Proofs.Syntax.Program
import Scaffold.Proofs.Text.Boundaries
import Scaffold.Proofs.Text.Layout

/-! # Ranges between characters

Beside an ASCII character there is always a place between two characters. A range is widened over white space, and over one
semicolon, which are all ASCII: one that begins and ends between characters does so after it is widened.
-/

namespace Scaffold.Syntax

open Scaffold.Text

variable {text : List Char} {front back : Bytes} {byte : UInt8} {start stop offset position : Nat}

/-! ## Offsets -/

theorem isBoundary_zero (text : List Char) : IsBoundary text 0 := ⟨[], text, rfl, rfl⟩

theorem isBoundary_length (text : List Char) : IsBoundary text (encodeChars text).length :=
  ⟨text, [], by simp, length_encodeChars text⟩

theorem IsBoundary.le (boundary : IsBoundary text offset) : offset ≤ (encodeChars text).length := by
  obtain ⟨before, after, rfl, rfl⟩ := boundary
  rw [encodeChars_append, List.length_append, length_encodeChars]
  exact Nat.le_add_right _ _

/-- Where the bytes of a text fall into two texts there is a place between characters. -/
theorem isBoundary_of_split (split : encodeChars text = front ++ back) (first : IsEncoded front) (second : IsEncoded back) :
    IsBoundary text front.length := by
  obtain ⟨before, rfl⟩ := first
  obtain ⟨after, rfl⟩ := second
  rw [← encodeChars_append] at split
  have decoded := decode_encodeChars text
  rw [split, decode_encodeChars] at decoded
  cases decoded
  exact ⟨before, after, rfl, length_encodeChars before⟩

/-- On both sides of an ASCII character there is a place between characters. -/
theorem isBoundary_beside_ascii (found : (encodeChars text)[position]? = some byte) (ascii : byte.toNat < 0x80) :
    IsBoundary text position ∧ IsBoundary text (position + 1) := by
  obtain ⟨front, back, split, rfl⟩ : ∃ front back, encodeChars text = front ++ byte :: back ∧ front.length = position := by
    obtain ⟨lt, same⟩ := List.getElem?_eq_some_iff.mp found
    refine ⟨(encodeChars text).take position, (encodeChars text).drop (position + 1), ?_, by rw [List.length_take]; omega⟩
    rw [← same, ← List.drop_eq_getElem_cons lt, List.take_append_drop]
  obtain ⟨first, second⟩ := IsEncoded.split ⟨text, split.symm⟩ (isContinuation_of_ascii ascii)
  have own : IsEncoded [byte] := .of_ascii fun other mem => List.mem_singleton.mp mem ▸ ascii
  have behind := isBoundary_of_split (split.trans (List.append_cons front byte back)) (first.append own) (second.tail ascii)
  rw [List.length_append] at behind
  exact ⟨isBoundary_of_split split first second, behind⟩

/-! ## Ranges -/

/-- Between two places between characters there is a text. -/
theorem isEncoded_slice (first : IsBoundary text start) (second : IsBoundary text stop) :
    IsEncoded (slice (encodeChars text) start stop) := by
  rcases Nat.le_total start stop with ordered | reversed
  · obtain ⟨before, taken, behind, rfl, rfl, rfl⟩ := first.exists_parts second ordered
    refine ⟨taken, ?_⟩
    rw [slice, encodeChars_append, encodeChars_append, ← length_encodeChars before, List.drop_left, Nat.add_sub_cancel_left,
      ← length_encodeChars taken, List.take_left]
  · refine ⟨[], ?_⟩
    rw [slice, Nat.sub_eq_zero_of_le reversed, List.take_zero]
    rfl

/-- White space is moved over from between characters to between characters, in both directions. -/
theorem isBoundary_iff_of_blank (blank : Blank (encodeChars text) start stop) (le : start ≤ stop) :
    IsBoundary text start ↔ IsBoundary text stop := by
  rcases Nat.eq_or_lt_of_le le with rfl | lt
  · exact Iff.rfl
  · obtain ⟨first, at_, white⟩ := blank start (Nat.le_refl _) lt
    obtain ⟨last, at_', white'⟩ := blank (stop - 1) (by omega) (by omega)
    have behind := (isBoundary_beside_ascii at_' (toNat_lt_of_isBlankByte white')).2
    rw [Nat.sub_add_cancel (by omega)] at behind
    exact ⟨fun _ => behind, fun _ => (isBoundary_beside_ascii at_ (toNat_lt_of_isBlankByte white)).1⟩

theorem isBoundary_skipSpaces (boundary : IsBoundary text offset) : IsBoundary text (skipSpaces (encodeChars text) offset) :=
  (isBoundary_iff_of_blank (blank_skipSpaces _ _) (le_skipSpaces _ _)).mp boundary

theorem isBoundary_skipBlankLines (boundary : IsBoundary text offset) :
    IsBoundary text (skipBlankLines (encodeChars text) offset) :=
  (isBoundary_iff_of_blank (blank_skipBlankLines _ _) (le_skipBlankLines _ _)).mp boundary

/-- A line begins at the beginning of the text, or behind a line feed. -/
theorem isBoundary_lineStart (le : offset ≤ (encodeChars text).length) :
    IsBoundary text (lineStart (encodeChars text) offset) := by
  rcases lineStart_eq_zero_or le with zero | feed
  · rw [zero]
    exact isBoundary_zero text
  · have behind := (isBoundary_beside_ascii feed (by decide)).2
    by_cases zero : lineStart (encodeChars text) offset = 0
    · rw [zero]
      exact isBoundary_zero text
    · rwa [Nat.sub_add_cancel (by omega)] at behind

theorem isBoundary_pastSemicolon (boundary : IsBoundary text offset) :
    IsBoundary text (pastSemicolon (encodeChars text) offset) := by
  rcases pastSemicolon_spec (encodeChars text) offset with same | ⟨past, semicolon⟩
  · rwa [same]
  · rw [past]
    exact (isBoundary_beside_ascii semicolon (by decide)).2

/-- A range that begins and ends between characters. -/
def AtBoundaries (text : List Char) (range : Nat × Nat) : Prop := IsBoundary text range.1 ∧ IsBoundary text range.2

theorem atBoundaries_lineRange (first : IsBoundary text start) (second : IsBoundary text stop) :
    AtBoundaries text (lineRange (encodeChars text) start stop) := by
  -- where the range begins does not depend on where it ends, and the other way round
  have front := widened_lineRange (Nat.le_refl start) first.le
  have behind := widened_lineRange (Nat.le_refl stop) second.le
  exact ⟨(isBoundary_iff_of_blank front.front front.start_le).mpr first,
    (isBoundary_iff_of_blank behind.back behind.le_stop).mp (isBoundary_pastSemicolon second)⟩

theorem atBoundaries_ownedLine (first : IsBoundary text start) (second : IsBoundary text stop) :
    AtBoundaries text (ownedLine (encodeChars text) start stop) := by
  unfold ownedLine
  dsimp only
  split
  · refine ⟨isBoundary_lineStart first.le, ?_⟩
    rcases Nat.lt_or_ge (lineStop (encodeChars text) stop) (encodeChars text).length with inside | outside
    · rw [Nat.min_eq_left inside]
      have found := List.getElem?_eq_getElem inside
      exact (isBoundary_beside_ascii found (getElem?_lineStop found ▸ by decide)).2
    · rw [Nat.min_eq_right (by omega)]
      exact isBoundary_length text
  · exact ⟨first, second⟩

/-! ## Edits -/

theorem isEncoded_encode (string : String) : IsEncoded (encode string) := ⟨string.toList, rfl⟩

/-- An edit that puts a text between characters. -/
structure KeepsCharacters (text : List Char) (edit : Edit) : Prop where
  range : AtBoundaries text (edit.start, edit.stop)
  replacement : IsEncoded edit.replacement

theorem keepsCharacters_removal (range : AtBoundaries text (start, stop)) : KeepsCharacters text (.removal start stop) :=
  ⟨range, [], rfl⟩

theorem isEncoded_applyOrdered {edits : List Edit} (keep : ∀ edit ∈ edits, KeepsCharacters text edit) {cursor : Nat}
    (boundary : IsBoundary text cursor) : IsEncoded (applyOrdered (encodeChars text) cursor edits) := by
  induction edits generalizing cursor with
  | nil =>
    obtain ⟨before, after, rfl, rfl⟩ := boundary
    exact ⟨after, by rw [applyOrdered, encodeChars_append, ← length_encodeChars, List.drop_left]⟩
  | cons edit later inner =>
    obtain ⟨own, others⟩ := List.forall_mem_cons.mp keep
    rw [applyOrdered]
    split
    · exact inner others boundary
    · exact ((isEncoded_slice boundary own.range.1).append own.replacement).append (inner others own.range.2)

/-- What edits between characters leave is a text. -/
theorem isEncoded_applyEdits {edits : List Edit} (keep : ∀ edit ∈ edits, KeepsCharacters text edit) :
    IsEncoded (applyEdits (encodeChars text) edits) :=
  isEncoded_applyOrdered (fun edit mem => keep edit (mem_mergeSort_iff.mp mem)) (isBoundary_zero text)

/-! ## Trees -/

variable {dialect : Dialect} {root tree : Tree} {siblings : List Tree}

/-- A tree that begins and ends between characters. -/
def Tree.IsBetween (text : List Char) (tree : Tree) : Prop := AtBoundaries text (tree.start, tree.stop)

/-- A tree in which no tree cuts a character. -/
def Tree.KeepsCharacters (text : List Char) (root : Tree) : Prop := ∀ tree ∈ root.preorder, tree.IsBetween text

/-- A tree that begins with a token of one byte. -/
def Tree.Opens (tree : Tree) : Prop :=
  ∃ opening ∈ tree.children, opening.start = tree.start ∧ opening.stop = tree.start + 1 ∧ opening.stop ≤ tree.stop

/-- Objects and the bodies of methods begin with their braces, as the grammar has it. -/
structure Tree.IsBraced (root : Tree) : Prop where
  object : ∀ tree ∈ root.preorder, tree.kind = .object → tree.Opens
  body : ∀ method ∈ root.preorder, method.kind = .methodDefinition → ∀ body, method.child? .body = some body → body.Opens

theorem Tree.KeepsCharacters.of_mem_children {child : Tree} (kept : root.KeepsCharacters text) (inside : tree ∈ root.preorder)
    (mem : child ∈ tree.children) : child.IsBetween text :=
  kept child (Tree.mem_preorder_of_mem_children inside mem)

/-- Behind the token that begins a tree there is a place between characters. -/
theorem Tree.Opens.isBoundary (opens : tree.Opens) (kept : root.KeepsCharacters text) (inside : tree ∈ root.preorder) :
    IsBoundary text (tree.start + 1) := by
  obtain ⟨opening, mem, -, stop_eq, -⟩ := opens
  rw [← stop_eq]
  exact (kept.of_mem_children inside mem).2

theorem Tree.KeepsCharacters.of_parse (parsed : dialect.parse (encodeChars text) = .ok root) : root.KeepsCharacters text :=
  fun _ mem => ⟨(edged_of_parse parsed mem).start, (edged_of_parse parsed mem).stop⟩

theorem Tree.IsBraced.of_parse (parsed : dialect.parse (encodeChars text) = .ok root) : root.IsBraced where
  object object inside isObject := by
    obtain ⟨before, inner, behind, trees, -, isIn⟩ := Dialect.exists_objectIn parsed inside isObject
    refine ⟨Tree.brace (width before), isIn.children_eq ▸ List.mem_cons_self, isIn.start_eq.symm, ?_, ?_⟩
    · rw [isIn.start_eq]
      rfl
    · rw [isIn.stop_eq]
      exact Nat.le_add_right _ _
  body method inside isMethod body found := by
    unfold Tree.child? at found
    have mem : body ∈ method.children := List.mem_of_find?_eq_some found
    have isBody : body.role = some .body := by simpa using List.find?_some found
    obtain ⟨opening, inner, closing, after, children_eq, start_eq, isOpening, -, -⟩ :=
      (hasBlock_of_parse parsed inside isMethod body mem isBody).braces
    have member : opening ∈ body.children := children_eq ▸ List.mem_cons_self
    have placed := ((Dialect.describes_of_parse parsed).placed.inner (Tree.mem_preorder_of_mem_children inside mem)).1
    exact ⟨opening, member, start_eq, by rw [isOpening.stop_eq, start_eq], (placed.children.bounds member).2.2⟩

/-! ## Elements of lists -/

private theorem mem_of_mem_around (tree : Tree) (before : List Tree) :
    ∀ sibling, sibling ∈ (tree.around before siblings).1 ∨ sibling ∈ (tree.around before siblings).2 →
      sibling ∈ before ∨ sibling ∈ siblings := by
  induction siblings generalizing before with
  | nil => simp [Tree.around]
  | cons head later inner =>
    intro sibling mem
    unfold Tree.around at mem
    split at mem
    · rcases mem with mem | mem
      · exact .inl mem
      · exact .inr (List.mem_cons_of_mem _ mem)
    · rcases inner (head :: before) sibling mem with mem | mem
      · rcases List.mem_cons.mp mem with rfl | mem
        · exact .inr List.mem_cons_self
        · exact .inl mem
      · exact .inr (List.mem_cons_of_mem _ mem)

theorem mem_of_neighbours {sibling : Tree}
    (beside : (tree.neighbours siblings).1 = some sibling ∨ (tree.neighbours siblings).2 = some sibling) : sibling ∈ siblings := by
  have found : sibling ∈ (tree.around [] (siblings.filter fun sibling => !sibling.isComment)).1 ∨
      sibling ∈ (tree.around [] (siblings.filter fun sibling => !sibling.isComment)).2 :=
    beside.imp List.mem_of_head? List.mem_of_head?
  rcases mem_of_mem_around tree [] sibling found with none_ | mem
  · cases none_
  · exact (List.mem_filter.mp mem).1

/-- The range of an element begins and ends where trees do, but for the white space that goes with it. -/
theorem atBoundaries_elementRange (own : tree.IsBetween text) (each : ∀ sibling ∈ siblings, sibling.IsBetween text) :
    AtBoundaries text (elementRange (encodeChars text) siblings tree) := by
  unfold elementRange
  dsimp only
  split
  · next comma found =>
    have mem := mem_of_neighbours (.inr (Option.filter_eq_some_iff.mp found).1)
    exact atBoundaries_ownedLine own.1 (isBoundary_skipSpaces (each comma mem).2)
  · next comma _ found =>
    have mem := mem_of_neighbours (.inl (Option.filter_eq_some_iff.mp found).1)
    exact atBoundaries_ownedLine (each comma mem).1 own.2
  · exact atBoundaries_ownedLine own.1 own.2

end Scaffold.Syntax
