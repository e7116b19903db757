import Scaffold.Proofs.Erasure.Edits
import Scaffold.Proofs.Text.Layout

/-! # The blank lines around erased statements

A statement is erased with the lines that it stands on alone, and where a blank line is above it, or nothing, with the
blank lines behind it. What is above is looked up in the source, so this fails where the statement above is erased too.
-/

namespace Scaffold.Text

variable {source bytes : Bytes} {edits : List Edit} {first start stop offset pending : Nat}

/-! ## Whole lines -/

/-- Nothing but spaces and tabs shares the lines of a range, and one semicolon behind it. -/
structure StandsAlone (source : Bytes) (start stop : Nat) : Prop where
  front : Indented source (lineStart source start) start
  back : ∃ spaced, pastSemicolon source stop ≤ spaced ∧ Indented source (pastSemicolon source stop) spaced ∧
    (spaced = source.length ∨ source[spaced]? = some lineFeed ∨
      source[spaced]? = some 13 ∧ source[spaced + 1]? = some lineFeed)

/-- A range that stands alone is widened to whole lines. -/
theorem StandsAlone.lineRange (alone : StandsAlone source start stop) (ordered : start ≤ stop) (le : stop ≤ source.length) :
    ((lineRange source start stop).1 = 0 ∨ source[(lineRange source start stop).1 - 1]? = some lineFeed) ∧
      ((lineRange source start stop).2 = source.length ∨ source[(lineRange source start stop).2 - 1]? = some lineFeed) := by
  have takes := takesLayout_lineRange ordered le
  constructor
  · rw [takes.owns _ (beginsLine_lineStart (by omega)) alone.front]
    exact lineStart_eq_zero_or (by omega)
  · obtain ⟨spaced, after, indented, ending⟩ := alone.back
    obtain ⟨closed, other, closes, reach, ends | ⟨-, open_⟩⟩ := takes.back
    · exact ends.whole
    · -- the line would end where the spaces and tabs do
      obtain rfl := closes.unique (closesAt_pastSemicolon source stop)
      have reached : SpacesReach source (pastSemicolon source stop) spaced := by
        refine ⟨after, indented, fun byte at_ => ?_⟩
        rcases ending with rfl | feeds | ⟨returns, -⟩
        · simp at at_
        · cases feeds.symm.trans at_
          rfl
        · cases returns.symm.trans at_
          rfl
      obtain rfl := reach.unique reached
      rcases ending with finished | feeds | ⟨returns, feeds⟩
      · exact absurd (.text finished) (open_ _)
      · exact absurd (.feed feeds) (open_ _)
      · exact absurd (.return_ returns feeds) (open_ _)

/-! ## Blank lines that are skipped -/

/-- A blank line begins a text, up to its line feed. -/
def OpensBlank (text : Bytes) : Prop :=
  ∃ length : Nat, (∀ i < length, ∃ byte, text[i]? = some byte ∧ isBlankByte byte = true ∧ byte ≠ lineFeed) ∧
    text[length]? = some lineFeed

theorem opensBlank_cons_iff {byte : UInt8} (blank : isBlankByte byte = true) (other : byte ≠ lineFeed) :
    OpensBlank (byte :: bytes) ↔ OpensBlank bytes := by
  constructor
  · rintro ⟨length, blanks, feed⟩
    cases length with
    | zero => exact absurd (Option.some.inj feed) other
    | succ length => exact ⟨length, fun i lt => blanks (i + 1) (Nat.succ_lt_succ lt), feed⟩
  · rintro ⟨length, blanks, feed⟩
    refine ⟨length + 1, fun i lt => ?_, feed⟩
    cases i with
    | zero => exact ⟨byte, rfl, blank, other⟩
    | succ i => exact blanks i (Nat.lt_of_succ_lt_succ lt)

/-- Blank lines are skipped whole, and all of them. -/
theorem blankLinesLength_spec (pending : Nat) (text : Bytes) :
    (blankLinesLength pending text = 0 ∨ pending < blankLinesLength pending text ∧
      text[blankLinesLength pending text - pending - 1]? = some lineFeed) ∧
    ¬ OpensBlank (text.drop (blankLinesLength pending text - pending)) := by
  induction text generalizing pending with
  | nil =>
    refine ⟨.inl rfl, ?_⟩
    rintro ⟨length, -, feed⟩
    simp at feed
  | cons byte rest spec =>
    unfold blankLinesLength
    split
    · next feed =>
      obtain ⟨ends, all⟩ := spec 0
      have size : pending + 1 + blankLinesLength 0 rest - pending = blankLinesLength 0 rest + 1 := by omega
      rw [size]
      refine ⟨.inr ⟨by omega, ?_⟩, all⟩
      rcases ends with none_ | ⟨some_, ends⟩
      · rw [none_, feed]
        rfl
      · rw [Nat.add_sub_cancel, show blankLinesLength 0 rest = blankLinesLength 0 rest - 0 - 1 + 1 by omega,
          List.getElem?_cons_succ, ends]
    · next other =>
      split
      · next blank =>
        obtain ⟨ends, all⟩ := spec (pending + 1)
        rcases ends with none_ | ⟨some_, ends⟩
        · rw [none_, Nat.zero_sub, List.drop_zero] at all
          rw [none_, Nat.zero_sub, List.drop_zero, opensBlank_cons_iff blank other]
          exact ⟨.inl rfl, all⟩
        · have size : blankLinesLength (pending + 1) rest - pending = blankLinesLength (pending + 1) rest - (pending + 1) + 1 := by
            omega
          rw [size, List.drop_succ_cons, Nat.add_sub_cancel]
          refine ⟨.inr ⟨by omega, ?_⟩, all⟩
          rw [show blankLinesLength (pending + 1) rest - (pending + 1) = blankLinesLength (pending + 1) rest - (pending + 1) - 1 + 1
            by omega, List.getElem?_cons_succ, ends]
      · next dark =>
        refine ⟨.inl rfl, ?_⟩
        rw [Nat.zero_sub, List.drop_zero]
        rintro ⟨length, blanks, feed⟩
        cases length with
        | zero => exact other (Option.some.inj feed)
        | succ length =>
          obtain ⟨first, same, blank, -⟩ := blanks 0 (Nat.succ_pos _)
          cases same
          exact dark blank

/-- Behind whole lines, the skipped lines are whole too. -/
theorem skipBlankLines_ends (ends : offset = source.length ∨ source[offset - 1]? = some lineFeed) :
    skipBlankLines source offset = source.length ∨ source[skipBlankLines source offset - 1]? = some lineFeed := by
  rcases (blankLinesLength_spec 0 (source.drop offset)).1 with none_ | ⟨some_, feed⟩
  · rwa [skipBlankLines, none_, Nat.add_zero]
  · rw [List.getElem?_drop] at feed
    right
    rwa [skipBlankLines, show offset + blankLinesLength 0 (source.drop offset) - 1 =
      offset + (blankLinesLength 0 (source.drop offset) - 0 - 1) by omega]

/-- Behind skipped lines no blank line is left that ends with a line feed. -/
theorem not_blankLine_skipBlankLines (blank : BlankLine source (skipBlankLines source offset) stop) :
    source[stop - 1]? ≠ some lineFeed := by
  intro feed
  apply (blankLinesLength_spec 0 (source.drop offset)).2
  have lt := blank.lt
  rw [Nat.sub_zero, List.drop_drop, ← skipBlankLines]
  refine ⟨stop - 1 - skipBlankLines source offset, fun i inside => ?_, ?_⟩
  · obtain ⟨byte, at_, isBlank⟩ := blank.blank (skipBlankLines source offset + i) (by omega) (by omega)
    refine ⟨byte, by rw [List.getElem?_drop, at_], isBlank, ?_⟩
    rintro rfl
    exact blank.single _ (by omega) (by omega) at_
  · rw [List.getElem?_drop, ← feed]
    congr 1
    omega

theorem followsBlankLine_of_blankLine (blank : BlankLine source first start)
    (begins : source[start - 1]? = some lineFeed) : followsBlankLine source start = true := by
  have lt := blank.lt
  have bound := (List.getElem?_eq_some_iff.mp begins).1
  have le : first ≤ lineStart source (start - 1) := by
    rcases blank.begins with rfl | feed
    · exact Nat.zero_le _
    · refine Nat.not_lt.mp fun before => ?_
      exact @noFeed_lineStart source (start - 1) (by omega) (first - 1) (by omega) (by omega) feed
  have feed : slice source (start - 1) start = [lineFeed] := by
    have one := slice_one begins
    rwa [Nat.sub_add_cancel (by omega)] at one
  have range : isBlankRange source (lineStart source (start - 1)) start = true := by
    refine List.all_eq_true.mpr fun byte mem => ?_
    obtain ⟨position, after, before, at_⟩ := exists_of_mem_slice mem
    obtain ⟨other, same, isBlank⟩ := blank.blank position (by omega) before
    rw [at_] at same
    cases same
    exact isBlank
  rw [followsBlankLine, feed, range]
  simp
  omega

end Scaffold.Text

namespace Scaffold.Erasure

open Scaffold.Text Scaffold.Syntax

variable {dialect : Dialect} {text : List Char} {source : Bytes} {root : Tree} {edits : List Edit} {edit : Edit}

/-- An edit that erases a statement which stands on lines of its own. -/
def ErasesStatement (source : Bytes) (root : Tree) (edit : Edit) : Prop :=
  ∃ statement ∈ root.preorder, edit = statementRemoval source statement ∧
    StandsAlone source statement.start statement.stop

/-- A statement above which all lines are erased, up to a blank one or to the start of the file, is directly below the
blank line or the first itself, or no blank line is behind it. And a blank line behind it ends with a line feed. -/
structure Spaced (source : Bytes) (edit : Edit) : Prop where
  above : (edit.start = 0 ∨ ∃ first, BlankLine source first edit.start) ∨ ∀ stop, ¬ BlankLine source edit.stop stop
  behind : ∀ stop, BlankLine source edit.stop stop → source[stop - 1]? = some lineFeed

/-- A statement is erased with whole lines, and no blank line is left behind it where it is the first that is erased below
a blank line. -/
theorem takesLines_of_erasesStatement (placed : root.Placed) (le : root.stop ≤ source.length)
    (erases : ErasesStatement source root edit) (spaced : Exposed source edits edit.start → Spaced source edit) :
    TakesLines source edits edit := by
  obtain ⟨statement, mem, rfl, alone⟩ := erases
  obtain ⟨own, -, within⟩ := placed.inner mem
  obtain ⟨begins, ends⟩ := alone.lineRange own.start_le_stop (Nat.le_trans within le)
  have stop_eq : (statementRemoval source statement).stop =
      if (lineRange source statement.start statement.stop).1 = 0 ||
          followsBlankLine source (lineRange source statement.start statement.stop).1 then
        skipBlankLines source (lineRange source statement.start statement.stop).2
      else (lineRange source statement.start statement.stop).2 := rfl
  refine ⟨rfl, begins, ?_, fun exposed stop blank => ?_⟩
  · rw [stop_eq]
    split
    · exact skipBlankLines_ends ends
    · exact ends
  · obtain ⟨above, behind⟩ := spaced exposed
    have feed := behind stop blank
    rcases above with above | clear
    · have skips : ((lineRange source statement.start statement.stop).1 = 0 ||
          followsBlankLine source (lineRange source statement.start statement.stop).1) = true := by
        rcases above with first | ⟨first, blankAbove⟩
        · exact (Bool.or_eq_true _ _).mpr (.inl (decide_eq_true first))
        · rcases begins with start | begins
          · exact (Bool.or_eq_true _ _).mpr (.inl (decide_eq_true start))
          · exact (Bool.or_eq_true _ _).mpr (.inr (followsBlankLine_of_blankLine blankAbove begins))
      rw [stop_eq, if_pos skips] at blank
      exact not_blankLine_skipBlankLines blank feed
    · exact clear stop blank

/-- Erasure leaves blank lines apart, and makes none at the start of a file, where each edit erases a statement on lines of
its own or leaves something on each line that it changes, and where no statement that stands directly below erased ones has
a blank line behind it while they reach up to a blank line or to the start of the file. -/
theorem blank_lines_stay_apart (parsed : dialect.parse (encodeChars text) = .ok root)
    (apart : BlankLinesApart (encodeChars text))
    (each : ∀ edit ∈ applied (erasureEdits (encodeChars text) root), ErasesStatement (encodeChars text) root edit ∧
        (Exposed (encodeChars text) (applied (erasureEdits (encodeChars text) root)) edit.start →
          Spaced (encodeChars text) edit) ∨
      LeavesInk (encodeChars text) (applied (erasureEdits (encodeChars text) root)) edit) :
    ∃ output, erase dialect (encodeChars text) = .ok output ∧ BlankLinesApart output ∧
      (beginsBlank output = true → beginsBlank (encodeChars text) = true) := by
  have describes := Dialect.describes_of_parse parsed
  refine ⟨eraseTree (encodeChars text) root, by rw [erase, parsed], ?_⟩
  refine blankLines_applyEdits (fits_of_mem_erasureEdits describes) apart fun edit mem => ?_
  rcases each edit mem with ⟨erases, spaced⟩ | leaves
  · exact .inl (takesLines_of_erasesStatement describes.placed describes.stop_le erases spaced)
  · exact .inr leaves

/-- A statement with braces at an offset, of which the name is one letter. -/
def interfaceAt (start : Nat) : Tree :=
  .node .interfaceDeclaration none start (start + 14) [.node (.token "interface") none start (start + 9) [],
    .node .typeIdentifier (some .name) (start + 10) (start + 11) [],
    .node .interfaceBody (some .body) (start + 12) (start + 14) [.node (.token "\x7b") none (start + 12) (start + 13) [],
      .node (.token "\x7d") none (start + 13) (start + 14) []]]

def spacedText : List Char := "let a: A\n\ninterface A \x7b\x7d\n\nb\n".toList

def spacedFile : Tree :=
  .node .program none 0 28 [.node .lexicalDeclaration none 0 8 [.node (.token "let") none 0 3 [],
    .node .variableDeclarator none 4 8 [.node .identifier (some .name) 4 5 [],
      .node .typeAscription none 5 8 [.node (.token ":") none 5 6 [], .node .typeIdentifier none 7 8 []]]],
    interfaceAt 10, .node .expressionStatement none 26 27 [.node .identifier none 26 27 []]]

private theorem applied_spacedEdits :
    applied (erasureEdits (encodeChars spacedText) spacedFile) = [.removal 5 8, .removal 10 26] := by
  have edits : erasureEdits (encodeChars spacedText) spacedFile = [.removal 5 8, .removal 10 26] := by decide +kernel
  rw [applied, edits]
  simp [List.mergeSort, List.MergeSort.Internal.splitInTwo, Edit.before, Edit.removal, appliedFrom]

set_option maxRecDepth 8000 in
theorem blank_lines_apart_below_annotation :
    Dialect.plain.parse (encodeChars spacedText) = .ok spacedFile ∧ BlankLinesApart (encodeChars spacedText) ∧
      ∃ output, erase .plain (encodeChars spacedText) = .ok output ∧ BlankLinesApart output ∧
        (beginsBlank output = true → beginsBlank (encodeChars spacedText) = true) := by
  have parsed : Dialect.plain.parse (encodeChars spacedText) = .ok spacedFile := by decide +kernel
  have apart : BlankLinesApart (encodeChars spacedText) := by decide +kernel
  refine ⟨parsed, apart, blank_lines_stay_apart parsed apart ?_⟩
  rw [applied_spacedEdits]
  intro edit mem
  rcases List.mem_cons.mp mem with rfl | mem
  · have line : NoFeed (encodeChars spacedText) 4 5 := fun position after before => by
      obtain rfl : position = 4 := by omega
      decide +kernel
    exact .inr (.before nofun (by decide : 4 < 5) line ⟨⟨97, by decide +kernel, by decide⟩, by decide⟩)
  · rw [List.mem_singleton.mp mem]
    have alone : StandsAlone (encodeChars spacedText) 10 24 :=
      ⟨fun position after before => by
          rw [show lineStart (encodeChars spacedText) 10 = 10 by decide +kernel] at after
          exact absurd before (Nat.not_lt.mpr after),
        24, by decide +kernel, fun position after before => by
          rw [show pastSemicolon (encodeChars spacedText) 24 = 24 by decide +kernel] at after
          exact absurd before (Nat.not_lt.mpr after), .inr (.inl (by decide +kernel))⟩
    have above : BlankLine (encodeChars spacedText) 9 10 := by
      refine ⟨.inr (by decide +kernel), by decide, fun position after before => ?_, fun position after before => by omega,
        .inl (by decide +kernel)⟩
      obtain rfl : position = 9 := by omega
      exact ⟨lineFeed, by decide +kernel, by decide⟩
    have behind (stop : Nat) : ¬ BlankLine (encodeChars spacedText) 26 stop := by
      intro blank
      obtain ⟨byte, at_, isBlank⟩ := blank.blank 26 (Nat.le_refl _) blank.lt
      rw [show (encodeChars spacedText)[26]? = some 98 by decide +kernel] at at_
      cases at_
      cases isBlank
    exact .inl ⟨⟨interfaceAt 10, by decide +kernel, by decide +kernel, alone⟩,
      fun _ => ⟨.inl (.inr ⟨9, above⟩), fun stop blank => absurd blank (behind stop)⟩⟩

/-! Of two erased statements, the second one does not see the blank line above the first. -/

def pairedText : List Char := "a\n\ninterface A \x7b\x7d\ninterface B \x7b\x7d\n\nb\n".toList

def pairedFile : Tree :=
  .node .program none 0 36 [.node .expressionStatement none 0 1 [.node .identifier none 0 1 []], interfaceAt 3, interfaceAt 18,
    .node .expressionStatement none 34 35 [.node .identifier none 34 35 []]]

private theorem sorted_pairedEdits :
    (erasureEdits (encodeChars pairedText) pairedFile).mergeSort Edit.before = [.removal 3 18, .removal 18 33] := by
  have edits : erasureEdits (encodeChars pairedText) pairedFile = [.removal 3 18, .removal 18 33] := by decide +kernel
  rw [edits]
  simp [List.mergeSort, List.MergeSort.Internal.splitInTwo, Edit.before, Edit.removal]

set_option maxRecDepth 8000 in
theorem blank_lines_meet_below_pair :
    Dialect.plain.parse (encodeChars pairedText) = .ok pairedFile ∧ BlankLinesApart (encodeChars pairedText) ∧
      erase .plain (encodeChars pairedText) = .ok (encode "a\n\n\nb\n") ∧ ¬ BlankLinesApart (encode "a\n\n\nb\n") := by
  have parsed : Dialect.plain.parse (encodeChars pairedText) = .ok pairedFile := by decide +kernel
  refine ⟨parsed, by decide +kernel, ?_, by decide +kernel⟩
  rw [erase, parsed]
  dsimp only
  rw [eraseTree, applyEdits, sorted_pairedEdits]
  exact congrArg Except.ok (by decide +kernel)

end Scaffold.Erasure
