import Scaffold.Proofs.Erasure.Imports

/-! # What stands between two words

Two tokens that follow each other in the output are parted by what is kept of the white space between them.
Where all of it is taken with the constructs between them, and nothing else is written there, two words run
into one.
-/

namespace Scaffold.Erasure

open Scaffold.Text Scaffold.Syntax

/-- A byte of ASCII that no name may hold. -/
def isBreakByte (byte : UInt8) : Bool := byte < 0x80 && isNameBreak (Char.ofNat byte.toNat)

/-- A byte of the output that is not one of a name. -/
def Parts (text : List Char) : Origin → Prop
  | .kept position => ¬ InCharacter isNameChar text position
  | .inserted byte => isBreakByte byte = true

/-- Two tokens follow each other in the output: both are left, and nothing is left of those between them. -/
structure Consecutive (source : Bytes) (root : Tree) (output : List Origin) (first second : Tree) : Prop where
  memFirst : first ∈ root.leaves
  memSecond : second ∈ root.leaves
  ordered : first.stop ≤ second.start
  leftFirst : ∀ position, Ink source first position → .kept position ∈ output
  leftSecond : ∀ position, Ink source second position → .kept position ∈ output
  gone : ∀ leaf ∈ root.leaves, first.stop ≤ leaf.start → leaf.stop ≤ second.start → Gone source output leaf

/-- No construct that is cut out or written anew stands between two offsets. -/
structure Untouched (source : Bytes) (root : Tree) (start stop : Nat) : Prop where
  site : ∀ site, .site site ∈ blocks source [root] root → ¬ (start ≤ site.start ∧ site.stop ≤ stop)
  clause : ∀ clause ∈ root.preorder, clause.kind = .importClause → ¬ (start ≤ clause.start ∧ clause.stop ≤ stop)

variable {text : List Char} {root first second : Tree}

theorem ink_of_isNameChar {leaf : Tree} {position : Nat} (covers : leaf.Covers position)
    (named : InCharacter isNameChar text position) : Ink (encodeChars text) leaf position :=
  ⟨covers, fun _ at_ => (plain_of_isNameChar named at_).1⟩

/-- A leaf behind one leaf and before another one lies between them. -/
private theorem between_of_covers (describes : root.Describes text) {leaf : Tree} (mem : leaf ∈ root.leaves)
    (memFirst : first ∈ root.leaves) (memSecond : second ∈ root.leaves) {position : Nat} (covers : leaf.Covers position)
    (after : first.stop ≤ position) (before : position < second.start) :
    first.stop ≤ leaf.start ∧ leaf.stop ≤ second.start := by
  obtain ⟨begins, ends⟩ := covers
  have apart {other : Tree} (memOther : other ∈ root.leaves) (outside : ¬ other.Covers position) : leaf.Apart other := by
    have inside := Tree.mem_preorder_of_mem_leaves memOther
    rcases describes.placed.mem_leaves_or_apart inside mem with inner | apart
    · rw [Tree.leaves_of_children_eq_nil (Tree.children_of_mem_leaves memOther)] at inner
      obtain rfl := List.mem_singleton.mp inner
      exact absurd ⟨begins, ends⟩ outside
    · exact apart
  have firstOrdered := (describes.placed.inner (Tree.mem_preorder_of_mem_leaves memFirst)).1.start_le_stop
  have secondOrdered := (describes.placed.inner (Tree.mem_preorder_of_mem_leaves memSecond)).1.start_le_stop
  have fromFirst := apart memFirst fun covers => absurd covers.2 (Nat.not_lt.mpr after)
  have fromSecond := apart memSecond fun covers => absurd covers.1 (Nat.not_le.mpr before)
  unfold Tree.Apart at fromFirst fromSecond
  omega

/-- What is kept between two tokens that follow each other is no part of a name. -/
theorem Consecutive.not_isNameChar (describes : root.Describes text)
    (consecutive : Consecutive (encodeChars text) root (erasedOrigins (encodeChars text) root) first second)
    {position : Nat} (after : first.stop ≤ position) (before : position < second.start)
    (kept : .kept position ∈ erasedOrigins (encodeChars text) root) : ¬ InCharacter isNameChar text position := by
  intro named
  have lt := ((kept_mem_erasedOrigins_iff describes).mp kept).1
  rw [length_encodeChars] at lt
  rcases describes.filled position lt with ⟨leaf, mem, covers⟩ | separator
  · obtain ⟨behind, ahead⟩ :=
      between_of_covers describes mem consecutive.memFirst consecutive.memSecond covers after before
    exact consecutive.gone leaf mem behind ahead position (ink_of_isNameChar covers named) kept
  · obtain ⟨c, isSeparator_, isName⟩ := separator.both named
    simp [isNameChar, isNameBreak, isSeparator_] at isName

theorem lt_length_of_inCharacter {accepts : Char → Bool} {position : Nat} (inside : InCharacter accepts text position) :
    position < (encodeChars text).length := by
  obtain ⟨c, byte, -, at_, -⟩ := inside.byte
  exact (List.getElem?_eq_some_iff.mp at_).1

/-- Two tokens that follow each other are not empty. -/
private theorem Consecutive.nonempty (describes : root.Describes text) {source : Bytes} {output : List Origin}
    (consecutive : Consecutive source root output first second)
    (begins : InCharacter isNameChar text second.start) : first.start < first.stop ∧ second.start < second.stop := by
  have memFirst := consecutive.memFirst
  have memSecond := consecutive.memSecond
  cases children : root.children with
  | nil =>
    rw [Tree.leaves_of_children_eq_nil children, List.mem_singleton] at memFirst memSecond
    have ordered := consecutive.ordered
    have lt := lt_length_of_inCharacter begins
    rw [length_encodeChars, ← describes.stop_eq] at lt
    rw [memFirst, memSecond] at ordered
    rw [memSecond] at lt
    omega
  | cons child others =>
    have inner : root.children ≠ [] := by simp [children]
    rw [Tree.leaves_of_children_ne_nil inner] at memFirst memSecond
    exact ⟨(describes.placed.children.leaf_bounds memFirst).2.1, (describes.placed.children.leaf_bounds memSecond).2.1⟩

/-- Between two words that follow each other stands what is kept of the source between them, and what the edits
between them write. -/
theorem Consecutive.exists_between (describes : root.Describes text)
    (consecutive : Consecutive (encodeChars text) root (erasedOrigins (encodeChars text) root) first second)
    (ends : InCharacter isNameChar text (first.stop - 1)) (begins : InCharacter isNameChar text second.start) :
    ∃ front middle back,
      erasedOrigins (encodeChars text) root = front ++ .kept (first.stop - 1) :: (middle ++ .kept second.start :: back) ∧
        (∀ position, .kept position ∈ middle ↔ (first.stop ≤ position ∧ position < second.start) ∧
          ¬ Covered (appliedEdits (encodeChars text) root) position) ∧
        ∀ byte, .inserted byte ∈ middle ↔ ∃ edit ∈ appliedEdits (encodeChars text) root,
          (first.stop ≤ edit.start ∧ edit.stop ≤ second.start) ∧ byte ∈ edit.replacement := by
  obtain ⟨nonempty, secondNonempty⟩ := consecutive.nonempty describes begins
  have ordered := consecutive.ordered
  have keptFirst := consecutive.leftFirst _ (ink_of_isNameChar ⟨by omega, by omega⟩ ends)
  have keptSecond := consecutive.leftSecond _ (ink_of_isNameChar ⟨Nat.le_refl _, secondNonempty⟩ begins)
  have freeFirst := ((kept_mem_erasedOrigins_iff describes).mp keptFirst).2
  have freeSecond := ((kept_mem_erasedOrigins_iff describes).mp keptSecond).2
  obtain ⟨front, middle, back, eq, kept, inserted⟩ := origins_between (fits_of_mem_erasureEdits describes)
    (show first.stop - 1 < second.start by omega) (lt_length_of_inCharacter begins) freeFirst freeSecond
  refine ⟨front, middle, back, eq, fun position => ?_, fun byte => ?_⟩
  · rw [kept]
    exact and_congr_left' ⟨fun range => ⟨by omega, range.2⟩, fun range => ⟨by omega, range.2⟩⟩
  · rw [inserted]
    refine exists_congr fun edit => and_congr_right' (and_congr_left' ?_)
    exact ⟨fun range => ⟨by omega, range.2⟩, fun range => ⟨by omega, range.2⟩⟩

/-! ## Edits between two words -/

/-- The assignments of a constructor stand on lines of their own. -/
theorem lineFeed_mem_assignProperties {source : Bytes} {method : Tree} {edit : Edit}
    (mem : edit ∈ (assignProperties source method).edits) : lineFeed ∈ edit.replacement := by
  unfold assignProperties at mem
  split at mem
  · dsimp only at mem
    split at mem
    · cases mem
    · next nonempty =>
      rw [List.mem_singleton.mp mem]
      obtain ⟨name, named⟩ := List.exists_mem_of_ne_nil _ fun empty => nonempty (List.isEmpty_iff.mpr empty)
      have opens (indent tail : Bytes) : lineFeed ∈ encode "\n" ++ indent ++ tail :=
        List.mem_append_left _ (List.mem_append_left _ (by decide))
      dsimp only
      split
      · exact List.mem_append_left _ (List.mem_append_left _ (List.mem_flatMap.mpr ⟨name, named, opens _ _⟩))
      · exact List.mem_flatMap.mpr ⟨name, named, opens _ _⟩
  · cases mem

/-- Where nothing between two words is cut out or written anew, the byte behind the first one is left, or
assignments of a constructor take its place. -/
theorem Consecutive.parted_of_untouched (describes : root.Describes text)
    (consecutive : Consecutive (encodeChars text) root (erasedOrigins (encodeChars text) root) first second)
    (ends : InCharacter isNameChar text (first.stop - 1)) (begins : InCharacter isNameChar text second.start)
    (untouched : Untouched (encodeChars text) root first.stop second.start) (apart : first.stop < second.start) :
    ¬ Covered (appliedEdits (encodeChars text) root) first.stop ∨
      ∃ edit ∈ appliedEdits (encodeChars text) root, (first.stop ≤ edit.start ∧ edit.stop ≤ second.start) ∧
        lineFeed ∈ edit.replacement := by
  obtain ⟨nonempty, secondNonempty⟩ := consecutive.nonempty describes begins
  have keptFirst := consecutive.leftFirst _ (ink_of_isNameChar ⟨by omega, by omega⟩ ends)
  have keptSecond := consecutive.leftSecond _ (ink_of_isNameChar ⟨Nat.le_refl _, secondNonempty⟩ begins)
  have freeFirst := ((kept_mem_erasedOrigins_iff describes).mp keptFirst).2
  have freeSecond := ((kept_mem_erasedOrigins_iff describes).mp keptSecond).2
  by_cases covered : Covered (appliedEdits (encodeChars text) root) first.stop
  · obtain ⟨edit, taken, covers⟩ := covered
    obtain ⟨front, back⟩ : first.stop ≤ edit.start ∧ edit.stop ≤ second.start := by
      obtain ⟨after, before⟩ := covers
      have outsideFirst : ¬ edit.Covers (first.stop - 1) := fun covers => freeFirst ⟨edit, taken, covers⟩
      have outsideSecond : ¬ edit.Covers second.start := fun covers => freeSecond ⟨edit, taken, covers⟩
      unfold Edit.Covers at outsideFirst outsideSecond
      omega
    rcases mem_erasureEdits_iff.mp (mem_of_mem_applied taken) with ⟨site, found, eq⟩ | ⟨method, -, member⟩
    · have met := Block.met_of_mem_blocks describes.kind_eq found
      rcases (Site.bounded_of_met describes.placed describes.stop_le met eq).2 with spanned | clause
      · have site := untouched.site site found
        unfold Site.Spanned at spanned
        omega
      · cases clause with
        | @mk statement clause clauseFound =>
          have stands := Block.stands_of_mem_blocks found
          have inside := Tree.mem_preorder_of_mem_children stands.1.mem_preorder (List.mem_of_find?_eq_some clauseFound)
          have kind : clause.kind = .importClause := by simpa using List.find?_some clauseFound
          exact absurd ⟨front, back⟩ (untouched.clause clause inside kind)
    · exact .inr ⟨edit, taken, ⟨front, back⟩, lineFeed_mem_assignProperties member⟩
  · exact .inl covered

/-! ## What parts two words -/

/-- What stands between two words that follow each other parts them exactly where a byte of the source between
them is left, or an edit between them writes a byte that is none of a name. -/
structure Parting (text : List Char) (root first second : Tree) (middle : List Origin) : Prop where
  parted_iff : (∃ origin ∈ middle, Parts text origin) ↔
    (∃ position, (first.stop ≤ position ∧ position < second.start) ∧
      ¬ Covered (appliedEdits (encodeChars text) root) position) ∨
    ∃ edit ∈ appliedEdits (encodeChars text) root, (first.stop ≤ edit.start ∧ edit.stop ≤ second.start) ∧
      ∃ byte ∈ edit.replacement, isBreakByte byte = true
  untouched : Untouched (encodeChars text) root first.stop second.start → first.stop < second.start →
    ∃ origin ∈ middle, Parts text origin

/-- Two words that follow each other in the output are parted unless all that stood between them is taken with
the constructs there, and nothing else is written in its place. -/
theorem words_are_parted {dialect : Dialect} (parsed : dialect.parse (encodeChars text) = .ok root) :
    erase dialect (encodeChars text) =
        .ok ((erasedOrigins (encodeChars text) root).map (Origin.byte (encodeChars text))) ∧
      ∀ first second,
        Consecutive (encodeChars text) root (erasedOrigins (encodeChars text) root) first second →
        InCharacter isNameChar text (first.stop - 1) → InCharacter isNameChar text second.start →
        ∃ front middle back,
          erasedOrigins (encodeChars text) root =
              front ++ .kept (first.stop - 1) :: (middle ++ .kept second.start :: back) ∧
            Parting text root first second middle := by
  have describes := Dialect.describes_of_parse parsed
  refine ⟨erase_of_parse parsed, fun first second consecutive ends begins => ?_⟩
  obtain ⟨front, middle, back, eq, kept, inserted⟩ := consecutive.exists_between describes ends begins
  have length_le {position : Nat} (before : position < second.start) : position < (encodeChars text).length :=
    Nat.lt_trans before (lt_length_of_inCharacter begins)
  have parted_of_kept {position : Nat} (range : first.stop ≤ position ∧ position < second.start)
      (free : ¬ Covered (appliedEdits (encodeChars text) root) position) : ∃ origin ∈ middle, Parts text origin := by
    refine ⟨.kept position, (kept position).mpr ⟨range, free⟩, ?_⟩
    exact consecutive.not_isNameChar describes range.1 range.2
      ((kept_mem_erasedOrigins_iff describes).mpr ⟨length_le range.2, free⟩)
  refine ⟨front, middle, back, eq, ⟨?_, ?_⟩, fun untouched apart => ?_⟩
  · rintro ⟨origin, mem, parts⟩
    cases origin with
    | kept position =>
      obtain ⟨range, free⟩ := (kept position).mp mem
      exact .inl ⟨position, range, free⟩
    | inserted byte =>
      obtain ⟨edit, taken, range, written⟩ := (inserted byte).mp mem
      exact .inr ⟨edit, taken, range, byte, written, parts⟩
  · rintro (⟨position, range, free⟩ | ⟨edit, taken, range, byte, written, isBreak⟩)
    · exact parted_of_kept range free
    · exact ⟨.inserted byte, (inserted byte).mpr ⟨edit, taken, range, written⟩, isBreak⟩
  · rcases consecutive.parted_of_untouched describes ends begins untouched apart with free | ⟨edit, taken, range, written⟩
    · exact parted_of_kept ⟨Nat.le_refl _, apart⟩ free
    · exact ⟨.inserted lineFeed, (inserted lineFeed).mpr ⟨edit, taken, range, written⟩, show isBreakByte lineFeed = true by decide⟩

/-! ## Two files -/

/-- A token that ends at a byte is left where all its bytes are kept. -/
theorem left_of_forall {source : Bytes} {leaf : Tree} {output : List Origin}
    (kept : ∀ position < leaf.stop, leaf.start ≤ position → .kept position ∈ output) :
    ∀ position, Ink source leaf position → .kept position ∈ output :=
  fun position ink => kept position ink.covers.2 ink.covers.1

/-- A token is gone where none of its bytes is kept. -/
theorem gone_of_forall {source : Bytes} {leaf : Tree} {output : List Origin}
    (taken : ∀ position < leaf.stop, leaf.start ≤ position → .kept position ∉ output) : Gone source output leaf :=
  fun position ink => taken position ink.covers.2 ink.covers.1

def partedText : List Char := "a as T in b\n".toList

/-- The tree of `a as T in b`. -/
def partedTree : Tree :=
  .node .program none 0 12 [.node .expressionStatement none 0 11 [.node .binaryExpression none 0 11
    [.node .asExpression (some .left) 0 6
      [.node .identifier none 0 1 [], .node (.token "as") none 2 4 [], .node .typeIdentifier none 5 6 []],
      .node (.token "in") none 7 9 [], .node .identifier (some .right) 10 11 []]]]

private theorem partedOrigins :
    erasedOrigins (encodeChars partedText) partedTree = .kept 0 :: (List.range' 6 6).map .kept := by
  have edits : erasureEdits (encodeChars partedText) partedTree = [.removal 1 6] := by decide +kernel
  rw [erasedOrigins, origins, applied, edits, List.mergeSort_singleton]
  decide +kernel

set_option maxRecDepth 8000 in
theorem words_parted_behind_assertion :
    Dialect.plain.parse (encodeChars partedText) = .ok partedTree ∧
      ∃ front middle back,
        erasedOrigins (encodeChars partedText) partedTree = front ++ .kept 0 :: (middle ++ .kept 7 :: back) ∧
          Parting partedText partedTree (.node .identifier none 0 1 []) (.node (.token "in") none 7 9 []) middle := by
  have parsed : Dialect.plain.parse (encodeChars partedText) = .ok partedTree := by decide +kernel
  have consecutive : Consecutive (encodeChars partedText) partedTree
      (erasedOrigins (encodeChars partedText) partedTree) (.node .identifier none 0 1 [])
      (.node (.token "in") none 7 9 []) := by
    rw [partedOrigins]
    refine ⟨by decide +kernel, by decide +kernel, by decide, left_of_forall (by decide), left_of_forall (by decide), ?_⟩
    intro leaf mem after before
    apply gone_of_forall
    revert leaf
    decide +kernel
  have ends : InCharacter isNameChar partedText 0 := ⟨[], 'a', partedText.tail, rfl, by decide, by decide, by decide⟩
  have begins : InCharacter isNameChar partedText 7 :=
    ⟨"a as T ".toList, 'i', "n b\n".toList, by decide, by decide, by decide, by decide⟩
  exact ⟨parsed, (words_are_parted parsed).2 _ _ consecutive ends begins⟩

/-! A mark is taken with the blanks behind it, whatever follows them. -/

def gluedText : List Char := "a! instanceof B\n".toList

/-- The tree of `a! instanceof B`. -/
def gluedTree : Tree :=
  .node .program none 0 16 [.node .expressionStatement none 0 15 [.node .binaryExpression none 0 15
    [.node .nonNullExpression (some .left) 0 2 [.node .identifier none 0 1 [], .node (.token "!") none 1 2 []],
      .node (.token "instanceof") none 3 13 [], .node .identifier (some .right) 14 15 []]]]

private theorem gluedEdits : erasureEdits (encodeChars gluedText) gluedTree = [.removal 1 3] := by decide +kernel

private theorem gluedOrigins :
    erasedOrigins (encodeChars gluedText) gluedTree = .kept 0 :: (List.range' 3 13).map .kept := by
  rw [erasedOrigins, origins, applied, gluedEdits, List.mergeSort_singleton]
  decide +kernel

set_option maxRecDepth 8000 in
theorem words_run_together :
    Dialect.plain.parse (encodeChars gluedText) = .ok gluedTree ∧
      erase .plain (encodeChars gluedText) = .ok (encode "ainstanceof B\n") ∧
      ∃ first second, Consecutive (encodeChars gluedText) gluedTree (erasedOrigins (encodeChars gluedText) gluedTree)
          first second ∧
        InCharacter isNameChar gluedText (first.stop - 1) ∧ InCharacter isNameChar gluedText second.start ∧
        ∃ back, erasedOrigins (encodeChars gluedText) gluedTree =
          .kept (first.stop - 1) :: .kept second.start :: back := by
  have parsed : Dialect.plain.parse (encodeChars gluedText) = .ok gluedTree := by decide +kernel
  refine ⟨parsed, ?_, .node .identifier none 0 1 [], .node (.token "instanceof") none 3 13 [], ?_, ?_, ?_, ?_⟩
  · rw [erase, parsed]
    dsimp only
    rw [eraseTree, applyEdits, gluedEdits, List.mergeSort_singleton]
    exact congrArg Except.ok (by decide +kernel)
  · rw [gluedOrigins]
    refine ⟨by decide +kernel, by decide +kernel, by decide, left_of_forall (by decide), left_of_forall (by decide), ?_⟩
    intro leaf mem after before
    apply gone_of_forall
    revert leaf
    decide +kernel
  · exact ⟨[], 'a', gluedText.tail, rfl, by decide, by decide, by decide⟩
  · exact ⟨"a! ".toList, 'i', "nstanceof B\n".toList, by decide, by decide, by decide, by decide⟩
  · exact ⟨_, gluedOrigins⟩

end Scaffold.Erasure
