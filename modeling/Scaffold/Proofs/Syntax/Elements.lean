import Mathlib.Data.List.Basic
import Scaffold.Proofs.Syntax.Openings

/-! # What goes with an element

The range of an element is its stretch, widened over white space on its line. In an array the comma that
goes with an element stands behind it, or before it when the element is the last one, or there is none.
-/

namespace Scaffold.Syntax

open Scaffold.Text

/-- The range of an element is its stretch, with the blanks behind a comma that follows, or the whole line. -/
theorem exists_elementRange_eq (source : Bytes) {start stop : Nat} {siblings : List Tree} {tree : Tree}
    (placed : Tree.PlacedIn start stop siblings) (mem : tree ∈ siblings) (notComment : tree.isComment = false) :
    ∃ behind, (behind = (tree.stretch siblings).2 ∨ behind = skipSpaces source (tree.stretch siblings).2) ∧
      elementRange source siblings tree = ownedLine source (tree.stretch siblings).1 behind := by
  have ordered := placed.pairwise.filter fun sibling => !sibling.isComment
  obtain ⟨previous_, next_, neighbours⟩ : ∃ previous next, tree.neighbours siblings = (previous, next) := ⟨_, _, rfl⟩
  cases placed.commaBeside mem notComment with
  | @behind comma front later isComma order next =>
    rw [order] at ordered
    have apart := (List.pairwise_cons.mp (List.pairwise_append.mp ordered).2.1).1 comma List.mem_cons_self
    have own := placed.bounds mem
    have member : comma ∈ siblings.filter fun sibling => !sibling.isComment := by simp [order]
    have bounds := placed.bounds (List.mem_filter.mp member).1
    have stretch : tree.stretch siblings = (tree.start, comma.stop) := by
      rw [Tree.stretch, Tree.listComma?, next]
      change (min tree.start comma.start, max tree.stop comma.stop) = _
      rw [Nat.min_eq_left (by omega), Nat.max_eq_right (by omega)]
    rw [neighbours] at next
    refine ⟨_, .inr rfl, ?_⟩
    rw [stretch, elementRange, neighbours]
    dsimp only
    rw [next]
  | @before comma earlier later isComma order next previous =>
    rw [order] at ordered
    have apart := (List.pairwise_cons.mp (List.pairwise_append.mp ordered).2.1).1 tree List.mem_cons_self
    have own := placed.bounds mem
    have member : comma ∈ siblings.filter fun sibling => !sibling.isComment := by simp [order]
    have bounds := placed.bounds (List.mem_filter.mp member).1
    have stretch : tree.stretch siblings = (comma.start, tree.stop) := by
      rw [Tree.stretch, Tree.listComma?, next, previous]
      change (min tree.start comma.start, max tree.stop comma.stop) = _
      rw [Nat.min_eq_right (by omega), Nat.max_eq_left (by omega)]
    rw [neighbours] at next previous
    refine ⟨_, .inl rfl, ?_⟩
    rw [stretch, elementRange, neighbours]
    dsimp only
    rw [next, previous]
  | missing order next previous =>
    have stretch : tree.stretch siblings = (tree.start, tree.stop) := by
      rw [Tree.stretch, Tree.listComma?, next, previous]
      rfl
    rw [neighbours] at next previous
    refine ⟨_, .inl rfl, ?_⟩
    rw [stretch, elementRange, neighbours]
    dsimp only
    rw [next, previous]

/-- The range of an element is its stretch, widened over white space. -/
theorem lineWidened_elementRange {source : Bytes} {start stop : Nat} {siblings : List Tree} {tree : Tree}
    (placed : Tree.PlacedIn start stop siblings) (mem : tree ∈ siblings) (notComment : tree.isComment = false)
    (le : stop ≤ source.length) :
    LineWidened source (tree.stretch siblings).1 (tree.stretch siblings).2 (elementRange source siblings tree).1
      (elementRange source siblings tree).2 := by
  have bounds := placed.stretch_bounds mem notComment
  have own := placed.bounds mem
  obtain ⟨behind, kind, eq⟩ := exists_elementRange_eq source placed mem notComment
  have past : (tree.stretch siblings).2 ≤ behind ∧ behind ≤ source.length ∧
      ∀ position, (tree.stretch siblings).2 ≤ position → position < behind →
        ∃ byte, source[position]? = some byte ∧ isIndent byte = true := by
    rcases kind with rfl | rfl
    · exact ⟨Nat.le_refl _, by omega, fun position after before => by omega⟩
    · exact ⟨le_skipSpaces _ _, skipSpaces_le (by omega), fun position => indent_skipSpaces source _ position⟩
  obtain ⟨after, inside, indent⟩ := past
  have widened := lineWidened_ownedLine (show (tree.stretch siblings).1 ≤ behind by omega) inside
  rw [eq]
  refine ⟨⟨widened.start_le, Nat.le_trans after widened.le_stop, widened.stop_le, widened.front, ?_⟩, widened.begins, ?_⟩
  · refine Blank.append (fun position front back => ?_) widened.back
    obtain ⟨byte, at_, indent⟩ := indent position front back
    exact ⟨byte, at_, isBlankByte_of_isIndent indent⟩
  · intro position front back
    rcases Nat.lt_or_ge position behind with lt | ge
    · obtain ⟨byte, at_, indent⟩ := indent position front lt
      rw [at_]
      rintro ⟨⟩
      cases indent
    · exact widened.ends position ge back

/-! ## Elements of arrays -/

/-- Trees without the comments among them. -/
def sifted (siblings : List Tree) : List Tree := siblings.filter fun sibling => !sibling.isComment

variable {text : List Char} {start stop : Nat} {siblings front later : List Tree} {tree : Tree}

theorem mem_sifted_iff : tree ∈ sifted siblings ↔ tree ∈ siblings ∧ tree.isComment = false := by
  simp [sifted]

/-- What stands behind a tree among its siblings begins behind it. -/
theorem Tree.PlacedIn.stop_le_start {sibling : Tree} (placed : Tree.PlacedIn start stop siblings)
    (order : sifted siblings = front ++ tree :: later) (mem : sibling ∈ later) : tree.stop ≤ sibling.start := by
  have ordered : (sifted siblings).Pairwise fun first second => first.stop ≤ second.start := placed.pairwise.filter _
  rw [order] at ordered
  exact (List.pairwise_cons.mp (List.pairwise_append.mp ordered).2.1).1 sibling mem

/-- A sibling that is no comment stands in front of a tree, or is the tree, or stands behind it. -/
theorem Tree.PlacedIn.side {sibling : Tree} (placed : Tree.PlacedIn start stop siblings)
    (order : sifted siblings = front ++ tree :: later) (mem : sibling ∈ sifted siblings) :
    sibling.stop ≤ tree.start ∨ sibling = tree ∨ sibling ∈ later := by
  have ordered : (sifted siblings).Pairwise fun first second => first.stop ≤ second.start := placed.pairwise.filter _
  rw [order] at ordered
  rw [order, List.mem_append, List.mem_cons] at mem
  rcases mem with mem | same | mem
  · exact .inl ((List.pairwise_append.mp ordered).2.2 sibling mem tree List.mem_cons_self)
  · exact .inr (.inl same)
  · exact .inr (.inr mem)

/-- Trees that stand side by side when comments are left out follow each other. -/
theorem Tree.PlacedIn.adjacent {first second : Tree} (placed : Tree.PlacedIn start stop siblings)
    (order : sifted siblings = front ++ first :: second :: later) :
    first.start < first.stop ∧ first.stop ≤ second.start ∧ second.start < second.stop := by
  have nonempty {sibling : Tree} (member : sibling ∈ sifted siblings) : sibling.start < sibling.stop :=
    (placed.bounds (mem_sifted_iff.mp member).1).2.1
  exact ⟨nonempty (by simp [order]), placed.stop_le_start order List.mem_cons_self, nonempty (by simp [order])⟩

/-- No other tree stands between two that stand side by side. -/
theorem Tree.PlacedIn.side_pair {first second sibling : Tree} (placed : Tree.PlacedIn start stop siblings)
    (order : sifted siblings = front ++ first :: second :: later) (mem : sibling ∈ sifted siblings) :
    sibling.stop ≤ first.start ∨ sibling = first ∨ sibling = second ∨ second.stop ≤ sibling.start := by
  rcases placed.side order mem with before | same | behind
  · exact .inl before
  · exact .inr (.inl same)
  · rcases List.mem_cons.mp behind with same | behind
    · exact .inr (.inr (.inl same))
    · exact .inr (.inr (.inr (placed.stop_le_start (order.trans (List.append_cons _ _ _)) behind)))

/-- Every sibling stands at one place only. -/
theorem Tree.PlacedIn.nodup_sifted (placed : Tree.PlacedIn start stop siblings) : (sifted siblings).Nodup := by
  have ordered : (sifted siblings).Pairwise fun first second => first.stop ≤ second.start := placed.pairwise.filter _
  refine ordered.imp_of_mem fun {first second} mem _ before same => ?_
  have := placed.bounds (mem_sifted_iff.mp mem).1
  subst same
  omega

/-- A tree parts its siblings in one way. -/
theorem Tree.PlacedIn.split_unique {front' later' : List Tree} (placed : Tree.PlacedIn start stop siblings)
    (order : sifted siblings = front ++ tree :: later) (order' : sifted siblings = front' ++ tree :: later') :
    front = front' ∧ later = later' := by
  have nodup := placed.nodup_sifted
  rw [order] at nodup
  obtain ⟨-, tail, apart⟩ := List.nodup_append.mp nodup
  have notFront : tree ∉ front := fun mem => apart tree mem tree List.mem_cons_self rfl
  obtain ⟨same, -, rest⟩ :=
    (List.append_cons_inj_of_notMem notFront (List.nodup_cons.mp tail).1).mp (order.symm.trans order')
  exact ⟨same, rest⟩

/-- The neighbours of a tree stand next to it when comments are left out. -/
theorem Tree.PlacedIn.neighbours_eq (placed : Tree.PlacedIn start stop siblings)
    (order : sifted siblings = front ++ tree :: later) : tree.neighbours siblings = (front.getLast?, later.head?) := by
  obtain ⟨before, behind, split, around⟩ := around_of_mem [] (placed.pairwise.filter _)
    (fun sibling member => (placed.bounds (List.mem_filter.mp member).1).2.1) (by simp [order] : tree ∈ sifted siblings)
  obtain ⟨rfl, rfl⟩ := placed.split_unique order split
  unfold Tree.neighbours
  rw [around, List.append_nil]
  exact Prod.ext List.head?_reverse rfl

theorem Tree.IsMark.isNamed_eq_false {mark : String} (isMark : tree.IsMark text mark) : tree.isNamed = false := by
  rw [Tree.isNamed, isMark.kind_eq]
  rfl

theorem Tree.IsMark.isComma_eq {mark : String} (isMark : tree.IsMark text mark) : tree.isComma = decide (mark = ",") := by
  simp [Tree.isComma, isMark.kind_eq]

/-- Behind an item stands a comma, or nothing. -/
theorem Parted.next (parted : Parted text (front ++ tree :: later)) (named : tree.isNamed = true) :
    ∀ first ∈ later.head?, first.IsMark text "," := by
  induction front with
  | nil =>
    cases parted with
    | comma isComma => simp [isComma.isNamed_eq_false] at named
    | item _ next _ => exact next
  | cons head rest next =>
    cases parted with
    | comma _ rest => exact next rest
    | item _ _ rest => exact next rest

/-- In front of an item stands a comma, or nothing. -/
theorem Parted.previous (parted : Parted text (front ++ tree :: later)) (named : tree.isNamed = true) :
    ∀ last ∈ front.getLast?, last.IsMark text "," := by
  induction front with
  | nil => exact nofun
  | cons head rest previous =>
    have inner : Parted text (rest ++ tree :: later) := by
      cases parted with
      | comma _ rest => exact rest
      | item _ _ rest => exact rest
    cases rest with
    | nil =>
      intro last mem
      cases mem
      cases parted with
      | comma isComma => exact isComma
      | item _ next _ => simp [(next tree rfl).isNamed_eq_false] at named
    | cons second others =>
      intro last mem
      exact previous inner last (by simpa using mem)

/-- The comma that goes with an element of an array: it stands behind the element, or in front of the last one;
a single element may have none. -/
inductive Beside (text : List Char) (siblings : List Tree) (tree : Tree) : Prop
  | behind {comma : Tree} {front later : List Tree} (isComma : comma.IsMark text ",")
      (order : sifted siblings = front ++ tree :: comma :: later) (listComma : tree.listComma? siblings = some comma)
      (stretch : tree.stretch siblings = (tree.start, comma.stop))
  | last {comma closing : Tree} {front : List Tree} (isComma : comma.IsMark text ",") (isClosing : closing.IsMark text "]")
      (order : sifted siblings = front ++ [comma, tree, closing]) (listComma : tree.listComma? siblings = some comma)
      (stretch : tree.stretch siblings = (comma.start, tree.stop))
  | alone {opening closing : Tree} (isOpening : opening.IsMark text "[") (isClosing : closing.IsMark text "]")
      (order : sifted siblings = [opening, tree, closing]) (listComma : tree.listComma? siblings = none)
      (stretch : tree.stretch siblings = (tree.start, tree.stop))

/-- An item of an array stands inside its brackets. -/
private theorem exists_inner {opening closing : Tree} {inner : List Tree} (isOpening : opening.IsMark text "[")
    (isClosing : closing.IsMark text "]") (named : tree.isNamed = true)
    (order : opening :: (inner ++ [closing]) = front ++ tree :: later) :
    ∃ front' later', front = opening :: front' ∧ later = later' ++ [closing] ∧ inner = front' ++ tree :: later' := by
  cases front with
  | nil =>
    cases order
    simp [isOpening.isNamed_eq_false] at named
  | cons head front =>
    rw [List.cons_append, List.cons.injEq] at order
    obtain ⟨rfl, order⟩ := order
    rcases List.eq_nil_or_concat later with rfl | ⟨later', last, rfl⟩
    · obtain ⟨-, same⟩ := List.append_inj' order rfl
      cases same
      simp [isClosing.isNamed_eq_false] at named
    · rw [List.concat_eq_append, ← List.cons_append, ← List.append_assoc] at order
      obtain ⟨same, last⟩ := List.append_inj' order rfl
      cases last
      exact ⟨front, later', rfl, List.concat_eq_append, same⟩

theorem Bracketed.beside (bracketed : Bracketed text siblings) (placed : Tree.PlacedIn start stop siblings)
    (mem : tree ∈ siblings) (named : tree.isNamed = true) (notComment : tree.isComment = false) :
    Beside text siblings tree := by
  obtain @⟨opening, closing, _, isOpening, isClosing, brackets, parted⟩ := bracketed
  obtain ⟨front, behind, order⟩ := List.append_of_mem (mem_sifted_iff.mpr ⟨mem, notComment⟩)
  have neighbours := placed.neighbours_eq order
  obtain ⟨front, behind, rfl, rfl, rfl⟩ := exists_inner isOpening isClosing named (brackets.symm.trans order)
  rcases behind with _ | ⟨comma, later⟩
  · have closingKind := isClosing.isComma_eq
    rcases List.eq_nil_or_concat front with rfl | ⟨front, comma, rfl⟩
    · have openingKind := isOpening.isComma_eq
      have listComma : tree.listComma? siblings = none := by
        rw [Tree.listComma?, neighbours]
        simp [openingKind, closingKind]
      exact .alone isOpening isClosing order listComma (by rw [Tree.stretch, listComma])
    · rw [List.concat_eq_append] at *
      have isComma := parted.previous named comma (by simp)
      have listComma : tree.listComma? siblings = some comma := by
        rw [Tree.listComma?, neighbours, ← List.cons_append, List.getLast?_concat]
        simp [isComma.isComma_eq, closingKind]
      have split : sifted siblings = (opening :: front) ++ comma :: tree :: [closing] := by
        rw [order, List.nil_append, List.cons_append, List.append_assoc]
        rfl
      have adjacent := placed.adjacent split
      refine .last isComma isClosing split listComma ?_
      rw [Tree.stretch, listComma]
      dsimp only
      rw [Nat.min_eq_right (by omega), Nat.max_eq_left (by omega)]
  · have isComma := parted.next named comma rfl
    have listComma : tree.listComma? siblings = some comma := by
      rw [Tree.listComma?, neighbours]
      simp [isComma.isComma_eq]
    have adjacent := placed.adjacent order
    refine .behind isComma order listComma ?_
    rw [Tree.stretch, listComma]
    dsimp only
    rw [Nat.min_eq_left (by omega), Nat.max_eq_right (by omega)]

theorem Parted.dark {trees : List Tree} (parted : Parted text trees) (mem : tree ∈ trees) :
    Dark (encodeChars text) tree.start := by
  induction parted with
  | nil => cases mem
  | comma isComma _ dark =>
    rcases List.mem_cons.mp mem with rfl | mem
    · exact isComma.dark
    · exact dark mem
  | item isItem _ _ dark =>
    rcases List.mem_cons.mp mem with rfl | mem
    · exact isItem.dark
    · exact dark mem

/-- No tree in an array begins with white space. -/
theorem Bracketed.dark (bracketed : Bracketed text siblings) (mem : tree ∈ siblings) (notComment : tree.isComment = false) :
    Dark (encodeChars text) tree.start := by
  obtain ⟨isOpening, isClosing, order, parted⟩ := bracketed
  have member := mem_sifted_iff.mpr ⟨mem, notComment⟩
  rw [show sifted siblings = _ from order, List.mem_cons, List.mem_append, List.mem_singleton] at member
  rcases member with rfl | member | rfl
  · exact isOpening.dark
  · exact parted.dark member
  · exact isClosing.dark

/-- The brackets of an array stand outside the stretches of its elements. -/
theorem Bracketed.outside (bracketed : Bracketed text siblings) (placed : Tree.PlacedIn start stop siblings)
    (mem : tree ∈ siblings) (named : tree.isNamed = true) (notComment : tree.isComment = false) :
    ∃ opening ∈ siblings, ∃ closing ∈ siblings, opening.IsMark text "[" ∧ closing.IsMark text "]" ∧
      opening.stop ≤ (tree.stretch siblings).1 ∧ (tree.stretch siblings).2 ≤ closing.start := by
  have beside := bracketed.beside placed mem named notComment
  obtain @⟨opening, closing, inner, isOpening, isClosing, order, parted⟩ := bracketed
  change sifted siblings = _ at order
  have ordered := placed.pairwise.filter fun sibling => !sibling.isComment
  rw [show siblings.filter (fun sibling => !sibling.isComment) = _ from order] at ordered
  obtain ⟨behindOpening, rest⟩ := List.pairwise_cons.mp ordered
  have beforeClosing := (List.pairwise_append.mp rest).2.2
  have inside {sibling : Tree} (member : sibling ∈ sifted siblings)
      (plain : sibling.isNamed = true ∨ sibling.IsMark text ",") :
      opening.stop ≤ sibling.start ∧ sibling.stop ≤ closing.start := by
    have inInner : sibling ∈ inner := by
      rw [order, List.mem_cons, List.mem_append, List.mem_singleton] at member
      rcases member with rfl | member | rfl
      · rcases plain with named | comma
        · simp [isOpening.isNamed_eq_false] at named
        · simpa [comma.isComma_eq] using isOpening.isComma_eq
      · exact member
      · rcases plain with named | comma
        · simp [isClosing.isNamed_eq_false] at named
        · simpa [comma.isComma_eq] using isClosing.isComma_eq
    exact ⟨behindOpening sibling (List.mem_append_left _ inInner),
      beforeClosing sibling inInner closing (List.mem_singleton_self _)⟩
  have member := mem_sifted_iff.mpr ⟨mem, notComment⟩
  have own := inside member (.inl named)
  refine ⟨opening, (mem_sifted_iff.mp (by simp [order] : opening ∈ sifted siblings)).1, closing,
    (mem_sifted_iff.mp (by simp [order] : closing ∈ sifted siblings)).1, isOpening, isClosing, ?_⟩
  cases beside with
  | @behind comma _ _ isComma split _ stretch =>
    have besides := inside (by simp [split] : comma ∈ _) (.inr isComma)
    rw [stretch]
    exact ⟨own.1, besides.2⟩
  | @last comma _ _ isComma _ split _ stretch =>
    have besides := inside (by simp [split] : comma ∈ _) (.inr isComma)
    rw [stretch]
    exact ⟨besides.1, own.2⟩
  | alone _ _ _ _ stretch =>
    rw [stretch]
    exact own

theorem Parted.isComma_or_isNamed {trees : List Tree} (parted : Parted text trees) (mem : tree ∈ trees) :
    tree.isComma = true ∨ tree.isNamed = true := by
  induction parted with
  | nil => cases mem
  | comma isComma _ each =>
    rcases List.mem_cons.mp mem with rfl | mem
    · exact .inl (by simp [isComma.isComma_eq])
    · exact each mem
  | item isItem _ _ each =>
    rcases List.mem_cons.mp mem with rfl | mem
    · exact .inr isItem.isNamed
    · exact each mem

/-- What stands inside the brackets of an array is a comma or an item. -/
theorem Bracketed.isComma_or_isNamed (bracketed : Bracketed text siblings) (placed : Tree.PlacedIn start stop siblings)
    (order : sifted siblings = front ++ tree :: later) (notFirst : front ≠ []) (notLast : later ≠ []) :
    tree.isComma = true ∨ tree.isNamed = true := by
  obtain @⟨opening, closing, inner, isOpening, isClosing, brackets, parted⟩ := bracketed
  have member : tree ∈ opening :: (inner ++ [closing]) := by
    rw [← show sifted siblings = _ from brackets, order]
    simp
  rw [List.mem_cons, List.mem_append, List.mem_singleton] at member
  rcases member with rfl | member | rfl
  · have alone : sifted siblings = [] ++ tree :: (inner ++ [closing]) := brackets
    exact absurd (placed.split_unique alone order).1.symm notFirst
  · exact parted.isComma_or_isNamed member
  · have alone : sifted siblings = (opening :: inner) ++ tree :: [] := brackets
    exact absurd (placed.split_unique alone order).2.symm notLast

end Scaffold.Syntax
