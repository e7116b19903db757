import Scaffold.Edit.ArrayEntry
import Scaffold.Proofs.Syntax.Elements
import Scaffold.Proofs.Syntax.Program
import Scaffold.Proofs.Text.Splice
import Scaffold.Proofs.Text.Thinning

/-! # Entries that are removed from arrays

An entry is removed with one comma and the white space around it. Two ranges of entries lie apart unless one
entry stands in the other, or the last entry of an array shares its comma with the one before: then the last one
stays. All else is kept but for white space on lines that become blank.
-/

namespace Scaffold.Edit

open Scaffold.Text Scaffold.Syntax

/-! ## Elements of arrays -/

/-- An element of an array literal of a file. -/
structure IsElement (root array element : Tree) : Prop where
  inside : array ∈ root.preorder
  isArray : array.kind = .array
  member : element ∈ array.parts

/-- The edit that removes an element with its comma. -/
def entryRemoval (source : Bytes) (array element : Tree) : Text.Edit :=
  .removal (elementRange source array.children element).1 (elementRange source array.children element).2

variable {source : Bytes} {target : EntryTarget} {text : List Char} {root array element : Tree} {position : Nat}

theorem mem_parts_iff : element ∈ array.parts ↔
    element ∈ array.children ∧ element.isNamed = true ∧ element.isComment = false := by
  simp [Tree.parts]

theorem mem_elementsOfAll_iff {siblings : Option (List Tree)} {trees : List Tree} {found : ArrayElement} :
    found ∈ elementsOfAll siblings trees ↔ ∃ tree ∈ trees, found ∈ elementsOf siblings tree := by
  induction trees with
  | nil => simp [elementsOfAll]
  | cons head later iff => simp [elementsOfAll, iff]

/-- The elements of the arrays in a tree are its own, if it is an array, and those of the arrays in its children. -/
theorem isElement_iff {tree : Tree} : IsElement tree array element ↔
    (array = tree ∧ tree.kind = .array ∧ element ∈ tree.parts) ∨ ∃ child ∈ tree.children, IsElement child array element := by
  constructor
  · rintro ⟨inside, isArray, member⟩
    rcases Tree.mem_preorder_iff.mp inside with rfl | ⟨child, mem, inside⟩
    · exact .inl ⟨rfl, isArray, member⟩
    · exact .inr ⟨child, mem, inside, isArray, member⟩
  · rintro (⟨rfl, isArray, member⟩ | ⟨child, mem, inside, isArray, member⟩)
    · exact ⟨array.mem_preorder_self, isArray, member⟩
    · exact ⟨Tree.mem_preorder_iff.mpr (.inr ⟨child, mem, inside⟩), isArray, member⟩

/-- The elements that are found are the tree itself, if it stands in an array, and those of the arrays in it. -/
theorem mem_elementsOf_iff {siblings : Option (List Tree)} {tree : Tree} {found : ArrayElement} :
    found ∈ elementsOf siblings tree ↔
      (tree.isNamed = true ∧ tree.isComment = false ∧ ∃ others ∈ siblings, found = ⟨others, tree⟩) ∨
        ∃ array element, IsElement tree array element ∧ found = ⟨array.children, element⟩ := by
  induction tree using Tree.induction_on_children generalizing siblings with
  | step tree below =>
    have inner : found ∈ elementsOfAll (if tree.kind = .array then some tree.children else none) tree.children ↔
        ∃ array element, IsElement tree array element ∧ found = ⟨array.children, element⟩ := by
      rw [mem_elementsOfAll_iff]
      constructor
      · rintro ⟨child, mem, found_⟩
        rcases (below child mem).mp found_ with ⟨named, plain, others, around, rfl⟩ | ⟨array, element, is, rfl⟩
        · split at around
          · next isArray =>
            cases around
            exact ⟨tree, child, isElement_iff.mpr (.inl ⟨rfl, isArray, mem_parts_iff.mpr ⟨mem, named, plain⟩⟩), rfl⟩
          · cases around
        · exact ⟨array, element, isElement_iff.mpr (.inr ⟨child, mem, is⟩), rfl⟩
      · rintro ⟨array, element, is, rfl⟩
        rcases isElement_iff.mp is with ⟨rfl, isArray, member⟩ | ⟨child, mem, is⟩
        · obtain ⟨mem, named, plain⟩ := mem_parts_iff.mp member
          rw [if_pos isArray]
          exact ⟨element, mem, (below element mem).mpr (.inl ⟨named, plain, array.children, rfl, rfl⟩)⟩
        · exact ⟨child, mem, (below child mem).mpr (.inr ⟨array, element, is, rfl⟩)⟩
    cases siblings with
    | none =>
      have eq : elementsOf none tree =
          elementsOfAll (if tree.kind = .array then some tree.children else none) tree.children := by
        cases tree
        rw [elementsOf]
        rfl
      rw [eq, inner]
      simp
    | some others =>
      have eq : elementsOf (some others) tree = (if tree.isNamed && !tree.isComment then [⟨others, tree⟩] else []) ++
          elementsOfAll (if tree.kind = .array then some tree.children else none) tree.children := by
        cases tree
        rw [elementsOf]
        rfl
      rw [eq, List.mem_append, inner]
      refine or_congr_left ?_
      split <;> simp_all

theorem mem_entryEdits_iff {edit : Text.Edit} : edit ∈ entryEdits source target root ↔
    ∃ array element, IsElement root array element ∧ target.accepts source element = true ∧
      edit = entryRemoval source array element := by
  unfold entryEdits elements
  rw [List.mem_map]
  constructor
  · rintro ⟨found, mem, rfl⟩
    obtain ⟨mem, accepted⟩ := List.mem_filter.mp mem
    rcases mem_elementsOf_iff.mp mem with ⟨-, -, others, none_, -⟩ | ⟨array, element, is, rfl⟩
    · cases none_
    · exact ⟨array, element, is, accepted, rfl⟩
  · rintro ⟨array, element, is, accepted, rfl⟩
    exact ⟨⟨array.children, element⟩,
      List.mem_filter.mpr ⟨mem_elementsOf_iff.mpr (.inr ⟨array, element, is, rfl⟩), accepted⟩, rfl⟩

/-- Tokens and comments have no array in them. -/
theorem array_notMem (describes : root.Describes text) {tree : Tree} (inside : tree ∈ root.preorder)
    (simple : tree.kind.isComposite = false) (isArray : array.kind = .array) : array ∉ tree.preorder := by
  intro mem
  have childless := (describes.shaped tree inside).children_eq_nil simple
  rcases Tree.mem_preorder_iff.mp mem with rfl | ⟨child, member, -⟩
  · rw [isArray] at simple
    cases simple
  · rw [childless] at member
    cases member

/-- A child of a list that has an array in it is the element, or lies apart from the element and its comma. -/
theorem eq_or_apart_of_array (describes : root.Describes text) {parent child : Tree} (inside : parent ∈ root.preorder)
    (member : element ∈ parent.children) (notComment : element.isComment = false) (mem : child ∈ parent.children)
    (isArray : array.kind = .array) (nested : array ∈ child.preorder) :
    child = element ∨ child.ApartFrom (element.stretch parent.children) := by
  have placed := (describes.placed.inner inside).1.children
  have childInside := Tree.mem_preorder_of_mem_children inside mem
  rcases placed.apart_stretch member notComment mem with same | comment | comma | apart
  · exact .inl same
  · have kind : child.kind = .comment := of_decide_eq_true comment
    exact absurd nested (array_notMem describes childInside (by rw [kind]; rfl) isArray)
  · have kind : child.kind = .token "," := of_decide_eq_true (placed.isComma_of_listComma? member notComment comma)
    exact absurd nested (array_notMem describes childInside (by rw [kind]; rfl) isArray)
  · exact .inr apart

namespace IsElement

variable (describes : root.Describes text) (is : IsElement root array element)
include describes is

theorem placed : Tree.PlacedIn array.start array.stop array.children := (describes.placed.inner is.inside).1.children

omit describes in
theorem mem_children : element ∈ array.children := (mem_parts_iff.mp is.member).1

omit describes in
theorem named : element.isNamed = true := (mem_parts_iff.mp is.member).2.1

omit describes in
theorem notComment : element.isComment = false := (mem_parts_iff.mp is.member).2.2

theorem bracketed : Bracketed text array.children :=
  describes.bracketed array is.inside is.isArray (List.ne_nil_of_mem is.mem_children)

theorem beside : Beside text array.children element :=
  (is.bracketed describes).beside (is.placed describes) is.mem_children is.named is.notComment

theorem widened : LineWidened (encodeChars text) (element.stretch array.children).1 (element.stretch array.children).2
    (entryRemoval (encodeChars text) array element).start (entryRemoval (encodeChars text) array element).stop :=
  lineWidened_elementRange (is.placed describes) is.mem_children is.notComment
    (Nat.le_trans (describes.placed.inner is.inside).2.2 describes.stop_le)

theorem dark : Dark (encodeChars text) element.start :=
  (is.bracketed describes).dark is.mem_children is.notComment

/-- The stretch of an element does not begin with white space. -/
theorem dark_stretch : Dark (encodeChars text) (element.stretch array.children).1 := by
  cases is.beside describes with
  | behind _ _ _ stretch | alone _ _ _ _ stretch =>
    rw [stretch]
    exact is.dark describes
  | last isComma _ _ _ stretch =>
    rw [stretch]
    exact isComma.dark

theorem bounds : array.start ≤ (element.stretch array.children).1 ∧
    (element.stretch array.children).1 ≤ element.start ∧ element.start < element.stop ∧
      element.stop ≤ (element.stretch array.children).2 ∧ (element.stretch array.children).2 ≤ array.stop := by
  have stretch := (is.placed describes).stretch_bounds is.mem_children is.notComment
  have own := (is.placed describes).bounds is.mem_children
  omega

/-- The brackets around an element stand outside of its stretch. -/
theorem brackets : ∃ opening closing : Tree, opening.IsMark text "[" ∧ closing.IsMark text "]" ∧
    (array.start ≤ opening.start ∧ opening.start < (element.stretch array.children).1) ∧
      (element.stretch array.children).2 ≤ closing.start ∧ closing.start < array.stop := by
  obtain ⟨opening, opens, closing, closes, isOpening, isClosing, front, back⟩ :=
    (is.bracketed describes).outside (is.placed describes) is.mem_children is.named is.notComment
  have first := (is.placed describes).bounds opens
  have last := (is.placed describes).bounds closes
  exact ⟨opening, closing, isOpening, isClosing, by omega, by omega⟩

end IsElement

/-- An array ends with two elements and no comma behind them, so that the last one takes the comma of the one
before it. -/
def ShareComma (array first second : Tree) : Prop :=
  ∃ front comma closing, sifted array.children = front ++ [first, comma, second, closing] ∧ comma.isComma = true ∧
    closing.kind = .token "]"

namespace IsElement

variable {other otherArray : Tree}

/-- An element with another one behind it has a comma directly behind it. -/
theorem comma_behind (describes : root.Describes text) (is : IsElement root array element)
    (later : IsElement root array other) (before : element.stop ≤ other.start) :
    ∃ comma front rest, comma.IsMark text "," ∧ sifted array.children = front ++ element :: comma :: rest ∧
      element.stretch array.children = (element.start, comma.stop) := by
  have placed := is.placed describes
  have own := is.bounds describes
  have behind := later.bounds describes
  have laterMem : other ∈ sifted array.children := mem_sifted_iff.mpr ⟨later.mem_children, later.notComment⟩
  have notLast {front : List Tree} {closing : Tree} (isClosing : closing.IsMark text "]")
      (order : sifted array.children = front ++ element :: [closing]) : False := by
    rcases placed.side order laterMem with first | rfl | last
    · omega
    · omega
    · have named := later.named
      rw [List.mem_singleton.mp last, isClosing.isNamed_eq_false] at named
      cases named
  cases is.beside describes with
  | behind isComma order _ stretch => exact ⟨_, _, _, isComma, order, stretch⟩
  | last _ isClosing order => exact (notLast isClosing (by rw [order]; exact (List.append_cons _ _ _).trans rfl)).elim
  | alone _ isClosing order => exact (notLast isClosing (by rw [order]; exact (List.singleton_append).symm)).elim

/-- Where one element of an array stands in front of another, they share a comma, or their ranges do not touch. -/
theorem share_or_before (describes : root.Describes text) (is : IsElement root array element)
    (later : IsElement root array other) (before : element.stop ≤ other.start) :
    ShareComma array element other ∨
      (entryRemoval (encodeChars text) array element).stop ≤ (entryRemoval (encodeChars text) array other).start := by
  have placed := is.placed describes
  have behind := later.bounds describes
  have laterMem : other ∈ sifted array.children := mem_sifted_iff.mpr ⟨later.mem_children, later.notComment⟩
  obtain ⟨comma, front, rest, isComma, order, stretch⟩ := is.comma_behind describes later before
  have width : comma.stop = comma.start + 1 := isComma.stop_eq
  have adjacent := placed.adjacent order
  have apart (le : comma.stop ≤ (other.stretch array.children).1) :
      (entryRemoval (encodeChars text) array element).stop ≤ (entryRemoval (encodeChars text) array other).start := by
    refine (is.widened describes).apart (later.widened describes) (later.dark_stretch describes) isComma.dark ?_ ?_
    · rw [stretch]
      dsimp only
      omega
    · omega
  have behindComma : comma.stop ≤ other.start := by
    rcases placed.side_pair order laterMem with first | rfl | rfl | last
    · omega
    · omega
    · have named := later.named
      rw [isComma.isNamed_eq_false] at named
      cases named
    · exact last
  cases later.beside describes with
  | behind _ _ _ stretch | alone _ _ _ _ stretch => exact .inr (apart (by rw [stretch]; exact behindComma))
  | @last secondComma closing front' isSecond isClosing order' _ stretch' =>
    by_cases same : secondComma = comma
    · subst same
      have split : sifted array.children = (front ++ [element]) ++ secondComma :: rest := by rw [order]; simp
      obtain ⟨rfl, -⟩ := placed.split_unique split order'
      refine .inl ⟨front, secondComma, closing, ?_, by simp [isSecond.isComma_eq], isClosing.kind_eq⟩
      rw [order', List.append_assoc]
      rfl
    · right
      apply apart
      rw [stretch']
      have adjacent' := placed.adjacent order'
      rcases placed.side_pair order (by simp [order'] : secondComma ∈ _) with first | rfl | rfl | last
      · rcases placed.side_pair order' (by simp [order] : element ∈ _) with _ | rfl | rfl | _
        · omega
        · omega
        · omega
        · omega
      · have named := is.named
        rw [isSecond.isNamed_eq_false] at named
        cases named
      · exact absurd rfl same
      · exact last

/-- The ranges of two elements with something between them that is no white space do not touch. -/
theorem before_of_dark (describes : root.Describes text) (is : IsElement root array element)
    (later : IsElement root otherArray other) (dark : Dark (encodeChars text) position)
    (after : (element.stretch array.children).2 ≤ position) (before : position < (other.stretch otherArray.children).1) :
    (entryRemoval (encodeChars text) array element).stop ≤ (entryRemoval (encodeChars text) otherArray other).start :=
  (is.widened describes).apart (later.widened describes) (later.dark_stretch describes) dark (by omega) before

/-- An array inside another one stands in a given element of that, or the ranges of their elements do not touch. -/
private theorem inner_or_apart (describes : root.Describes text) (is : IsElement root array element)
    (inner : IsElement root otherArray other) (nested : otherArray ∈ array.preorder) :
    otherArray = array ∨ otherArray ∈ element.preorder ∨
      (entryRemoval (encodeChars text) array element).stop ≤ (entryRemoval (encodeChars text) otherArray other).start ∨
        (entryRemoval (encodeChars text) otherArray other).stop ≤ (entryRemoval (encodeChars text) array element).start := by
  rcases Tree.mem_preorder_iff.mp nested with rfl | ⟨child, member, mem⟩
  · exact .inl rfl
  have placed := is.placed describes
  have within := (placed.placed member).inner mem
  obtain ⟨opening, closing, isOpening, isClosing, front, back⟩ := inner.brackets describes
  rcases eq_or_apart_of_array describes is.inside is.mem_children is.notComment member inner.isArray mem with
    rfl | before | after
  · exact .inr (.inl mem)
  · exact .inr (.inr (.inr (inner.before_of_dark describes is isClosing.dark back.1 (by omega))))
  · exact .inr (.inr (.inl (is.before_of_dark describes inner isOpening.dark (by omega) front.2)))

/-- One of two elements stands in the other, or both stand in one array, or their ranges do not touch. -/
theorem nested_or_apart (describes : root.Describes text) (is : IsElement root array element)
    (also : IsElement root otherArray other) :
    otherArray = array ∨ otherArray ∈ element.preorder ∨ array ∈ other.preorder ∨
      (entryRemoval (encodeChars text) array element).stop ≤ (entryRemoval (encodeChars text) otherArray other).start ∨
        (entryRemoval (encodeChars text) otherArray other).stop ≤ (entryRemoval (encodeChars text) array element).start := by
  rcases describes.placed.nested_or_apart also.inside is.inside with inner | outer | apart | apart
  · rcases is.inner_or_apart describes also inner with same | nested | apart
    · exact .inl same
    · exact .inr (.inl nested)
    · exact .inr (.inr (.inr apart))
  · rcases also.inner_or_apart describes is outer with same | nested | apart
    · exact .inl same.symm
    · exact .inr (.inr (.inl nested))
    · exact .inr (.inr (.inr apart.symm))
  · obtain ⟨opening, closing, isOpening, isClosing, front, back⟩ := also.brackets describes
    have bounds := is.bounds describes
    exact .inr (.inr (.inr (.inr (also.before_of_dark describes is isClosing.dark back.1 (by omega)))))
  · obtain ⟨opening, closing, isOpening, isClosing, front, back⟩ := is.brackets describes
    have bounds := also.bounds describes
    exact .inr (.inr (.inr (.inl (is.before_of_dark describes also isClosing.dark back.1 (by omega)))))

theorem siblings_before (describes : root.Describes text) (is : IsElement root array element)
    (later : IsElement root array other) (before : element.stop ≤ other.start) :
    element.stop ≤ (other.stretch array.children).1 := by
  have placed := is.placed describes
  have bounds := later.bounds describes
  have own := is.bounds describes
  rcases placed.apart_stretch later.mem_children later.notComment is.mem_children with rfl | comment | comma | first | last
  · omega
  · rw [is.notComment] at comment
    cases comment
  · have isComma := placed.isComma_of_listComma? later.mem_children later.notComment comma
    have kind : element.kind = .token "," := of_decide_eq_true isComma
    have named := is.named
    rw [Tree.isNamed, kind] at named
    cases named
  · exact first
  · omega

/-- The range of an element begins inside that of another one only where it stands in that element or shares its
comma. -/
theorem begins_inside (describes : root.Describes text) (is : IsElement root array element)
    (also : IsElement root otherArray other)
    (begins : (entryRemoval (encodeChars text) otherArray other).start ≤ (entryRemoval (encodeChars text) array element).start)
    (inside : (entryRemoval (encodeChars text) array element).start < (entryRemoval (encodeChars text) otherArray other).stop) :
    (otherArray = array ∧ other = element) ∨ array ∈ other.preorder ∨
      otherArray = array ∧ ShareComma array other element := by
  have widened := is.widened describes
  have bounds := is.bounds describes
  have front := widened.start_le
  have back := widened.le_stop
  -- a range that begins in front of the element does not belong to something behind its first byte
  have notBehind (after : element.start < (other.stretch otherArray.children).1) : False := by
    rcases (is.dark describes).not_blank (also.widened describes).front with lt | le
    · omega
    · omega
  rcases is.nested_or_apart describes also with rfl | inner | outer | before | behind
  · rcases (is.placed describes).apart other also.mem_children element is.mem_children with same | first | last
    · exact .inl ⟨rfl, same⟩
    · rcases also.share_or_before describes is first with share | apart
      · exact .inr (.inr ⟨rfl, share⟩)
      · omega
    · have := is.siblings_before describes also last
      exact (notBehind (by omega)).elim
  · have within := (describes.placed.inner (Tree.mem_preorder_of_mem_children is.inside is.mem_children)).1.inner inner
    obtain ⟨_, _, _, _, after, _⟩ := also.brackets describes
    exact (notBehind (by omega)).elim
  · exact .inr (.inl outer)
  · omega
  · omega

end IsElement

/-! ## Which entries are removed -/

theorem fits_of_mem_entryEdits (describes : root.Describes text) {edit : Text.Edit}
    (mem : edit ∈ entryEdits (encodeChars text) target root) :
    edit.Fits (encodeChars text).length ∧ edit.start < edit.stop ∧ edit.replacement = [] := by
  obtain ⟨array, element, is, -, rfl⟩ := mem_entryEdits_iff.mp mem
  have widened := is.widened describes
  have bounds := is.bounds describes
  have front := widened.start_le
  have back := widened.le_stop
  exact ⟨⟨by omega, widened.stop_le⟩, by omega, rfl⟩

/-- An element of an array that is meant is removed: its edit is applied. -/
structure Removed (source : Bytes) (target : EntryTarget) (root array element : Tree) : Prop
    extends IsElement root array element where
  accepted : target.accepts source element = true
  taken : entryRemoval source array element ∈ applied (entryEdits source target root)

/-- An array stands: it does not go with an element around it. -/
structure Standing (source : Bytes) (target : EntryTarget) (root array : Tree) : Prop where
  inside : array ∈ root.preorder
  isArray : array.kind = .array
  notIn : ∀ outer element, Removed source target root outer element → array ∉ element.preorder

theorem exists_removed {edit : Text.Edit} (taken : edit ∈ applied (entryEdits source target root)) :
    ∃ array element, Removed source target root array element ∧ edit = entryRemoval source array element := by
  obtain ⟨array, element, is, accepted, rfl⟩ := mem_entryEdits_iff.mp (mem_of_mem_applied taken)
  exact ⟨array, element, ⟨is, accepted, taken⟩, rfl⟩

/-- In an array that stands an element that is meant is removed, unless it is the last one and shares its comma with
an element that is removed. -/
theorem removed_or_shares (describes : root.Describes text) (standing : Standing (encodeChars text) target root array)
    (member : element ∈ array.parts) (accepted : target.accepts (encodeChars text) element = true) :
    Removed (encodeChars text) target root array element ∨
      ∃ first ∈ array.parts, target.accepts (encodeChars text) first = true ∧ ShareComma array first element := by
  have is : IsElement root array element := ⟨standing.inside, standing.isArray, member⟩
  rcases mem_applied_or_begins_inside (mem_entryEdits_iff.mpr ⟨array, element, is, accepted, rfl⟩) with
    taken | ⟨edit, taken, begins, inside⟩
  · exact .inl ⟨is, accepted, taken⟩
  · obtain ⟨otherArray, other, removed, rfl⟩ := exists_removed taken
    rcases is.begins_inside describes removed.toIsElement begins inside with ⟨rfl, rfl⟩ | nested | ⟨rfl, share⟩
    · exact .inl removed
    · exact absurd nested (standing.notIn _ _ removed)
    · exact .inr ⟨other, removed.member, removed.accepted, share⟩

/-- Two elements that share a comma both have it as theirs. -/
theorem ShareComma.comma (describes : root.Describes text) (inside : array ∈ root.preorder) {first second : Tree}
    (share : ShareComma array first second) :
    ∃ comma : Tree, first.listComma? array.children = some comma ∧ second.listComma? array.children = some comma ∧
      first.stop ≤ comma.start ∧ comma.start < comma.stop ∧ comma.stop ≤ second.start ∧
        second ≠ first ∧ ∀ third, ¬ ShareComma array third first := by
  have placed := (describes.placed.inner inside).1.children
  obtain ⟨front, comma, closing, order, isComma, isClosing⟩ := share
  have closingKind : closing.isComma = false := by rw [Tree.isComma, isClosing]; rfl
  have split : sifted array.children = (front ++ [first]) ++ comma :: second :: [closing] := by rw [order]; simp
  have further : sifted array.children = (front ++ [first, comma]) ++ second :: [closing] := by rw [order]; simp
  have firstAdjacent := placed.adjacent order
  have secondAdjacent := placed.adjacent split
  refine ⟨comma, ?_, ?_, by omega, by omega, by omega, ?_, ?_⟩
  · rw [Tree.listComma?, placed.neighbours_eq order]
    simp [isComma]
  · rw [Tree.listComma?, placed.neighbours_eq further]
    simp [isComma, closingKind]
  · rintro rfl
    omega
  · rintro third ⟨front', comma', closing', order', -, -⟩
    obtain ⟨-, same⟩ := List.append_inj' (order.symm.trans order') rfl
    simp only [List.cons.injEq] at same
    obtain ⟨-, -, rfl, -⟩ := same
    omega

/-- In an array that stands exactly the elements that are meant are removed, but for one that is the last and shares
its comma with another that is meant. -/
theorem removed_iff (describes : root.Describes text) (standing : Standing (encodeChars text) target root array)
    (member : element ∈ array.parts) :
    Removed (encodeChars text) target root array element ↔ target.accepts (encodeChars text) element = true ∧
      ¬ ∃ first ∈ array.parts, target.accepts (encodeChars text) first = true ∧ ShareComma array first element := by
  constructor
  · refine fun removed => ⟨removed.accepted, ?_⟩
    rintro ⟨first, firstMember, accepted, share⟩
    obtain ⟨comma, firstComma, secondComma, front, width, back, differs, last⟩ := share.comma describes standing.inside
    rcases removed_or_shares describes standing firstMember accepted with firstRemoved | ⟨third, -, -, other⟩
    · have firstWidened := firstRemoved.widened describes
      have secondWidened := removed.widened describes
      have firstStretch : first.stretch array.children = (min first.start comma.start, max first.stop comma.stop) := by
        rw [Tree.stretch, firstComma]
      have secondStretch : element.stretch array.children = (min element.start comma.start, max element.stop comma.stop) := by
        rw [Tree.stretch, secondComma]
      have firstBounds := firstRemoved.bounds describes
      have secondBounds := removed.bounds describes
      rw [firstStretch] at firstWidened
      rw [secondStretch] at secondWidened
      dsimp only at firstWidened secondWidened
      have firstStart := firstWidened.start_le
      have firstStop := firstWidened.le_stop
      have secondStart := secondWidened.start_le
      have secondStop := secondWidened.le_stop
      rcases (applied_successive fun edit mem => (fits_of_mem_entryEdits describes mem).1).apart firstRemoved.taken
        removed.taken with same | before | after
      · rcases (firstRemoved.dark describes).not_blank secondWidened.front with lt | le
        · rw [← same] at lt
          omega
        · omega
      · omega
      · omega
    · exact last third other
  · rintro ⟨accepted, alone⟩
    exact (removed_or_shares describes standing member accepted).resolve_right alone

/-- A position goes with an element that is removed: it stands in the element, in its comma or between the two. -/
def Taken (source : Bytes) (target : EntryTarget) (root : Tree) (position : Nat) : Prop :=
  ∃ array element, Removed source target root array element ∧ (element.stretch array.children).1 ≤ position ∧
    position < (element.stretch array.children).2

/-- But for white space the applied edits cover what goes with the elements that are removed. -/
theorem covered_iff_taken (describes : root.Describes text) (dark : Dark (encodeChars text) position) :
    Covered (applied (entryEdits (encodeChars text) target root)) position ↔
      Taken (encodeChars text) target root position := by
  constructor
  · rintro ⟨edit, taken, begins, ends⟩
    obtain ⟨array, element, removed, rfl⟩ := exists_removed taken
    have widened := removed.widened describes
    have front := dark.not_blank widened.front
    have back := dark.not_blank widened.back
    exact ⟨array, element, removed, by omega, by omega⟩
  · rintro ⟨array, element, removed, begins, ends⟩
    have widened := removed.widened describes
    exact ⟨_, removed.taken, Nat.le_trans widened.start_le begins, Nat.lt_of_lt_of_le ends widened.le_stop⟩

/-- What goes with a removed element of what stands in an array is that element, or its comma, or stands inside. -/
theorem Standing.sibling_taken (describes : root.Describes text) (standing : Standing (encodeChars text) target root array)
    {sibling : Tree} (member : sibling ∈ array.children) (notComment : sibling.isComment = false)
    (covers : sibling.Covers position) {otherArray other : Tree}
    (removed : Removed (encodeChars text) target root otherArray other)
    (begins : (other.stretch otherArray.children).1 ≤ position) (ends : position < (other.stretch otherArray.children).2) :
    (otherArray = array ∧ (sibling = other ∨ other.listComma? array.children = some sibling)) ∨
      otherArray ∈ sibling.preorder := by
  have placed := (describes.placed.inner standing.inside).1.children
  have bounds := removed.bounds describes
  have own := placed.bounds member
  obtain ⟨front, back⟩ := covers
  have inOne (same : otherArray = array) :
      (otherArray = array ∧ (sibling = other ∨ other.listComma? array.children = some sibling)) ∨
        otherArray ∈ sibling.preorder := by
    subst same
    rcases placed.apart_stretch removed.mem_children removed.notComment member with same | comment | comma | apart
    · exact .inl ⟨rfl, .inl same⟩
    · rw [notComment] at comment
      cases comment
    · exact .inl ⟨rfl, .inr comma⟩
    · unfold Tree.ApartFrom at apart
      omega
  rcases describes.placed.nested_or_apart removed.inside standing.inside with inner | outer | apart
  · rcases Tree.mem_preorder_iff.mp inner with same | ⟨child, mem, inner⟩
    · exact inOne same
    · have within := (placed.placed mem).inner inner
      rcases placed.apart child mem sibling member with rfl | apart
      · exact .inr inner
      · unfold Tree.Apart at apart
        omega
  · rcases Tree.mem_preorder_iff.mp outer with same | ⟨child, mem, inner⟩
    · exact inOne same.symm
    · have within := ((removed.placed describes).placed mem).inner inner
      rcases eq_or_apart_of_array describes removed.inside removed.mem_children removed.notComment mem standing.isArray
        inner with rfl | apart
      · exact absurd inner (standing.notIn _ _ removed)
      · unfold Tree.ApartFrom at apart
        omega
  · unfold Tree.Apart at apart
    omega

/-! ## The file without the entries -/

/-- Of a run of blank lines white space is dropped. -/
theorem thinned_squeezeLines (bytes : Bytes) : Thinned (fun byte => isBlankByte byte = true) bytes (squeezeLines bytes) := by
  refine Pattern.thinned_replaceAll (fun taken takes => ?_) bytes
  have indents {bytes : Bytes} (each : ∀ byte ∈ bytes, isIndent byte = true) :
      Thinned (fun byte => isBlankByte byte = true) bytes [] :=
    .of_forall fun byte mem => isBlankByte_of_isIndent (each byte mem)
  obtain ⟨_, _, rfl, ⟨first, rfl, firstFeed⟩, _, _, rfl, indent, _, _, rfl, ⟨second, rfl, secondFeed⟩, _, _, rfl, more, _, _,
    rfl, ⟨third, rfl, thirdFeed⟩, parts, rfl, each⟩ := takes
  obtain rfl := of_decide_eq_true firstFeed
  obtain rfl := of_decide_eq_true secondFeed
  obtain rfl := of_decide_eq_true thirdFeed
  refine .keep lineFeed (Thinned.append (indents indent) (.keep lineFeed (Thinned.append (indents more)
    (.drop isBlankByte_lineFeed (.of_forall fun byte mem => ?_)))))
  obtain ⟨part, member, mem⟩ := List.mem_flatten.mp mem
  obtain ⟨_, _, rfl, blanks, last, rfl, lastFeed⟩ := each part member
  rcases List.mem_append.mp mem with mem | mem
  · exact isBlankByte_of_isIndent (blanks byte mem)
  · rw [List.mem_singleton.mp mem, of_decide_eq_true lastFeed]
    exact isBlankByte_lineFeed

/-- The positions that are left when the entries of a file are removed: all but those of white space and of what goes
with the entries. -/
structure Left (source : Bytes) (target : EntryTarget) (root : Tree) (positions : List Nat) : Prop where
  sublist : positions.Sublist (positionsLeft source.length (entryEdits source target root))
  left_iff : ∀ position < source.length, Dark source position →
    (position ∈ positions ↔ ¬ Taken source target root position)
  /-- Where the rest has no two blank lines in a row, white space is left too. -/
  unsqueezed : squeezeLines (bytesAt source (positionsLeft source.length (entryEdits source target root))) =
    bytesAt source (positionsLeft source.length (entryEdits source target root)) →
      positions = positionsLeft source.length (entryEdits source target root)

/-- The bytes of an array that stands, when the entries of a file are removed. -/
structure Rewritten (source : Bytes) (target : EntryTarget) (root array : Tree) (positions : List Nat) : Prop where
  /-- The elements that are meant are removed, but for a last one that shares its comma with another. -/
  removed_iff : ∀ element ∈ array.parts, Removed source target root array element ↔
    target.accepts source element = true ∧
      ¬ ∃ first ∈ array.parts, target.accepts source first = true ∧ ShareComma array first element
  gone : ∀ element, Removed source target root array element → ∀ position, element.Covers position → position ∉ positions
  /-- Of the other elements only the entries of arrays inside them are gone. -/
  stays : ∀ element ∈ array.parts, ¬ Removed source target root array element →
    ∀ position, element.Covers position → Dark source position →
      (position ∈ positions ↔ ¬ ∃ inner ∈ element.preorder, ∃ entry, Removed source target root inner entry ∧
        (entry.stretch inner.children).1 ≤ position ∧ position < (entry.stretch inner.children).2)
  bracket : ∀ mark ∈ array.children, mark.kind = .token "[" ∨ mark.kind = .token "]" → mark.start ∈ positions
  /-- Between two elements that stay, with all between them removed, the first comma stays, and one more for each
  place that was left out. -/
  parted : ∀ front first between second back,
    sifted array.children = front ++ first :: (between ++ second :: back) →
      first.isNamed = true → second.isNamed = true →
      ¬ Removed source target root array first → ¬ Removed source target root array second →
      (∀ element ∈ between, element.isNamed = true → Removed source target root array element) →
      ∃ comma rest, between = comma :: rest ∧ comma.isComma = true ∧ comma.start ∈ positions ∧
        ∀ earlier sibling mark later, between = earlier ++ sibling :: mark :: later → mark.isComma = true →
          (mark.start ∈ positions ↔ sibling.isComma = true)

/-- The file without the entries consists of positions of the source. -/
theorem exists_left (describes : root.Describes text) (target : EntryTarget) :
    ∃ positions, removeEntries (encodeChars text) target root = bytesAt (encodeChars text) positions ∧
      Left (encodeChars text) target root positions := by
  have left_iff (position : Nat) (lt : position < (encodeChars text).length) (dark : Dark (encodeChars text) position) :
      position ∈ positionsLeft (encodeChars text).length (entryEdits (encodeChars text) target root) ↔
        ¬ Taken (encodeChars text) target root position := by
    rw [mem_positionsLeft_iff, covered_iff_taken describes dark]
    exact and_iff_right lt
  have fits (edit : Text.Edit) (mem : edit ∈ entryEdits (encodeChars text) target root) := fits_of_mem_entryEdits describes mem
  unfold removeEntries
  dsimp only
  split
  · next empty =>
    have none_ := List.isEmpty_iff.mp empty
    refine ⟨positionsLeft (encodeChars text).length (entryEdits (encodeChars text) target root), ?_, .refl _, left_iff,
      fun _ => rfl⟩
    rw [← applyEdits_eq_bytesAt (fun edit mem => (fits edit mem).1) fun edit mem => (fits edit mem).2.2, none_,
      applyEdits, List.mergeSort_nil]
    rfl
  · rw [applyEdits_eq_bytesAt (fun edit mem => (fits edit mem).1) fun edit mem => (fits edit mem).2.2]
    obtain ⟨positions, thinned, eq⟩ := (thinned_squeezeLines (bytesAt (encodeChars text)
      (positionsLeft (encodeChars text).length (entryEdits (encodeChars text) target root)))).exists_of_map
    refine ⟨positions, eq, thinned.sublist, fun position lt dark => ?_, fun same => ?_⟩
    · rw [← left_iff position lt dark]
      refine ⟨fun mem => thinned.sublist.subset mem, fun mem => thinned.mem mem ?_⟩
      obtain ⟨byte, at_, plain⟩ := dark
      rw [at_, Option.getD_some, plain]
      exact Bool.false_ne_true
    · refine thinned.sublist.eq_of_length ?_
      have lengths := congrArg List.length (eq.symm.trans same)
      simpa [bytesAt] using lengths

namespace Standing

variable {positions : List Nat} (describes : root.Describes text) (left : Left (encodeChars text) target root positions)
include describes left

omit left in
theorem lt_length {tree : Tree} (inside : tree ∈ root.preorder) (lt : position < tree.stop) :
    position < (encodeChars text).length :=
  Nat.lt_of_lt_of_le lt (Nat.le_trans (describes.placed.inner inside).2.2 describes.stop_le)

/-- A mark of an array that stands is gone exactly when it is a comma that goes with an element that is removed. -/
theorem mark_left_iff (standing : Standing (encodeChars text) target root array) {mark : Tree} {sign : String}
    (member : mark ∈ array.children) (isMark : mark.kind = .token sign) :
    mark.start ∈ positions ↔
      ¬ ∃ element, Removed (encodeChars text) target root array element ∧ element.listComma? array.children = some mark := by
  have placed := (describes.placed.inner standing.inside).1.children
  have bounds := placed.bounds member
  have markInside := Tree.mem_preorder_of_mem_children standing.inside member
  have notComment : mark.isComment = false := by rw [Tree.isComment, isMark]; rfl
  have dark : Dark (encodeChars text) mark.start :=
    (describes.bracketed array standing.inside standing.isArray (List.ne_nil_of_mem member)).dark member notComment
  have within := (describes.placed.inner markInside).2.2
  have inside := describes.stop_le
  rw [left.left_iff mark.start (by omega) dark, not_iff_not]
  constructor
  · rintro ⟨otherArray, other, removed, begins, ends⟩
    rcases standing.sibling_taken describes member notComment ⟨Nat.le_refl _, bounds.2.1⟩ removed begins ends with
      ⟨rfl, rfl | comma⟩ | nested
    · have named := removed.named
      rw [Tree.isNamed, isMark] at named
      cases named
    · exact ⟨other, removed, comma⟩
    · exact absurd nested (array_notMem describes markInside (by rw [isMark]; rfl) removed.isArray)
  · rintro ⟨element, removed, comma⟩
    refine ⟨array, element, removed, ?_⟩
    rw [Tree.stretch, comma]
    exact ⟨Nat.min_le_right _ _, Nat.lt_of_lt_of_le bounds.2.1 (Nat.le_max_right _ _)⟩

/-- A comma in front of an element that stays is gone exactly when an element that is removed stands directly in
front of it. -/
theorem comma_left_iff (standing : Standing (encodeChars text) target root array) {front later : List Tree}
    {sibling comma second : Tree} (order : sifted array.children = front ++ sibling :: comma :: later)
    (isComma : comma.isComma = true) (behind : second ∈ later) (named : second.isNamed = true)
    (stays : ¬ Removed (encodeChars text) target root array second) :
    comma.start ∈ positions ↔ ¬ Removed (encodeChars text) target root array sibling := by
  have placed := (describes.placed.inner standing.inside).1.children
  have adjacent := placed.adjacent order
  have commaMem : comma ∈ sifted array.children := by simp [order]
  have secondMem : second ∈ sifted array.children := by simp [order, behind]
  rw [standing.mark_left_iff describes left (mem_sifted_iff.mp commaMem).1 (of_decide_eq_true isComma), not_iff_not]
  constructor
  · rintro ⟨element, removed, listComma⟩
    cases removed.beside describes with
    | behind _ order' listComma' =>
      cases listComma.symm.trans listComma'
      have split : sifted array.children = (front ++ [sibling]) ++ comma :: later := by rw [order]; simp
      obtain ⟨same, -⟩ := placed.split_unique split (order'.trans (List.append_cons _ _ _))
      obtain ⟨-, last⟩ := List.append_inj' same rfl
      cases last
      exact removed
    | last _ isClosing order' listComma' =>
      cases listComma.symm.trans listComma'
      obtain ⟨-, rfl⟩ := placed.split_unique (order.trans (List.append_cons _ _ _)) order'
      rcases List.mem_cons.mp behind with rfl | mem
      · exact absurd removed stays
      · rw [List.mem_singleton.mp mem, isClosing.isNamed_eq_false] at named
        cases named
    | alone _ _ _ listComma' => cases listComma.symm.trans listComma'
  · intro removed
    refine ⟨sibling, removed, ?_⟩
    rw [Tree.listComma?, placed.neighbours_eq order]
    simp [isComma]

/-- Nothing of an element that is removed is left. -/
theorem not_left_of_removed (removed : Removed (encodeChars text) target root array element) (covers : element.Covers position) :
    position ∉ positions := by
  intro mem
  have widened := removed.widened describes
  have bounds := removed.bounds describes
  have front := widened.start_le
  have back := widened.le_stop
  obtain ⟨begins, ends⟩ := covers
  exact (mem_positionsLeft_iff.mp (left.sublist.subset mem)).2 ⟨_, removed.taken, by omega, by omega⟩

/-- Of an element that stays the entries of arrays inside it are gone, and nothing else. -/
theorem left_iff_of_stays (standing : Standing (encodeChars text) target root array) (is : IsElement root array element)
    (stays : ¬ Removed (encodeChars text) target root array element) (covers : element.Covers position)
    (dark : Dark (encodeChars text) position) :
    position ∈ positions ↔ ¬ ∃ inner ∈ element.preorder, ∃ entry, Removed (encodeChars text) target root inner entry ∧
      (entry.stretch inner.children).1 ≤ position ∧ position < (entry.stretch inner.children).2 := by
  have placed := (describes.placed.inner standing.inside).1.children
  have inside := Tree.mem_preorder_of_mem_children standing.inside is.mem_children
  rw [left.left_iff position (lt_length describes inside covers.2) dark, not_iff_not]
  constructor
  · rintro ⟨otherArray, other, removed, begins, ends⟩
    rcases standing.sibling_taken describes is.mem_children is.notComment covers removed begins ends with
      ⟨rfl, rfl | comma⟩ | nested
    · exact absurd removed stays
    · have isComma := placed.isComma_of_listComma? removed.mem_children removed.notComment comma
      have kind : element.kind = .token "," := of_decide_eq_true isComma
      have named := is.named
      rw [Tree.isNamed, kind] at named
      cases named
    · exact ⟨otherArray, nested, other, removed, begins, ends⟩
  · rintro ⟨inner, -, entry, removed, range⟩
    exact ⟨inner, entry, removed, range⟩

theorem bracket_left (standing : Standing (encodeChars text) target root array) {mark : Tree} (member : mark ∈ array.children)
    (isBracket : mark.kind = .token "[" ∨ mark.kind = .token "]") : mark.start ∈ positions := by
  have placed := (describes.placed.inner standing.inside).1.children
  have notComma : mark.isComma = false := by
    rcases isBracket with kind | kind <;> (rw [Tree.isComma, kind]; rfl)
  have left_ {sign : String} (kind : mark.kind = .token sign) : mark.start ∈ positions := by
    rw [standing.mark_left_iff describes left member kind]
    rintro ⟨element, removed, comma⟩
    rw [placed.isComma_of_listComma? removed.mem_children removed.notComment comma] at notComma
    cases notComma
  rcases isBracket with kind | kind <;> exact left_ kind

/-- Of the commas between two elements that stay, those in front of a place that was left out stay, and the first one. -/
theorem commas_left (standing : Standing (encodeChars text) target root array) {front between back : List Tree}
    {first second : Tree} (order : sifted array.children = front ++ first :: (between ++ second :: back))
    (firstNamed : first.isNamed = true) (secondNamed : second.isNamed = true)
    (firstStays : ¬ Removed (encodeChars text) target root array first)
    (secondStays : ¬ Removed (encodeChars text) target root array second)
    (gone : ∀ element ∈ between, element.isNamed = true → Removed (encodeChars text) target root array element) :
    ∃ comma rest, between = comma :: rest ∧ comma.isComma = true ∧ comma.start ∈ positions ∧
      ∀ earlier sibling mark later, between = earlier ++ sibling :: mark :: later → mark.isComma = true →
        (mark.start ∈ positions ↔ sibling.isComma = true) := by
  have placed := (describes.placed.inner standing.inside).1.children
  have part {element : Tree} (mem : element ∈ sifted array.children) (named : element.isNamed = true) :
      IsElement root array element :=
    ⟨standing.inside, standing.isArray, mem_parts_iff.mpr ⟨(mem_sifted_iff.mp mem).1, named, (mem_sifted_iff.mp mem).2⟩⟩
  have firstIs := part (by simp [order]) firstNamed
  have secondIs := part (by simp [order]) secondNamed
  obtain ⟨comma, _, rest, isMark, order', -⟩ :=
    firstIs.comma_behind describes secondIs (placed.stop_le_start order (by simp))
  have isComma : comma.isComma = true := by simp [isMark.isComma_eq]
  obtain ⟨-, next⟩ := placed.split_unique order order'
  cases between with
  | nil =>
    cases next
    rw [isMark.isNamed_eq_false] at secondNamed
    cases secondNamed
  | cons head rest =>
    cases next
    refine ⟨comma, rest, rfl, isComma, ?_, ?_⟩
    · rw [standing.comma_left_iff describes left order' isComma (by simp) secondNamed secondStays]
      exact firstStays
    · intro earlier sibling mark later split markComma
      have place : sifted array.children =
          (front ++ first :: earlier) ++ sibling :: mark :: (later ++ second :: back) := by
        rw [order, split]
        simp
      rw [standing.comma_left_iff describes left place markComma (by simp) secondNamed secondStays]
      constructor
      · intro stays
        refine ((firstIs.bracketed describes).isComma_or_isNamed placed place (by simp) (by simp)).resolve_right ?_
        exact fun named => stays (gone sibling (by simp [split]) named)
      · intro siblingComma removed
        have named := removed.named
        rw [Tree.isNamed, of_decide_eq_true siblingComma] at named
        cases named

/-- An array that stands is rewritten as it should be. -/
theorem rewritten (standing : Standing (encodeChars text) target root array) :
    Rewritten (encodeChars text) target root array positions where
  removed_iff _ member := removed_iff describes standing member
  gone _ removed _ covers := not_left_of_removed describes left removed covers
  stays _ member stays _ covers dark :=
    left_iff_of_stays describes left standing ⟨standing.inside, standing.isArray, member⟩ stays covers dark
  bracket _ member isBracket := bracket_left describes left standing member isBracket
  parted _ _ _ _ _ order firstNamed secondNamed firstStays secondStays gone :=
    commas_left describes left standing order firstNamed secondNamed firstStays secondStays gone

end Standing

/-- When the entries that are meant are removed from a file, all other bytes but white space are left in their order.
Of an array that stands the entries are gone with one comma each and all other elements stay, parted as before; a last
entry stays where it shares its comma with the entry before it. -/
theorem entries_are_removed {dialect : Dialect} (parsed : dialect.parse (encodeChars text) = .ok root)
    (target : EntryTarget) :
    ∃ positions, removeEntries (encodeChars text) target root = bytesAt (encodeChars text) positions ∧
      Left (encodeChars text) target root positions ∧
      ∀ array, Standing (encodeChars text) target root array → Rewritten (encodeChars text) target root array positions := by
  have describes := Dialect.describes_of_parse parsed
  obtain ⟨positions, eq, left⟩ := exists_left describes target
  exact ⟨positions, eq, left, fun array standing => standing.rewritten describes left⟩

/-! ## Two files -/

/-- A call without arguments of a name of one letter at an offset. -/
def entryTree (start : Nat) : Tree :=
  .node .callExpression none start (start + 3)
    [.node .identifier (some .function) start (start + 1) [],
      .node .arguments (some .arguments) (start + 1) (start + 3)
        [.node (.token "(") none (start + 1) (start + 2) [], .node (.token ")") none (start + 2) (start + 3) []]]

/-- The array of given trees from the beginning of a file up to an offset. -/
def listTree (inner : List Tree) (stop : Nat) : Tree :=
  .node .array none 0 stop
    (.node (.token "[") none 0 1 [] :: (inner ++ [.node (.token "]") none (stop - 1) stop []]))

/-- The file of an array on one line. -/
def listFile (inner : List Tree) (stop : Nat) : Tree :=
  .node .program none 0 (stop + 1) [.node .expressionStatement none 0 stop [listTree inner stop]]

def commaTree (start : Nat) : Tree := .node (.token ",") none start (start + 1) []

def namedText : List Char := "[a(), b, a()]\n".toList

def namedInner : List Tree :=
  [entryTree 1, commaTree 4, .node .identifier none 6 7 [], commaTree 7, entryTree 9]

set_option maxRecDepth 8000 in
/-- Of three elements the first and the last are removed. -/
theorem entries_are_removed_around_name :
    Dialect.plain.parse (encodeChars namedText) = .ok (listFile namedInner 13) ∧
      Standing (encodeChars namedText) (.plugin "a") (listFile namedInner 13) (listTree namedInner 13) ∧
      ∃ positions, removeEntries (encodeChars namedText) (.plugin "a") (listFile namedInner 13) =
          bytesAt (encodeChars namedText) positions ∧
        Left (encodeChars namedText) (.plugin "a") (listFile namedInner 13) positions ∧
        ∀ array, Standing (encodeChars namedText) (.plugin "a") (listFile namedInner 13) array →
          Rewritten (encodeChars namedText) (.plugin "a") (listFile namedInner 13) array positions := by
  have parsed : Dialect.plain.parse (encodeChars namedText) = .ok (listFile namedInner 13) := by decide +kernel
  refine ⟨parsed, ⟨by decide +kernel, rfl, ?_⟩, entries_are_removed parsed (.plugin "a")⟩
  have apart : ∀ outer ∈ (listFile namedInner 13).preorder, ∀ element ∈ outer.parts,
      outer.kind = .array → listTree namedInner 13 ∉ element.preorder := by
    decide +kernel
  exact fun outer element removed => apart outer removed.inside element removed.member removed.isArray

def twinText : List Char := "[a(), a()]\n".toList

def twinInner : List Tree := [entryTree 1, commaTree 4, entryTree 6]

private theorem sorted_twinEdits :
    (entryEdits (encodeChars twinText) (.plugin "a") (listFile twinInner 10)).mergeSort Edit.before =
      [.removal 1 6, .removal 4 9] := by
  have edits : entryEdits (encodeChars twinText) (.plugin "a") (listFile twinInner 10) =
      [.removal 1 6, .removal 4 9] := by decide +kernel
  rw [edits]
  simp [List.mergeSort, List.MergeSort.Internal.splitInTwo, Edit.before, Edit.removal]

set_option maxRecDepth 8000 in
/-- Of two entries in one array the last one is left. -/
theorem last_entry_is_left :
    Dialect.plain.parse (encodeChars twinText) = .ok (listFile twinInner 10) ∧
      removeEntries (encodeChars twinText) (.plugin "a") (listFile twinInner 10) = encode "[a()]\n" ∧
      Dialect.plain.parse (encode "[a()]\n") = .ok (listFile [entryTree 1] 5) ∧
      listTree [entryTree 1] 5 ∈ (listFile [entryTree 1] 5).preorder ∧ entryTree 1 ∈ (listTree [entryTree 1] 5).parts ∧
      (EntryTarget.plugin "a").accepts (encode "[a()]\n") (entryTree 1) = true := by
  refine ⟨by decide +kernel, ?_, by decide +kernel, by decide +kernel, by decide +kernel, by decide +kernel⟩
  have some_ : (entryEdits (encodeChars twinText) (.plugin "a") (listFile twinInner 10)).isEmpty = false := by
    decide +kernel
  rw [removeEntries, some_, if_neg Bool.false_ne_true, applyEdits, sorted_twinEdits]
  decide +kernel

end Scaffold.Edit
