import Mathlib.Data.List.Forall2
import Scaffold.Proofs.Erasure.Passages

/-! # What the texts written anew carry over

An enumeration is written with the values of its members, and an import clause with the bindings that it keeps, each as it
stands in the source and in the order of the source. So the comments and literals in them stand in the output, as those do
that no edit is about.
-/

namespace Scaffold.Erasure

open Scaffold.Text Scaffold.Syntax

variable {dialect : Dialect} {text : List Char} {source : Bytes} {root item tree : Tree} {edit : Edit}
variable {trees : List Tree} {groups : List (List Stretch)} {strings : List String}

/-- The stretch of a tree. -/
def stretchOf (tree : Tree) : Stretch := (tree.start, tree.stop)

/-- A string holds some stretches of a text. -/
def Writes (text : List Char) (stretches : List Stretch) (string : String) : Prop :=
  Holds (encodeChars text) stretches (encode string)

/-! ## Texts that hold trees -/

theorem encode_append (front back : String) : encode (front ++ back) = encode front ++ encode back := by
  rw [encode, String.toList_append, encodeChars_append]
  rfl

/-- The text of a tree between characters is the stretch of its bytes. -/
theorem encode_text (edged : tree.Edged text) (ordered : tree.start ≤ tree.stop) :
    encode (tree.text (encodeChars text)) = (stretchOf tree).bytes (encodeChars text) := by
  obtain ⟨before, taken, behind, split, start, stop_eq⟩ := edged.start.exists_parts edged.stop ordered
  have middle := @slice_middle (encodeChars before) (encodeChars taken) (encodeChars behind) 0 (encodeChars taken).length
    (Nat.le_refl _) (Nat.zero_le _)
  have all : slice (encodeChars taken) 0 (encodeChars taken).length = encodeChars taken := by
    rw [slice, List.drop_zero, Nat.sub_zero, List.take_length]
  rw [all, length_encodeChars, length_encodeChars, Nat.add_zero, ← encodeChars_append, ← encodeChars_append] at middle
  rw [Tree.text, start, stop_eq, split, sliceText_middle, encode, String.toList_ofList, Stretch.bytes, stretchOf, start, stop_eq]
  exact middle.symm

/-- The text of a tree holds the tree, whatever is written around it. -/
theorem holds_around (edged : tree.Edged text) (ordered : tree.start ≤ tree.stop) (front back : String) :
    Writes text [stretchOf tree] (front ++ tree.text (encodeChars text) ++ back) := by
  rw [Writes, encode_append, encode_append, encode_text edged ordered]
  exact ((Holds.single _ _).behind _).inFront _

/-- Texts that are joined hold what each of them holds. -/
theorem holds_intercalate (joint : String)
    (each : List.Forall₂ (Writes text) groups strings) : Writes text groups.flatten (joint.intercalate strings) := by
  rw [Writes, encode, String.toList_intercalate]
  induction each with
  | nil => exact .nil _
  | @cons stretches string groups strings own later holds =>
    rw [List.flatten_cons]
    cases later with
    | nil =>
      rw [List.map_singleton, List.intercalate_singleton]
      simpa [Writes, encode] using own
    | cons next others =>
      rw [List.map_cons, List.map_cons, List.intercalate_cons_cons, encodeChars_append, encodeChars_append, ← List.map_cons]
      exact .append (own.inFront _) holds

/-! ## Enumerations -/

/-- The values of the members of an enumeration. -/
def initialValues (tree : Tree) : List Tree := (enumerationMembers tree).filterMap fun member => (memberParts member).2

theorem mem_preorder_of_memberParts {member value : Tree} (found : (memberParts member).2 = some value) :
    value ∈ member.preorder := by
  unfold memberParts at found
  split at found
  · cases found
    cases has : member.child? .value with
    | none => exact member.mem_preorder_self
    | some value => exact Binding.mem_preorder_of_child? has
  · cases found

theorem mem_preorder_of_mem_enumerationMembers {member : Tree} (mem : member ∈ enumerationMembers tree) :
    ∃ body ∈ tree.children, member ∈ body.parts := by
  unfold enumerationMembers at mem
  cases found : tree.child? .body with
  | none =>
    rw [found] at mem
    cases mem
  | some body =>
    rw [found] at mem
    exact ⟨body, List.mem_of_find?_eq_some found, mem⟩

/-- The line of a member holds its value. -/
theorem holds_memberLine (edged : ∀ value, (memberParts tree).2 = some value → value.Edged text ∧ value.start ≤ value.stop)
    (name front : String) (state : MemberState) :
    Writes text ((memberParts tree).2.map stretchOf).toList
      (front ++ (memberLine (encodeChars text) name state tree).1) := by
  unfold memberLine
  generalize memberParts tree = parts at edged ⊢
  obtain ⟨key, value?⟩ := parts
  cases value? with
  | none => exact .nil _
  | some value =>
    obtain ⟨own, ordered⟩ := edged value rfl
    rw [Option.map_some, Option.toList_some]
    dsimp only
    split
    · have holds := holds_around own ordered
        (front ++ (name ++ "[" ++ quotedName (memberKey (encodeChars text) key) ++ "] = ")) ";"
      simpa only [String.append_assoc] using holds
    · have holds := holds_around own ordered
        (front ++ (name ++ "[" ++ name ++ "[" ++ quotedName (memberKey (encodeChars text) key) ++ "] = "))
        ("] = " ++ quotedName (memberKey (encodeChars text) key) ++ ";")
      simpa only [String.append_assoc] using holds

theorem holds_memberLines (members : List Tree) (edged : ∀ member ∈ members, ∀ value, (memberParts member).2 = some value →
      value.Edged text ∧ value.start ≤ value.stop) (name front : String) (state : MemberState) :
    List.Forall₂ (Writes text) (members.map fun member => ((memberParts member).2.map stretchOf).toList)
      ((memberLines (encodeChars text) name state members).map (front ++ ·)) := by
  induction members generalizing state with
  | nil => exact .nil
  | cons member later holds =>
    refine .cons (holds_memberLine (edged member List.mem_cons_self) name front state) ?_
    exact holds (fun member mem => edged member (List.mem_cons_of_mem _ mem)) _

theorem flatten_initialValues (members : List Tree) :
    (members.map fun member => ((memberParts member).2.map stretchOf).toList).flatten =
      (members.filterMap fun member => (memberParts member).2).map stretchOf := by
  induction members with
  | nil => rfl
  | cons member later eq =>
    rw [List.map_cons, List.flatten_cons, eq]
    cases found : (memberParts member).2 <;> simp [found]

/-- What an enumeration becomes holds the values of its members. -/
theorem holds_enumerationText (parsed : dialect.parse (encodeChars text) = .ok root) (inside : tree ∈ root.preorder) :
    Writes text ((initialValues tree).map stretchOf) (enumerationText (encodeChars text) tree) := by
  have edged (member : Tree) (mem : member ∈ enumerationMembers tree) (value : Tree) (found : (memberParts member).2 = some value) :
      value.Edged text ∧ value.start ≤ value.stop := by
    obtain ⟨body, bodyMem, part⟩ := mem_preorder_of_mem_enumerationMembers mem
    have memberInside := Tree.mem_preorder_of_mem_children (Tree.mem_preorder_of_mem_children inside bodyMem)
      (List.mem_filter.mp part).1
    have valueInside := Tree.mem_preorder_trans memberInside (mem_preorder_of_memberParts found)
    exact ⟨edged_of_parse parsed valueInside,
      ((Dialect.describes_of_parse parsed).placed.inner valueInside).1.start_le_stop⟩
  have blank (string : String) : Writes text [] string := .nil _
  have lines (name inner : String) (state : MemberState) :=
    holds_memberLines (enumerationMembers tree) edged name inner state
  have all (name inner first second last : String) (state : MemberState) :=
    List.rel_append (List.rel_append (.cons (blank first) (.cons (blank second) .nil)) (lines name inner state))
      (.cons (blank last) .nil)
  have stretches : (initialValues tree).map stretchOf =
      ([[], []] ++ (enumerationMembers tree).map (fun member => ((memberParts member).2.map stretchOf).toList) ++
        [[]]).flatten := by
    rw [List.flatten_append, List.flatten_append, flatten_initialValues]
    simp [initialValues]
  rw [stretches]
  exact holds_intercalate "\n" (all _ _ _ _ _ _)

/-- The values of an enumeration stand in it one behind the other. -/
theorem ordered_initialValues (placed : tree.Placed) : Ordered tree.start tree.stop ((initialValues tree).map stretchOf) := by
  unfold initialValues enumerationMembers
  cases found : tree.child? .body with
  | none => exact placed.start_le_stop
  | some body =>
    have member : body ∈ tree.children := List.mem_of_find?_eq_some found
    have bounds := placed.children.bounds member
    have inner := (placed.children.placed member).children
    have within {part value : Tree} (mem : part ∈ body.parts) (has : (memberParts part).2 = some value) :
        part.start ≤ value.start ∧ value.start ≤ value.stop ∧ value.stop ≤ part.stop ∧
          body.start ≤ part.start ∧ part.stop ≤ body.stop := by
      have partMem := (List.mem_filter.mp mem).1
      have own := (inner.placed partMem).inner (mem_preorder_of_memberParts has)
      have partBounds := inner.bounds partMem
      exact ⟨own.2.1, own.1.start_le_stop, own.2.2, partBounds.1, partBounds.2.2⟩
    rw [Option.map_some, Option.getD_some]
    apply Ordered.of_pairwise
    · refine List.pairwise_map.mpr (List.pairwise_filterMap.mpr ?_)
      have parts : body.parts.Pairwise fun first second => first.stop ≤ second.start := inner.pairwise.sublist List.filter_sublist
      refine parts.imp_of_mem fun {first second} firstMem secondMem le value has other otherHas => ?_
      have front := within firstMem has
      have back := within secondMem otherHas
      change value.stop ≤ other.start
      omega
    · intro stretch mem
      obtain ⟨value, valueMem, rfl⟩ := List.mem_map.mp mem
      obtain ⟨part, partMem, has⟩ := List.mem_filterMap.mp valueMem
      have own := within partMem has
      change tree.start ≤ value.start ∧ value.start ≤ value.stop ∧ value.stop ≤ tree.stop
      omega
    · omega

/-! ## Import clauses -/

/-- The trees of the bindings that a clause keeps. -/
def keptTrees (source : Bytes) (used : List String) (clause : Tree) : List Tree :=
  ((bindings clause).filter (Binding.stays source used)).map Binding.written

theorem pairwise_bindings {clause : Tree} (placed : clause.Placed) :
    (bindings clause).Pairwise fun first second => first.written.stop ≤ second.written.start := by
  have parts : clause.parts.Pairwise fun first second => first.stop ≤ second.start :=
    placed.children.pairwise.sublist List.filter_sublist
  refine List.pairwise_flatMap.mpr ⟨fun part mem => ?_, ?_⟩
  · have inner := (placed.children.placed (List.mem_filter.mp mem).1).children
    unfold bindingsOf
    split
    · exact List.pairwise_singleton _ _
    · exact List.pairwise_singleton _ _
    · exact List.pairwise_map.mpr (inner.pairwise.sublist (List.filter_sublist.trans List.filter_sublist))
    · exact .nil
  · refine parts.imp_of_mem fun {front back} frontMem backMem le first firstMem second secondMem => ?_
    have frontOwn := (placed.children.placed (List.mem_filter.mp frontMem).1).inner (written_mem_preorder_part firstMem)
    have backOwn := (placed.children.placed (List.mem_filter.mp backMem).1).inner (written_mem_preorder_part secondMem)
    omega

/-- The bindings of a clause stand in it one behind the other. -/
theorem ordered_keptTrees {clause : Tree} (placed : clause.Placed) (source : Bytes) (used : List String) :
    Ordered clause.start clause.stop ((keptTrees source used clause).map stretchOf) := by
  apply Ordered.of_pairwise
  · refine List.pairwise_map.mpr (List.pairwise_map.mpr ?_)
    exact (pairwise_bindings placed).sublist List.filter_sublist
  · intro stretch mem
    obtain ⟨tree, treeMem, rfl⟩ := List.mem_map.mp mem
    obtain ⟨binding, found, rfl⟩ := List.mem_map.mp treeMem
    have own := placed.inner (written_mem_preorder (List.mem_filter.mp found).1)
    exact ⟨own.2.1, own.1.start_le_stop, own.2.2⟩
  · exact placed.start_le_stop

/-- In an import clause the braces come last. -/
theorem InOrder.filter_append {back : List Char} {kept : List Binding} (ordered : InOrder dialect text back kept) :
    kept.filter (fun binding => binding.braced = false) ++ kept.filter (fun binding => binding.braced = true) = kept := by
  cases ordered with
  | mk names spaces specifiers =>
    simp [List.filter_map, Function.comp_def, Binding.ofDefault, Binding.ofNamespace, Binding.ofSpecifier]

/-- The text of a clause holds the bindings that it is made of. -/
theorem writes_clauseText {back : List Char} {kept : List Binding} (ordered : InOrder dialect text back kept)
    (edged : ∀ binding ∈ kept, binding.written.Edged text ∧ binding.written.start ≤ binding.written.stop) :
    Writes text (kept.map fun binding => stretchOf binding.written) (clauseText (encodeChars text) kept) := by
  have each (braced : Bool) : List.Forall₂ (Writes text)
      ((kept.filter fun binding => binding.braced = braced).map fun binding => [stretchOf binding.written])
      (writtenIn (encodeChars text) braced kept) := by
    refine List.forall₂_map_left_iff.mpr (List.forall₂_map_right_iff.mpr (List.forall₂_same.mpr fun binding mem => ?_))
    obtain ⟨own, le⟩ := edged binding (List.mem_filter.mp mem).1
    simpa using holds_around own le "" ""
  have flat (braced : Bool) : ((kept.filter fun binding => binding.braced = braced).map fun binding =>
      [stretchOf binding.written]).flatten =
        (kept.filter fun binding => binding.braced = braced).map fun binding => stretchOf binding.written := by
    rw [← List.flatMap_def, ← List.map_eq_flatMap]
  have braced : Writes text ((kept.filter fun binding => binding.braced = true).map fun binding => stretchOf binding.written)
      ("\x7b " ++ ", ".intercalate (writtenIn (encodeChars text) true kept) ++ " \x7d") := by
    have inner := holds_intercalate ", " (each true)
    rw [flat] at inner
    rw [Writes, encode_append, encode_append]
    exact (inner.behind _).inFront _
  have parts : (kept.map fun binding => stretchOf binding.written) =
      ((kept.filter fun binding => binding.braced = false).map fun binding => [stretchOf binding.written]).flatten ++
        (kept.filter fun binding => binding.braced = true).map fun binding => stretchOf binding.written := by
    rw [flat, ← List.map_append, ordered.filter_append]
  rw [parts]
  unfold clauseText KeptBindings.text
  dsimp only
  split
  · next none_ =>
    have empty : kept.filter (fun binding => binding.braced = true) = [] := by
      simpa [writtenIn] using none_
    rw [empty, List.map_nil, List.append_nil, List.append_nil]
    exact holds_intercalate ", " (each false)
  · have all := holds_intercalate ", " (List.rel_append (each false) (.cons braced .nil))
    rwa [List.flatten_append, List.flatten_singleton] at all

/-- What an import clause is written as holds the bindings that it keeps. -/
theorem writes_keptBindings {clause : Tree} (parsed : dialect.parse (encodeChars text) = .ok root)
    (inside : clause ∈ root.preorder) (kind : clause.kind = .importClause) (used : List String) :
    Writes text ((keptTrees (encodeChars text) used clause).map stretchOf)
      (keptBindings (encodeChars text) used clause).text := by
  rw [text_keptBindings, keptTrees, List.map_map]
  by_cases some_ : bindings clause = []
  · rw [some_]
    exact .nil _
  · obtain ⟨before, old, back, -, -, -, ordered⟩ := exists_inOrder parsed inside kind some_
    refine writes_clauseText (ordered.filter _) fun binding mem => ?_
    have written := Tree.mem_preorder_trans inside (written_mem_preorder (List.mem_filter.mp mem).1)
    exact ⟨edged_of_parse parsed written, ((Dialect.describes_of_parse parsed).placed.inner written).1.start_le_stop⟩

/-! ## Edits that write -/

/-- The edit of a site that writes, and the trees that it carries over. -/
inductive Carries (source : Bytes) (root : Tree) : Site → Edit → List Tree → Prop
  | enumeration {tree : Tree} (reached : Reached root tree) (kind : tree.kind = .enumDeclaration) :
      Carries source root (.enumeration tree) ⟨tree.start, tree.stop, encode (enumerationText source tree)⟩
        (initialValues tree)
  | clause {statement clause : Tree} (rewrites : RewritesClause source root statement clause) :
      Carries source root (.importing statement)
        ⟨clause.start, clause.stop, encode (keptBindings source (usedIn source root) clause).text⟩
        (keptTrees source (usedIn source root) clause)

theorem kind_of_importClause {statement clause : Tree}
    (found : statement.children.find? (fun child => child.kind = .importClause) = some clause) : clause.kind = .importClause := by
  simpa using List.find?_some found

/-- What such an edit replaces: a construct that begins with ink, in its site. -/
structure Replaces (root : Tree) (site : Site) (edit : Edit) (tree : Tree) : Prop where
  inside : tree ∈ root.preorder
  isInked : tree.kind.isInked = true
  start_eq : edit.start = tree.start
  stop_eq : edit.stop = tree.stop
  within : site.start ≤ tree.start ∧ tree.start < tree.stop ∧ tree.stop ≤ site.stop

theorem isComposite_of_isInked {kind : Kind} (isInked : kind.isInked = true) : kind.isComposite = true := by
  simp only [Kind.isInked, Bool.or_eq_true, decide_eq_true_eq] at isInked
  rcases isInked with (rfl | rfl) | rfl <;> rfl

/-- A construct that begins between an element and its comma has a byte of the element: what else stands there are
comments and the comma. -/
theorem exists_common_of_stretch {parent element : Tree} (describes : root.Describes text) (outer : parent ∈ root.preorder)
    (member : element ∈ parent.children) (notComment : element.isComment = false) (inside : tree ∈ root.preorder)
    (composite : tree.kind.isComposite = true) (nonempty : tree.start < tree.stop)
    (after : (element.stretch parent.children).1 ≤ tree.start) (before : tree.start < (element.stretch parent.children).2) :
    ∃ position, (tree.start ≤ position ∧ position < tree.stop) ∧ element.start ≤ position ∧ position < element.stop := by
  have inner := (describes.placed.inner outer).1.children
  have own := inner.bounds member
  have bounds := inner.stretch_bounds member notComment
  have simple {sibling : Tree} (mem : sibling ∈ parent.children) (nested : tree ∈ sibling.preorder)
      (simple : sibling.kind.isComposite = false) : False := by
    have childless := (describes.shaped sibling (Tree.mem_preorder_of_mem_children outer mem)).children_eq_nil simple
    rcases Tree.mem_preorder_iff.mp nested with rfl | ⟨child, childMem, -⟩
    · rw [composite] at simple
      cases simple
    · rw [childless] at childMem
      cases childMem
  have around (nested : parent ∈ tree.preorder) :
      ∃ position, (tree.start ≤ position ∧ position < tree.stop) ∧ element.start ≤ position ∧ position < element.stop := by
    have := ((describes.placed.inner inside).1.inner nested).2
    exact ⟨element.start, ⟨by omega, by omega⟩, Nat.le_refl _, own.2.1⟩
  rcases describes.placed.nested_or_apart inside outer with nested | nested | apart | apart
  · rcases Tree.mem_preorder_iff.mp nested with rfl | ⟨sibling, siblingMem, nested⟩
    · exact around (Tree.mem_preorder_self _)
    · have siblingOwn := (inner.placed siblingMem).inner nested
      rcases inner.apart_stretch member notComment siblingMem with rfl | comment | comma | apart | apart
      · exact ⟨tree.start, ⟨Nat.le_refl _, nonempty⟩, siblingOwn.2.1, by omega⟩
      · have kind : sibling.kind = .comment := of_decide_eq_true comment
        exact (simple siblingMem nested (by rw [kind]; rfl)).elim
      · have kind : sibling.kind = .token "," := of_decide_eq_true (inner.isComma_of_listComma? member notComment comma)
        exact (simple siblingMem nested (by rw [kind]; rfl)).elim
      · omega
      · omega
  · exact around nested
  · omega
  · omega

namespace Carries

variable {site : Site} (carries : Carries (encodeChars text) root site edit trees)
include carries

theorem mem_blocks (shaped : root.Everywhere Tree.WellShaped) : .site site ∈ blocks (encodeChars text) [root] root := by
  cases carries with
  | enumeration reached kind => exact mem_blocks_of_enumDeclaration _ shaped reached kind
  | clause rewrites => exact mem_blocks_of_importStatement _ shaped rewrites.reached rewrites.kind

theorem edit?_eq : site.edit? (encodeChars text) (usedIn (encodeChars text) root) = some edit := by
  cases carries with
  | enumeration => rfl
  | clause rewrites => exact rewrites.rewritten

theorem replaces (describes : root.Describes text) : ∃ tree, Replaces root site edit tree := by
  cases carries with
  | @enumeration tree reached kind =>
    have bounds := (describes.eq_or_start_lt_stop reached.mem_preorder).resolve_left fun same => by
      rw [same, describes.kind_eq] at kind
      cases kind
    exact ⟨tree, reached.mem_preorder, by rw [kind]; rfl, rfl, rfl, Nat.le_refl _, bounds.1, Nat.le_refl _⟩
  | @clause statement clause rewrites =>
    have member := List.mem_of_find?_eq_some rewrites.found
    have outer := rewrites.reached.mem_preorder
    have bounds := (describes.placed.inner outer).1.children.bounds member
    refine ⟨clause, Tree.mem_preorder_of_mem_children outer member, ?_, rfl, rfl, bounds⟩
    rw [kind_of_importClause rewrites.found]
    rfl

theorem unique {otherEdit : Edit} {other : List Tree} (same : Carries (encodeChars text) root site otherEdit other) :
    other = trees := by
  cases carries with
  | enumeration => cases same; rfl
  | clause rewrites =>
    cases same with
    | clause rewrites' =>
      cases rewrites.found.symm.trans rewrites'.found
      rfl

/-- The trees stand in what the edit replaces, and in what it writes. -/
theorem spec (parsed : dialect.parse (encodeChars text) = .ok root) :
    Ordered edit.start edit.stop (trees.map stretchOf) ∧ Holds (encodeChars text) (trees.map stretchOf) edit.replacement := by
  have describes := Dialect.describes_of_parse parsed
  cases carries with
  | enumeration reached =>
    exact ⟨ordered_initialValues (describes.placed.inner reached.mem_preorder).1,
      holds_enumerationText parsed reached.mem_preorder⟩
  | clause rewrites =>
    have inside := Tree.mem_preorder_of_mem_children rewrites.reached.mem_preorder (List.mem_of_find?_eq_some rewrites.found)
    exact ⟨ordered_keptTrees (describes.placed.inner inside).1 _ _,
      writes_keptBindings parsed inside (kind_of_importClause rewrites.found) _⟩

theorem mem_preorder (mem : tree ∈ trees) : tree ∈ root.preorder := by
  cases carries with
  | enumeration reached =>
    obtain ⟨member, memberMem, found⟩ := List.mem_filterMap.mp mem
    obtain ⟨body, bodyMem, part⟩ := mem_preorder_of_mem_enumerationMembers memberMem
    have bodyInside := Tree.mem_preorder_of_mem_children reached.mem_preorder bodyMem
    exact Tree.mem_preorder_trans (Tree.mem_preorder_of_mem_children bodyInside (List.mem_filter.mp part).1)
      (mem_preorder_of_memberParts found)
  | clause rewrites =>
    obtain ⟨binding, found, rfl⟩ := List.mem_map.mp mem
    have inside := Tree.mem_preorder_of_mem_children rewrites.reached.mem_preorder (List.mem_of_find?_eq_some rewrites.found)
    exact Tree.mem_preorder_trans inside (written_mem_preorder (List.mem_filter.mp found).1)

/-- No other edit reaches where such an edit begins, so it is applied. -/
theorem taken (parsed : dialect.parse (encodeChars text) = .ok root) : edit ∈ appliedEdits (encodeChars text) root := by
  have describes := Dialect.describes_of_parse parsed
  have found := carries.mem_blocks describes.shaped
  obtain ⟨tree, replaces⟩ := carries.replaces describes
  obtain ⟨dark, notSemicolon⟩ := dark_of_beginsToken ((edged_of_parse parsed replaces.inside).begins replaces.isInked)
  have within := replaces.within
  have start_eq := replaces.start_eq
  have stop_eq := replaces.stop_eq
  refine (mem_applied_iff (fits_of_mem_erasureEdits describes) (mem_erasureEdits_iff.mpr (.inl ⟨site, found, carries.edit?_eq⟩))
    (by omega)).mpr ?_
  rintro ⟨other, otherTaken, differs, begins, ends⟩
  obtain ⟨byte, at_, notBlank⟩ := dark
  rcases mem_erasureEdits_iff.mp (mem_of_mem_applied otherTaken) with ⟨otherSite, otherFound, eq⟩ | ⟨method, otherFound, member⟩
  · have met := Block.met_of_mem_blocks describes.kind_eq otherFound
    -- a site that holds a byte of what is replaced is the same site
    have common {position : Nat} (after : tree.start ≤ position) (before : position < tree.stop)
        (inSite : otherSite.start ≤ position ∧ position < otherSite.stop) : False := by
      have inOwn : site.start ≤ position ∧ position < site.stop := by omega
      have same := Site.eq_of_common describes.placed found otherFound inOwn inSite
      rw [← same, carries.edit?_eq] at eq
      exact differs (Option.some.inj eq).symm
    have reached := (Site.bounded_of_met describes.placed describes.stop_le met eq).1.reaches tree.start (by constructor <;> omega)
    generalize here : tree.start = position at reached
    cases reached with
    | own after before => exact common (show tree.start ≤ position by omega) (by omega) ⟨after, before⟩
    | blank at' blank =>
      rw [← here, at_] at at'
      cases at'
      rw [notBlank] at blank
      cases blank
    | semicolon closes at' =>
      rw [← here] at at'
      exact notSemicolon at'
    | @beside siblings element _ after before =>
      cases met with
      | whole outer member whole =>
        cases whole with
        | element about =>
          obtain ⟨position, inTree, inElement⟩ := exists_common_of_stretch describes outer member
            (Site.isComment_of_element about) replaces.inside (isComposite_of_isInked replaces.isInked) within.2.1
            (by omega) (by omega)
          exact common inTree.1 inTree.2 inElement
  · cases Block.met_of_mem_blocks describes.kind_eq otherFound with
    | constructor outer constructor =>
      have blank := (fits_of_mem_assignProperties describes.placed describes.shaped describes.stop_le outer constructor member).2
      obtain ⟨byte', at', isBlank⟩ := blank tree.start (by omega) (by omega)
      rw [at_] at at'
      cases at'
      rw [notBlank] at isBlank
      cases isBlank

end Carries

/-- An edit that writes is that of one site, and carries its trees over. -/
theorem Carries.eq_of_edit {site other : Site} {otherTrees : List Tree} (describes : root.Describes text)
    (carries : Carries (encodeChars text) root site edit trees)
    (also : Carries (encodeChars text) root other edit otherTrees) : otherTrees = trees := by
  obtain ⟨tree, replaces⟩ := carries.replaces describes
  obtain ⟨otherTree, otherReplaces⟩ := also.replaces describes
  have within := replaces.within
  have otherWithin := otherReplaces.within
  have start_eq := replaces.start_eq
  have otherStart_eq := otherReplaces.start_eq
  have inFirst : site.start ≤ edit.start ∧ edit.start < site.stop := by omega
  obtain rfl : site = other := Site.eq_of_common describes.placed (carries.mem_blocks describes.shaped)
    (also.mem_blocks describes.shaped) inFirst (by omega)
  exact carries.unique also

/-- A comment or a literal that is left: no edit is about it, or it stands in a binding that a clause written anew keeps, or
in the value of a member of an enumeration. -/
inductive Survives (source : Bytes) (root item : Tree) : Prop
  | stays (stays : Stays source root item)
  | bound {statement clause : Tree} {binding : Binding} (rewrites : RewritesClause source root statement clause)
      (mem : binding ∈ bindings clause) (kept : binding.stays source (usedIn source root) = true)
      (within : item ∈ binding.written.preorder)
  | value {enumeration value : Tree} (initialised : Initialised root enumeration value) (within : item ∈ value.preorder)

/-- One that a text written anew carries over. -/
theorem Survives.stays_or_carried (survives : Survives source root item) :
    Stays source root item ∨ ∃ site edit trees, Carries source root site edit trees ∧ ∃ tree ∈ trees, item ∈ tree.preorder := by
  cases survives with
  | stays stays => exact .inl stays
  | @bound _ _ binding rewrites mem kept within =>
    exact .inr ⟨_, _, _, .clause rewrites, binding.written, List.mem_map_of_mem (List.mem_filter.mpr ⟨mem, kept⟩), within⟩
  | @value _ value initialised within =>
    obtain ⟨member, memberMem, found⟩ := initialised.value
    exact .inr ⟨_, _, _, .enumeration initialised.reached initialised.kind, value,
      List.mem_filterMap.mpr ⟨member, memberMem, found⟩, within⟩

/-- The comments and literals that are left stand in the output as they are, in their order. -/
theorem passages_survive (parsed : dialect.parse (encodeChars text) = .ok root) {items : List Tree}
    (passages : ∀ item ∈ items, item ∈ root.preorder ∧ item.kind.isPassage = true ∧ Survives (encodeChars text) root item)
    (ordered : items.Pairwise fun first second => first.stop ≤ second.start) :
    ∃ output, erase dialect (encodeChars text) = .ok output ∧ Holds (encodeChars text) (items.map stretchOf) output := by
  have describes := Dialect.describes_of_parse parsed
  have fits := fits_of_mem_erasureEdits describes
  have successive : Successive (encodeChars text).length 0 (appliedEdits (encodeChars text) root) := applied_successive fits
  have exists_carried (edit : Edit) : ∃ stretches,
      (edit ∈ appliedEdits (encodeChars text) root → Ordered edit.start edit.stop stretches ∧
        Holds (encodeChars text) stretches edit.replacement) ∧
      ∀ site trees, Carries (encodeChars text) root site edit trees → stretches = trees.map stretchOf := by
    by_cases writes : ∃ site trees, Carries (encodeChars text) root site edit trees
    · obtain ⟨site, trees, carries⟩ := writes
      refine ⟨trees.map stretchOf, fun _ => carries.spec parsed, fun other otherTrees also => ?_⟩
      rw [carries.eq_of_edit describes also]
    · exact ⟨[], fun taken => ⟨(fits edit (mem_of_mem_applied taken)).1, .nil _⟩,
        fun site trees carries => absurd ⟨site, trees, carries⟩ writes⟩
  choose carried each same using exists_carried
  have left := holds_applyOrdered successive fun edit taken => (each edit taken).2
  have bounds (item : Tree) (mem : item ∈ items) : item.start < item.stop ∧ item.stop ≤ (encodeChars text).length := by
    obtain ⟨inside, isPassage, -⟩ := passages item mem
    refine (describes.eq_or_start_lt_stop inside).resolve_left fun root => ?_
    rw [root, describes.kind_eq] at isPassage
    cases isPassage
  refine ⟨eraseTree (encodeChars text) root, by rw [erase, parsed], ?_⟩
  rw [eraseTree, applyEdits, ← applyOrdered_appliedFrom]
  refine left.refine (ordered_stretchesLeft successive fun edit taken => (each edit taken).1) ?_ ?_ ?_
  · refine .of_pairwise (List.pairwise_map.mpr ordered) (List.forall_mem_map.mpr fun item mem => ?_) (Nat.zero_le _)
    exact ⟨Nat.zero_le _, Nat.le_of_lt (bounds item mem).1, (bounds item mem).2⟩
  · exact List.forall_mem_map.mpr fun item mem => (bounds item mem).1
  · refine List.forall_mem_map.mpr fun item mem => ?_
    obtain ⟨inside, isPassage, survives⟩ := passages item mem
    rcases survives.stays_or_carried with stays | ⟨site, edit, trees, carries, tree, treeMem, within⟩
    · exact exists_left_of_apart successive (Nat.zero_le _) (bounds item mem).2 fun edit taken =>
        stays.apart parsed inside isPassage taken
    · refine ⟨stretchOf tree, mem_stretchesLeft_of_carried (carries.taken parsed) ?_, ?_⟩
      · rw [same edit site trees carries]
        exact List.mem_map_of_mem treeMem
      · have placed := (describes.placed.inner (carries.mem_preorder treeMem)).1
        exact (placed.inner within).2

def carriedText : List Char :=
  "// a\nimport \x7b b as /* c */ d, E \x7d from 'x'\nenum F \x7b g = \x60h\x60 \x7d\nd\n".toList

def carriedSpecifier : Tree :=
  .node .importSpecifier none 14 28 [.node .identifier (some .name) 14 15 [], .node (.token "as") none 16 18 [],
    .node .comment none 19 26 [], .node .identifier (some .alias) 27 28 []]

def carriedClause : Tree :=
  .node .importClause none 12 33 [.node .namedImports none 12 33 [.node (.token "\x7b") none 12 13 [], carriedSpecifier,
    .node (.token ",") none 28 29 [], .node .importSpecifier none 30 31 [.node .identifier (some .name) 30 31 []],
    .node (.token "\x7d") none 32 33 []]]

def carriedImport : Tree :=
  .node .importStatement none 5 42 [.node (.token "import") none 5 11 [], carriedClause,
    .node (.token "from") none 34 38 [], .node .string (some .source) 39 42 []]

def carriedTemplate : Tree :=
  .node .templateString (some .value) 56 59 [.node (.token "\x60") none 56 57 [], .node .stringFragment none 57 58 [],
    .node (.token "\x60") none 58 59 []]

def carriedMember : Tree :=
  .node .enumAssignment none 52 59 [.node .propertyIdentifier (some .name) 52 53 [], .node (.token "=") none 54 55 [],
    carriedTemplate]

def carriedEnumeration : Tree :=
  .node .enumDeclaration none 43 61 [.node (.token "enum") none 43 47 [], .node .identifier (some .name) 48 49 [],
    .node .enumBody (some .body) 50 61 [.node (.token "\x7b") none 50 51 [], carriedMember,
      .node (.token "\x7d") none 60 61 []]]

def carriedFile : Tree :=
  .node .program none 0 64 [.node .comment none 0 4 [], carriedImport, carriedEnumeration,
    .node .expressionStatement none 62 63 [.node .identifier none 62 63 []]]

private theorem rewritesClause_carried :
    RewritesClause (encodeChars carriedText) carriedFile carriedImport carriedClause where
  reached := .child .root rfl rfl (.tail _ (.head _)) rfl
  kind := rfl
  found := rfl
  rewritten := by decide +kernel

/-- Without types in the file nothing goes along with one. -/
private theorem stays_carried {item : Tree} (unwritten : ∀ leaf ∈ item.leaves, Unwritten (encodeChars carriedText) carriedFile leaf)
    (plain : ∀ inner ∈ item.preorder, isAssertion inner.kind = false) : Stays (encodeChars carriedText) carriedFile item := by
  have typeless : ∀ parent ∈ carriedFile.preorder, isAssertion parent.kind = false ∧
      ∀ child ∈ parent.children, isTypeConstruct child = false ∧ isMarker parent.kind child = false := by decide +kernel
  have plainText : ∀ position : Nat, (encodeChars carriedText)[position]? ≠ some 59 := by
    intro position found
    have : (59 : UInt8) ∉ encodeChars carriedText := by decide +kernel
    exact this (List.mem_of_getElem? found)
  refine ⟨fun leaf mem => ⟨fun inTypes => ?_, unwritten leaf mem⟩, fun leaf mem position along => ?_, plain⟩
  · cases inTypes with
    | construct inside member about =>
      rw [((typeless _ inside).2 _ member).1] at about
      cases about
    | marker inside _ member marker =>
      rw [((typeless _ inside).2 _ member).2] at marker
      cases marker
    | tail inside assertion =>
      rw [(typeless _ inside).1] at assertion
      cases assertion
  · cases along with
    | comma inside member about =>
      rw [((typeless _ inside).2 _ member).1] at about
      cases about
    | comment inside member about =>
      rw [((typeless _ inside).2 _ member).1] at about
      cases about
    | semicolon _ _ _ at_ => exact plainText _ at_

set_option maxRecDepth 8000 in
/-- A comment in front of an import, one in a binding that stays, the name of the module and a value of an enumeration. -/
theorem comment_and_template_survive :
    Dialect.plain.parse (encodeChars carriedText) = .ok carriedFile ∧
      ∃ output, erase .plain (encodeChars carriedText) = .ok output ∧
        Holds (encodeChars carriedText) [(0, 4), (19, 26), (39, 42), (56, 59)] output := by
  have parsed : Dialect.plain.parse (encodeChars carriedText) = .ok carriedFile := by decide +kernel
  refine ⟨parsed, @passages_survive _ _ _ parsed [.node .comment none 0 4 [], .node .comment none 19 26 [],
    .node .string (some .source) 39 42 [], carriedTemplate] ?_ (by decide)⟩
  simp only [List.forall_mem_cons]
  refine ⟨⟨by decide +kernel, rfl, .stays (stays_carried (fun leaf mem => .outside ?_) (by decide +kernel))⟩,
    ⟨by decide +kernel, rfl, @Survives.bound _ _ _ _ _ (.ofSpecifier carriedSpecifier) rewritesClause_carried ?_ ?_ ?_⟩,
    ⟨by decide +kernel, rfl, .stays (stays_carried (fun leaf mem => .beside rewritesClause_carried ?_ ?_) (by decide +kernel))⟩,
    ⟨by decide +kernel, rfl, .value ⟨.child .root rfl rfl (.tail _ (.tail _ (.head _))) rfl, rfl, carriedMember, ?_, rfl⟩ ?_⟩,
    nofun⟩
  · obtain rfl := List.mem_singleton.mp mem
    unfold InDeclaration
    decide +kernel
  · exact List.mem_cons_self
  · decide +kernel
  · decide +kernel
  · obtain rfl := List.mem_singleton.mp mem
    decide +kernel
  · obtain rfl := List.mem_singleton.mp mem
    decide +kernel
  · exact List.mem_cons_self
  · exact carriedTemplate.mem_preorder_self

def betweenText : List Char := "import \x7b a, /* c */ b, C \x7d from 'x'\na(b)\n".toList

def betweenImport : Tree :=
  .node .importStatement none 0 35 [.node (.token "import") none 0 6 [],
    .node .importClause none 7 26 [.node .namedImports none 7 26 [.node (.token "\x7b") none 7 8 [],
      .node .importSpecifier none 9 10 [.node .identifier (some .name) 9 10 []], .node (.token ",") none 10 11 [],
      .node .comment none 12 19 [], .node .importSpecifier none 20 21 [.node .identifier (some .name) 20 21 []],
      .node (.token ",") none 21 22 [], .node .importSpecifier none 23 24 [.node .identifier (some .name) 23 24 []],
      .node (.token "\x7d") none 25 26 []]],
    .node (.token "from") none 27 31 [], .node .string (some .source) 32 35 []]

def betweenFile : Tree :=
  .node .program none 0 41 [betweenImport,
    .node .expressionStatement none 36 40 [.node .callExpression none 36 40 [.node .identifier (some .function) 36 37 [],
      .node .arguments (some .arguments) 37 40 [.node (.token "(") none 37 38 [], .node .identifier none 38 39 [],
        .node (.token ")") none 39 40 []]]]]

def firstMemberText : List Char := "enum E \x7b /* c */ A \x7d\n".toList

def firstMemberFile : Tree :=
  .node .program none 0 21 [.node .enumDeclaration none 0 20 [.node (.token "enum") none 0 4 [],
    .node .identifier (some .name) 5 6 [],
    .node .enumBody (some .body) 7 20 [.node (.token "\x7b") none 7 8 [], .node .comment none 9 16 [],
      .node .propertyIdentifier (some .name) 17 18 [], .node (.token "\x7d") none 19 20 []]]]

set_option maxRecDepth 8000 in
/-- A comment between two bindings goes, though both stay, and so does one between the members of an enumeration. -/
theorem comments_between_go :
    (Dialect.plain.parse (encodeChars betweenText) = .ok betweenFile ∧ .node .comment none 12 19 [] ∈ betweenFile.preorder ∧
      (∀ tree ∈ betweenFile.preorder, isTypeConstruct tree = false) ∧
      ∃ output, erase .plain (encodeChars betweenText) = .ok output ∧
        output = encodeChars "import \x7b a, b \x7d from 'x'\na(b)\n".toList ∧
        ¬ Holds (encodeChars betweenText) [(12, 19)] output) ∧
    Dialect.plain.parse (encodeChars firstMemberText) = .ok firstMemberFile ∧
      .node .comment none 9 16 [] ∈ firstMemberFile.preorder ∧
      (∀ tree ∈ firstMemberFile.preorder, isTypeConstruct tree = false) ∧
      ∃ output, erase .plain (encodeChars firstMemberText) = .ok output ∧
        ¬ Holds (encodeChars firstMemberText) [(9, 16)] output := by
  have betweenParsed : Dialect.plain.parse (encodeChars betweenText) = .ok betweenFile := by decide +kernel
  have betweenEdits : erasureEdits (encodeChars betweenText) betweenFile = [⟨7, 26, encode "\x7b a, b \x7d"⟩] := by
    decide +kernel
  have memberParsed : Dialect.plain.parse (encodeChars firstMemberText) = .ok firstMemberFile := by decide +kernel
  have memberEdits : erasureEdits (encodeChars firstMemberText) firstMemberFile =
      [⟨0, 20, encode "var E;\n(function (E) \x7b\n    E[E[\"A\"] = 0] = \"A\";\n\x7d)(E || (E = \x7b\x7d));"⟩] := by
    decide +kernel
  refine ⟨⟨betweenParsed, by decide +kernel, by decide +kernel, encodeChars "import \x7b a, b \x7d from 'x'\na(b)\n".toList,
      ?_, rfl, fun holds => ?_⟩, memberParsed, by decide +kernel, by decide +kernel,
    encode "var E;\n(function (E) \x7b\n    E[E[\"A\"] = 0] = \"A\";\n\x7d)(E || (E = \x7b\x7d));\n", ?_, fun holds => ?_⟩
  · rw [erase, betweenParsed]
    dsimp only
    rw [eraseTree, applyEdits, betweenEdits, List.mergeSort_singleton]
    exact congrArg Except.ok (by decide +kernel)
  · exact absurd holds.isInfix (by decide +kernel)
  · rw [erase, memberParsed]
    dsimp only
    rw [eraseTree, applyEdits, memberEdits, List.mergeSort_singleton]
    exact congrArg Except.ok (by decide +kernel)
  · exact absurd holds.isInfix (by decide +kernel)

end Scaffold.Erasure
