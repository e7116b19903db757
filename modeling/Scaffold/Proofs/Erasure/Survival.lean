import Scaffold.Proofs.Erasure.Sites

/-! # Which tokens survive erasure

A token outside the constructs of types, the imports and the enumerations is kept, but for a comma, a
comment or a semicolon that goes with a construct beside it. A token in a construct of types is gone exactly
when an edit that takes it is applied; an edit that begins inside an applied one is not.
-/

namespace Scaffold.Erasure

open Scaffold.Text Scaffold.Syntax

/-- The edits of a file that are applied. -/
def appliedEdits (source : Bytes) (root : Tree) : List Edit := applied (erasureEdits source root)

/-- A byte of a leaf that is not white space. -/
structure Ink (source : Bytes) (leaf : Tree) (position : Nat) : Prop where
  covers : leaf.Covers position
  dark : ∀ byte, source[position]? = some byte → isBlankByte byte = false

/-- The origins of the bytes of a file without its types. -/
def erasedOrigins (source : Bytes) (root : Tree) : List Origin := origins source.length (erasureEdits source root)

/-- Nothing of a leaf is left in a text but white space. -/
def Gone (source : Bytes) (output : List Origin) (leaf : Tree) : Prop :=
  ∀ position, Ink source leaf position → .kept position ∉ output

/-- A byte goes with a construct beside its leaf: the comma of an element that is cut out, a comment between
the two, or the semicolon directly behind a statement that is cut out. -/
inductive Along (source : Bytes) (root leaf : Tree) (position : Nat) : Prop
  | comma {parent tree : Tree} (inside : parent ∈ root.preorder) (member : tree ∈ parent.children)
      (about : isTypeConstruct tree = true) (comma : tree.listComma? parent.children = some leaf)
      (taken : .removal (elementRange source parent.children tree).1 (elementRange source parent.children tree).2 ∈
        appliedEdits source root)
  | comment {parent tree : Tree} (inside : parent ∈ root.preorder) (member : tree ∈ parent.children)
      (about : isTypeConstruct tree = true) (sibling : leaf ∈ parent.children) (comment : leaf.isComment = true)
      (between : (tree.stretch parent.children).1 ≤ position ∧ position < (tree.stretch parent.children).2)
      (taken : .removal (elementRange source parent.children tree).1 (elementRange source parent.children tree).2 ∈
        appliedEdits source root)
  | semicolon {statement : Tree} (inside : statement ∈ root.preorder) (behind : statement.stop = leaf.start)
      (first : position = leaf.start) (at_ : source[position]? = some 59)
      (taken : statementRemoval source statement ∈ appliedEdits source root)

variable {text : List Char} {root leaf : Tree} {edit : Edit} {position : Nat}

theorem kept_mem_erasedOrigins_iff (describes : root.Describes text) :
    .kept position ∈ erasedOrigins (encodeChars text) root ↔
      position < (encodeChars text).length ∧ ¬ Covered (appliedEdits (encodeChars text) root) position :=
  kept_mem_origins_iff (fits_of_mem_erasureEdits describes)

theorem lt_length_of_covers (describes : root.Describes text) (mem : leaf ∈ root.leaves) (covers : leaf.Covers position) :
    position < (encodeChars text).length := by
  have le := describes.stop_le
  cases children : root.children with
  | nil =>
    rw [Tree.leaves_of_children_eq_nil children] at mem
    cases List.mem_singleton.mp mem
    exact Nat.lt_of_lt_of_le covers.2 le
  | cons first others =>
    rw [Tree.leaves_of_children_ne_nil (by simp [children])] at mem
    have bounds := describes.placed.children.leaf_bounds mem
    exact Nat.lt_of_lt_of_le covers.2 (Nat.le_trans bounds.2.2 le)

theorem gone_iff_covered (describes : root.Describes text) (mem : leaf ∈ root.leaves) :
    Gone (encodeChars text) (erasedOrigins (encodeChars text) root) leaf ↔
      ∀ position, Ink (encodeChars text) leaf position → Covered (appliedEdits (encodeChars text) root) position := by
  refine forall_congr' fun position => forall_congr' fun ink => ?_
  have lt := lt_length_of_covers describes mem ink.covers
  rw [kept_mem_erasedOrigins_iff describes]
  exact ⟨fun gone => Classical.not_not.mp fun free => gone ⟨lt, free⟩, fun covered kept => kept.2 covered⟩

theorem not_isBlank_of_ink {source : Bytes} {byte : UInt8} (ink : Ink source leaf position)
    (at_ : source[position]? = some byte) (blank : isBlankByte byte = true) : False := by
  rw [ink.dark byte at_] at blank
  cases blank

/-- The comma of a list has no leaves but itself, and a comment is its own leaf. -/
private theorem eq_of_mem_leaves_of_simple (describes : root.Describes text) {sibling : Tree}
    (inside : sibling ∈ root.preorder) (simple : sibling.kind.isComposite = false) (mem : leaf ∈ sibling.leaves) :
    leaf = sibling := by
  have childless := (describes.shaped sibling inside).children_eq_nil simple
  rw [Tree.leaves_of_children_eq_nil childless] at mem
  exact List.mem_singleton.mp mem

theorem isComment_of_isTypeConstruct {tree : Tree} (about : isTypeConstruct tree = true) :
    tree.isComment = false := by
  cases comment : tree.isComment with
  | false => rfl
  | true =>
    have kind : tree.kind = .comment := of_decide_eq_true comment
    simp [isTypeConstruct, kind, isTypeSyntax, isTypeStatement, isAmbientField, isTypeExport, isThisParameter] at about

/-- In the stretch of an element stand its own leaves, comments, and its comma. -/
private theorem leaf_in_stretch (describes : root.Describes text) {parent tree : Tree} (inside : parent ∈ root.preorder)
    (member : tree ∈ parent.children) (notComment : tree.isComment = false) (mem : leaf ∈ root.leaves)
    (covers : leaf.Covers position) (after : (tree.stretch parent.children).1 ≤ position)
    (before : position < (tree.stretch parent.children).2) :
    leaf ∈ tree.leaves ∨ (leaf ∈ parent.children ∧ leaf.isComment = true) ∨
      tree.listComma? parent.children = some leaf := by
  obtain ⟨begins, ends⟩ := covers
  have placed := (describes.placed.inner inside).1.children
  have bounds := placed.stretch_bounds member notComment
  have inParent : leaf ∈ parent.leaves := by
    rcases describes.placed.mem_leaves_or_apart inside mem with mem | apart | apart
    · exact mem
    · omega
    · omega
  rw [Tree.leaves_of_children_ne_nil (List.ne_nil_of_mem member)] at inParent
  obtain ⟨sibling, siblingMember, siblingMem⟩ := Tree.mem_leavesAll_iff.mp inParent
  have within := (placed.placed siblingMember).leaf_bounds (placed.bounds siblingMember).2.1 siblingMem
  have siblingInside := Tree.mem_preorder_of_mem_children inside siblingMember
  rcases placed.apart_stretch member notComment siblingMember with rfl | comment | comma | apart | apart
  · exact .inl siblingMem
  · have kind : sibling.kind = .comment := of_decide_eq_true comment
    have same := eq_of_mem_leaves_of_simple describes siblingInside (by rw [kind]; rfl) siblingMem
    exact .inr (.inl (same ▸ ⟨siblingMember, comment⟩))
  · have isComma := placed.isComma_of_listComma? member notComment comma
    have kind : sibling.kind = .token "," := of_decide_eq_true isComma
    have same := eq_of_mem_leaves_of_simple describes siblingInside (by rw [kind]; rfl) siblingMem
    exact .inr (.inr (same ▸ comma))
  · omega
  · omega

/-- The removal of a statement ends behind it, and so does that of a clause within it. -/
private theorem removal_of_covers_stop (describes : root.Describes text) {site : Site}
    (met : Block.Met (encodeChars text) root (.site site)) (closes : site.isStatement = true)
    (eq : site.edit? (encodeChars text) (usedIn (encodeChars text) root) = some edit) (covers : edit.Covers site.stop) :
    ∃ statement ∈ root.preorder, statement.stop = site.stop ∧ edit = statementRemoval (encodeChars text) statement := by
  cases met with
  | tail => cases closes
  | marker => cases closes
  | @whole parent tree site inside member whole =>
    have inner := Tree.mem_preorder_of_mem_children inside member
    cases whole with
    | exact | clause | element | enumeration => cases closes
    | statement =>
      cases eq
      exact ⟨tree, inner, rfl, rfl⟩
    | importing =>
      change importEdit? (encodeChars text) (usedIn (encodeChars text) root) tree = some edit at eq
      have fate := importFate (encodeChars text) (usedIn (encodeChars text) root) tree
      rw [eq] at fate
      cases fate with
      | typed => exact ⟨tree, inner, rfl, rfl⟩
      | dropped => exact ⟨tree, inner, rfl, rfl⟩
      | @rewritten clause _ found =>
        have bounds := (describes.placed.inner inner).1.children.bounds (List.mem_of_find?_eq_some found)
        have before : tree.stop < clause.stop := covers.2
        omega

/-- An applied edit that takes ink of a leaf is the edit of its site, or the ink goes along with a construct
beside it. -/
theorem own_or_along (describes : root.Describes text) (mem : leaf ∈ root.leaves)
    (ink : Ink (encodeChars text) leaf position)
    (taken : edit ∈ appliedEdits (encodeChars text) root) (covers : edit.Covers position) :
    (∃ site, .site site ∈ blocks (encodeChars text) [root] root ∧
        site.edit? (encodeChars text) (usedIn (encodeChars text) root) = some edit ∧ leaf ∈ site.leaves) ∨
      Along (encodeChars text) root leaf position := by
  have le := describes.stop_le
  rcases mem_erasureEdits_iff.mp (mem_of_mem_applied taken) with ⟨site, found, eq⟩ | ⟨method, found, member⟩
  · have met := Block.met_of_mem_blocks describes.kind_eq found
    have bounded := (Site.bounded_of_met describes.placed le met eq).1
    have bounds := Site.bounds_of_met describes.placed met
    have apart := Site.mem_leaves_or_apart_of_met describes.placed met mem
    obtain ⟨begins, ends⟩ := ink.covers
    cases bounded.reaches position covers with
    | own after before =>
      rcases apart with mem | apart | apart
      · exact .inl ⟨site, found, eq, mem⟩
      · omega
      · omega
    | blank at_ blank => exact (not_isBlank_of_ink ink at_ blank).elim
    | semicolon closes at_ =>
      rcases apart with mem | apart | apart
      · exact .inl ⟨site, found, eq, mem⟩
      · omega
      · obtain ⟨statement, inside, stop, rfl⟩ := removal_of_covers_stop describes met closes eq covers
        exact .inr (.semicolon inside (by omega) (by omega) at_ taken)
    | @beside siblings tree _ after before =>
      cases met with
      | whole inside member whole =>
        cases whole with
        | element element =>
          have about : isTypeConstruct tree = true := by
            rw [isTypeConstruct, element]
            simp
          rcases leaf_in_stretch describes inside member (Site.isComment_of_element element) mem ink.covers
            after before with own | ⟨sibling, comment⟩ | comma
          · exact .inl ⟨_, found, eq, own⟩
          · cases eq
            exact .inr (.comment inside member about sibling comment ⟨after, before⟩ taken)
          · cases eq
            exact .inr (.comma inside member about comma taken)
  · cases Block.met_of_mem_blocks describes.kind_eq found with
    | constructor inside constructor =>
      have blank := (fits_of_mem_assignProperties describes.placed describes.shaped le inside constructor member).2
      obtain ⟨byte, at_, isBlank⟩ := blank position covers.1 covers.2
      exact (not_isBlank_of_ink ink at_ isBlank).elim

/-- The edit of a site that takes a byte of a leaf of the site takes the whole leaf. -/
private theorem spanned_of_covers (describes : root.Describes text) {site : Site}
    (met : Block.Met (encodeChars text) root (.site site)) (mem : leaf ∈ site.leaves)
    (eq : site.edit? (encodeChars text) (usedIn (encodeChars text) root) = some edit) (leafCovers : leaf.Covers position)
    (covers : edit.Covers position) : edit.start ≤ leaf.start ∧ leaf.stop ≤ edit.stop := by
  have le := describes.stop_le
  have bounds := Site.leaf_bounds_of_met describes.placed met mem
  rcases (Site.bounded_of_met describes.placed le met eq).2 with spanned | clause
  · exact ⟨Nat.le_trans spanned.1 bounds.1, Nat.le_trans bounds.2.2 spanned.2⟩
  · cases clause with
    | @mk statement clause found =>
      cases met with
      | whole inside member whole =>
        cases whole with
        | importing kind =>
          have inner := Tree.mem_preorder_of_mem_children inside member
          have clauseMember := List.mem_of_find?_eq_some found
          have clauseInside := Tree.mem_preorder_of_mem_children inner clauseMember
          obtain ⟨begins, ends⟩ := leafCovers
          obtain ⟨after, before⟩ : clause.start ≤ position ∧ position < clause.stop := covers
          rcases describes.placed.mem_leaves_or_apart clauseInside
            (mem_leaves_of_mem_preorder inner mem) with mem | apart | apart
          · have clauseBounds := describes.placed.child inner clauseMember
            have within := (describes.placed.inner clauseInside).1.leaf_bounds clauseBounds.2.1 mem
            exact ⟨within.1, within.2.2⟩
          · omega
          · omega

/-- An applied edit takes the byte that goes along with the construct that it cuts out. -/
private theorem Along.covered (describes : root.Describes text) (along : Along (encodeChars text) root leaf position)
    (ink : Ink (encodeChars text) leaf position) : Covered (appliedEdits (encodeChars text) root) position := by
  have le := describes.stop_le
  obtain ⟨begins, ends⟩ := ink.covers
  cases along with
  | @comma parent tree inside member about comma taken =>
    have inner := describes.placed.inner inside
    have range := bounded_elementRange inner.1.children member (isComment_of_isTypeConstruct about)
      (Nat.le_trans inner.2.2 le)
    have stretch : tree.stretch parent.children = (min tree.start leaf.start, max tree.stop leaf.stop) := by
      rw [Tree.stretch, comma]
    rw [stretch] at range
    refine ⟨_, taken, Nat.le_trans range.2.1 ?_, Nat.lt_of_lt_of_le ?_ range.2.2⟩
    · exact Nat.le_trans (Nat.min_le_right _ _) begins
    · exact Nat.lt_of_lt_of_le ends (Nat.le_max_right _ _)
  | @comment parent tree inside member about sibling comment between taken =>
    have inner := describes.placed.inner inside
    have range := bounded_elementRange inner.1.children member (isComment_of_isTypeConstruct about)
      (Nat.le_trans inner.2.2 le)
    exact ⟨_, taken, Nat.le_trans range.2.1 between.1, Nat.lt_of_lt_of_le between.2 range.2.2⟩
  | @semicolon statement inside behind first at_ taken =>
    have inner := describes.placed.inner inside
    have ordered := inner.1.start_le_stop
    have wider := widened_statementRemoval ordered (Nat.le_trans inner.2.2 le)
    have past := pastSemicolon_of_getElem? (behind ▸ first ▸ at_)
    have front := wider.start_le
    have back := wider.le_stop
    exact ⟨_, taken, by omega, by omega⟩

/-- Outside the constructs of types and the declarations that are written anew every byte of ink is kept,
unless it goes along with a construct beside it. -/
theorem kept_or_along (describes : root.Describes text) (mem : leaf ∈ root.leaves)
    (plain : ¬ InTypes root leaf) (apart : ¬ InDeclaration root leaf) (ink : Ink (encodeChars text) leaf position) :
    ¬ Covered (appliedEdits (encodeChars text) root) position ∨ Along (encodeChars text) root leaf position := by
  by_cases covered : Covered (appliedEdits (encodeChars text) root) position
  · obtain ⟨edit, taken, covers⟩ := covered
    rcases own_or_along describes mem ink taken covers with ⟨site, found, -, own⟩ | along
    · rcases inTypes_or_inDeclaration_of_met (Block.met_of_mem_blocks describes.kind_eq found) own with ⟨-, inTypes⟩ | inside
      · exact absurd inTypes plain
      · exact absurd inside apart
    · exact .inr along
  · exact .inl covered

/-- A leaf is gone exactly when an applied edit takes it whole, or when all its ink goes along with constructs
beside it. -/
theorem gone_iff (describes : root.Describes text) (mem : leaf ∈ root.leaves) :
    Gone (encodeChars text) (erasedOrigins (encodeChars text) root) leaf ↔
      (∃ edit ∈ appliedEdits (encodeChars text) root, edit.start ≤ leaf.start ∧ leaf.stop ≤ edit.stop) ∨
        ∀ position, Ink (encodeChars text) leaf position → Along (encodeChars text) root leaf position := by
  rw [gone_iff_covered describes mem]
  constructor
  · intro gone
    by_cases spanned : ∃ edit ∈ appliedEdits (encodeChars text) root, edit.start ≤ leaf.start ∧ leaf.stop ≤ edit.stop
    · exact .inl spanned
    · right
      intro position ink
      obtain ⟨edit, taken, covers⟩ := gone position ink
      rcases own_or_along describes mem ink taken covers with ⟨site, found, eq, own⟩ | along
      · have met := Block.met_of_mem_blocks describes.kind_eq found
        exact absurd ⟨edit, taken, spanned_of_covers describes met own eq ink.covers covers⟩ spanned
      · exact along
  · rintro (⟨edit, taken, front, back⟩ | along) position ink
    · exact ⟨edit, taken, Nat.le_trans front ink.covers.1, Nat.lt_of_lt_of_le ink.covers.2 back⟩
    · exact (along position ink).covered describes ink

/-- A removal is found for each of its sites. -/
theorem exists_edit_of_isRemoval (source : Bytes) (used : List String) {site : Site}
    (isRemoval : site.isRemoval = true) : ∃ edit, site.edit? source used = some edit ∧ edit.replacement = [] := by
  cases site with
  | enumeration | importing => cases isRemoval
  | _ => exact ⟨_, rfl, rfl⟩

/-- A leaf in a construct of types, and in no declaration that is written anew, has a removal that takes it
whole, and is gone exactly when that is applied, or when all its ink goes along with constructs beside it. -/
theorem exists_removal (describes : root.Describes text) (inTypes : InTypes root leaf) (apart : ¬ InDeclaration root leaf) :
    ∃ removal ∈ erasureEdits (encodeChars text) root, removal.replacement = [] ∧
      (removal.start ≤ leaf.start ∧ leaf.start < leaf.stop ∧ leaf.stop ≤ removal.stop) ∧
        (Gone (encodeChars text) (erasedOrigins (encodeChars text) root) leaf ↔ removal ∈ appliedEdits (encodeChars text) root ∨
          ∀ position, Ink (encodeChars text) leaf position → Along (encodeChars text) root leaf position) := by
  rw [gone_iff_covered describes inTypes.mem_leaves]
  obtain ⟨site, found, mem⟩ := exists_site_of_inTypes (encodeChars text) [root] describes.shaped inTypes
  have met := Block.met_of_mem_blocks describes.kind_eq found
  rcases inTypes_or_inDeclaration_of_met met mem with ⟨isRemoval, -⟩ | inside
  · obtain ⟨removal, eq, empty⟩ := exists_edit_of_isRemoval (encodeChars text) (usedIn (encodeChars text) root) isRemoval
    have spanned := Site.spanned_of_isRemoval describes.placed describes.stop_le met isRemoval eq
    have bounds := Site.leaf_bounds_of_met describes.placed met mem
    have front := Nat.le_trans spanned.1 bounds.1
    have back := Nat.le_trans bounds.2.2 spanned.2
    refine ⟨removal, mem_erasureEdits_iff.mpr (.inl ⟨site, found, eq⟩), empty, ⟨front, bounds.2.1, back⟩, ?_, ?_⟩
    · intro gone
      by_cases taken : removal ∈ appliedEdits (encodeChars text) root
      · exact .inl taken
      · right
        intro position ink
        obtain ⟨edit, applied_, covers⟩ := gone position ink
        rcases own_or_along describes inTypes.mem_leaves ink applied_ covers with ⟨other, member, otherEq, own⟩ | along
        · have same := Site.eq_of_mem_leaves describes.placed describes.kind_eq found member mem own
          subst same
          rw [eq] at otherEq
          cases otherEq
          exact absurd applied_ taken
        · exact along
    · rintro (taken | along) position ink
      · exact ⟨removal, taken, Nat.le_trans front ink.covers.1, Nat.lt_of_lt_of_le ink.covers.2 back⟩
      · exact (along position ink).covered describes ink
  · exact absurd inside apart

/-! ## What is written into the source -/

/-- The edits that write something: those of enumerations, of import clauses and of constructors. -/
inductive Rewrites (source : Bytes) (root : Tree) : Edit → Prop
  | enumeration {tree : Tree} (inside : tree ∈ root.preorder) (kind : tree.kind = .enumDeclaration) :
      Rewrites source root ⟨tree.start, tree.stop, encode (enumerationText source tree)⟩
  | importing {statement clause : Tree} (inside : statement ∈ root.preorder) (kind : statement.kind = .importStatement)
      (found : statement.children.find? (fun child => child.kind = .importClause) = some clause) :
      Rewrites source root ⟨clause.start, clause.stop, encode (keptBindings source (usedIn source root) clause).text⟩
  | constructor {method : Tree} {edit : Edit} (inside : method ∈ root.preorder)
      (constructor : isConstructor source method = true) (mem : edit ∈ (assignProperties source method).edits) :
      Rewrites source root edit

/-- An edit that writes something is one of an enumeration, of an import clause or of a constructor. -/
theorem rewrites_of_replacement_ne_nil (describes : root.Describes text)
    (mem : edit ∈ erasureEdits (encodeChars text) root) (writes : edit.replacement ≠ []) :
    Rewrites (encodeChars text) root edit := by
  rcases mem_erasureEdits_iff.mp mem with ⟨site, found, eq⟩ | ⟨method, found, member⟩
  · have met := Block.met_of_mem_blocks describes.kind_eq found
    by_cases isRemoval : site.isRemoval = true
    · obtain ⟨removal, removalEq, empty⟩ :=
        exists_edit_of_isRemoval (encodeChars text) (usedIn (encodeChars text) root) isRemoval
      rw [eq] at removalEq
      cases removalEq
      exact absurd empty writes
    · cases site with
      | enumeration tree =>
        cases met with
        | whole inside inner whole =>
          cases whole with
          | enumeration kind =>
            cases eq
            exact .enumeration (Tree.mem_preorder_of_mem_children inside inner) kind
      | importing tree =>
        cases met with
        | whole inside inner whole =>
          cases whole with
          | importing kind =>
            change importEdit? (encodeChars text) (usedIn (encodeChars text) root) tree = some edit at eq
            have fate := importFate (encodeChars text) (usedIn (encodeChars text) root) tree
            rw [eq] at fate
            cases fate with
            | typed => exact absurd rfl writes
            | dropped => exact absurd rfl writes
            | rewritten _ found => exact .importing (Tree.mem_preorder_of_mem_children inside inner) kind found
      | _ => exact absurd rfl isRemoval
  · cases Block.met_of_mem_blocks describes.kind_eq found with
    | constructor inside constructor => exact .constructor inside constructor member

/-! ## What becomes of a file -/

/-- A file without its types, as the tree of the file tells it. -/
structure Erased (text : List Char) (root : Tree) (output : List Origin) : Prop where
  /-- What is kept of the source stands in its order. -/
  ordered : output.filterMap Origin.position? =
    (List.range (encodeChars text).length).filter fun position => ¬ Covered (appliedEdits (encodeChars text) root) position
  /-- All the rest is written by enumerations, import clauses and constructors. -/
  written : ∀ byte, .inserted byte ∈ output →
    ∃ edit ∈ appliedEdits (encodeChars text) root, Rewrites (encodeChars text) root edit ∧ byte ∈ edit.replacement
  /-- The source holds leaves and separators. -/
  filled : ∀ position < (encodeChars text).length,
    (∃ leaf ∈ root.leaves, leaf.Covers position) ∨ InCharacter isSeparator text position
  /-- A leaf outside the constructs of types is kept. -/
  values : ∀ leaf ∈ root.leaves, ¬ InTypes root leaf → ¬ InDeclaration root leaf →
    ∀ position, Ink (encodeChars text) leaf position →
      .kept position ∈ output ∨ Along (encodeChars text) root leaf position
  /-- A leaf in a construct of types is gone exactly when an applied edit takes it. -/
  types : ∀ leaf ∈ root.leaves, InTypes root leaf →
    (Gone (encodeChars text) output leaf ↔
      (∃ edit ∈ appliedEdits (encodeChars text) root, edit.start ≤ leaf.start ∧ leaf.stop ≤ edit.stop) ∨
        ∀ position, Ink (encodeChars text) leaf position → Along (encodeChars text) root leaf position)
  /-- Outside declarations there is an edit that takes it, applied unless it begins inside another one. -/
  removed : ∀ leaf ∈ root.leaves, InTypes root leaf → ¬ InDeclaration root leaf →
    ∃ removal ∈ erasureEdits (encodeChars text) root, removal.replacement = [] ∧
      (removal.start ≤ leaf.start ∧ leaf.stop ≤ removal.stop) ∧
        (Gone (encodeChars text) output leaf ↔
          (¬ ∃ other ∈ appliedEdits (encodeChars text) root,
            other ≠ removal ∧ other.start ≤ removal.start ∧ removal.start < other.stop) ∨
          ∀ position, Ink (encodeChars text) leaf position → Along (encodeChars text) root leaf position)

theorem erase_of_parse {dialect : Dialect} (parsed : dialect.parse (encodeChars text) = .ok root) :
    erase dialect (encodeChars text) =
      .ok ((erasedOrigins (encodeChars text) root).map (Origin.byte (encodeChars text))) := by
  rw [erase, parsed]
  dsimp only
  rw [eraseTree, applyEdits_eq_map_origins (fits_of_mem_erasureEdits (Dialect.describes_of_parse parsed)), erasedOrigins]

/-- Erasure takes the constructs of types and leaves the rest. -/
theorem erase_takes_types {dialect : Dialect} (parsed : dialect.parse (encodeChars text) = .ok root) :
    erase dialect (encodeChars text) =
        .ok ((erasedOrigins (encodeChars text) root).map (Origin.byte (encodeChars text))) ∧
      Erased text root (erasedOrigins (encodeChars text) root) := by
  have describes := Dialect.describes_of_parse parsed
  have fits := fits_of_mem_erasureEdits describes
  refine ⟨erase_of_parse parsed, positions_origins fits, ?_, ?_, ?_, ?_, ?_⟩
  · intro byte mem
    obtain ⟨edit, taken, member⟩ := inserted_mem_originsFrom_iff.mp mem
    have writes := rewrites_of_replacement_ne_nil describes (mem_of_mem_applied taken) (List.ne_nil_of_mem member)
    exact ⟨edit, taken, writes, member⟩
  · rw [length_encodeChars]
    exact describes.filled
  · intro leaf mem plain apart position ink
    rcases kept_or_along describes mem plain apart ink with free | along
    · exact .inl ((kept_mem_erasedOrigins_iff describes).mpr ⟨lt_length_of_covers describes mem ink.covers, free⟩)
    · exact .inr along
  · intro leaf mem _
    exact gone_iff describes mem
  · intro leaf mem inTypes apart
    obtain ⟨removal, member, empty, ⟨front, ordered, back⟩, gone⟩ := exists_removal describes inTypes apart
    refine ⟨removal, member, empty, ⟨front, back⟩, ?_⟩
    rw [gone, appliedEdits, mem_applied_iff fits member (by omega)]

/-- The tree of an assertion, as in `a as T`. -/
def assertionTree : Tree :=
  .node .program none 0 7 [.node .expressionStatement none 0 6 [.node .asExpression none 0 6
    [.node .identifier none 0 1 [], .node (.token "as") none 2 4 [], .node .typeIdentifier none 5 6 []]]]

set_option maxRecDepth 8000 in
theorem erase_takes_assertion :
    Dialect.plain.parse (encodeChars "a as T\n".toList) = .ok assertionTree ∧
      erase .plain (encodeChars "a as T\n".toList) = .ok
        ((erasedOrigins (encodeChars "a as T\n".toList) assertionTree).map (Origin.byte (encodeChars "a as T\n".toList))) ∧
      Erased "a as T\n".toList assertionTree (erasedOrigins (encodeChars "a as T\n".toList) assertionTree) := by
  have parsed : Dialect.plain.parse (encodeChars "a as T\n".toList) = .ok assertionTree := by decide +kernel
  exact ⟨parsed, erase_takes_types parsed⟩

/-! A mark is taken with the blanks behind it, and what an assertion says about its expression with the
blanks in front of it. Where the mark ends the expression, the second edit begins inside the first one. -/

def markedText : List Char := "a! as T\n".toList

def markedAssertion : Tree :=
  .node .asExpression none 0 7
    [.node .nonNullExpression none 0 2 [.node .identifier none 0 1 [], .node (.token "!") none 1 2 []],
      .node (.token "as") none 3 5 [], .node .typeIdentifier none 6 7 []]

def markedTree : Tree := .node .program none 0 8 [.node .expressionStatement none 0 7 [markedAssertion]]

private theorem sorted_markedEdits :
    (erasureEdits (encodeChars markedText) markedTree).mergeSort Edit.before = [.removal 1 3, .removal 2 7] := by
  have edits : erasureEdits (encodeChars markedText) markedTree = [.removal 2 7, .removal 1 3] := by decide +kernel
  rw [edits]
  simp [List.mergeSort, List.MergeSort.Internal.splitInTwo, Edit.before, Edit.removal]

set_option maxRecDepth 8000 in
theorem erase_leaves_assertion :
    Dialect.plain.parse (encodeChars markedText) = .ok markedTree ∧
      erase .plain (encodeChars markedText) = .ok (encode "aas T\n") ∧
      ∃ leaf ∈ markedTree.leaves, InTypes markedTree leaf ∧ ¬ InDeclaration markedTree leaf ∧ leaf.isComment = false ∧
        ¬ Gone (encodeChars markedText) (erasedOrigins (encodeChars markedText) markedTree) leaf := by
  have parsed : Dialect.plain.parse (encodeChars markedText) = .ok markedTree := by decide +kernel
  refine ⟨parsed, ?_, .node (.token "as") none 3 5 [], by decide +kernel, ?_, ?_, rfl, ?_⟩
  · rw [erase, parsed]
    dsimp only
    rw [eraseTree, applyEdits, sorted_markedEdits]
    exact congrArg Except.ok (by decide +kernel)
  · have inside : markedAssertion ∈ markedTree.preorder := by decide +kernel
    exact .tail inside rfl rfl (by decide +kernel)
  · unfold InDeclaration
    decide +kernel
  · intro gone
    refine gone 3 ⟨by decide, fun byte at_ => ?_⟩ ?_
    · cases at_
      decide
    · rw [erasedOrigins, origins, applied, sorted_markedEdits]
      decide +kernel

end Scaffold.Erasure
