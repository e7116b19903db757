import Scaffold.Proofs.Erasure.Assignments
import Scaffold.Proofs.Erasure.Clauses
import Scaffold.Proofs.Syntax.Literals
import Scaffold.Proofs.Text.Layout
import Scaffold.Proofs.Text.Passages

/-! # Comments and literals stay

A comment, a string literal or a template literal that no edit is about stays as it is. The edits beside it are widened
over white space only, and it begins and ends with ink. One that an enumeration has as a value, or in one, is written with
the value, and one in a binding that an import clause keeps is written with that. So all of them stand in the output in
their order.
-/

namespace Scaffold.Erasure

open Scaffold.Text Scaffold.Syntax

variable {text : List Char} {root item leaf tree : Tree} {site : Site} {edit : Edit} {start stop position : Nat}

/-! ## Ranges in front of a passage -/

/-- How a range may begin in front of what it is for: right there, at the beginning of its line, or at blanks in front of
a token. -/
inductive Leads (text : List Char) (first base : Nat) : Prop
  | here (same : first = base)
  | line (blank : Blank (encodeChars text) first base)
      (begins : first = 0 ∨ (encodeChars text)[first - 1]? = some lineFeed)
  | blanks (indented : Indented (encodeChars text) first base) (token : BeginsToken text base)

theorem dark_of_ink {before after : List Char} {c : Char} (split : text = before ++ c :: after) (ink : isSeparator c = false)
    (begins : width before ≤ position) (ends : position < width before + charWidth c) : Dark (encodeChars text) position := by
  have here : InCharacter (fun c => !isSeparator c) text position := ⟨before, c, after, split, by simp [ink], begins, ends⟩
  obtain ⟨d, byte, plain, found, same⟩ := here.byte
  exact ⟨byte, found, not_isBlankByte_of_not_isSeparator (by simpa using plain) same⟩

/-- White space in front of what a range is for does not reach into a passage. -/
theorem lt_of_leads {first base : Nat} (closed : Closed text start stop) (leads : Leads text first base)
    (after : start < first) (before : first < stop) : base < stop := by
  by_contra le
  rw [Nat.not_lt] at le
  have inked {front back : List Char} {c : Char} (split : text = front ++ c :: back)
      (stop_eq : stop = width front + charWidth c) (ink : isSeparator c = false)
      (blank : Blank (encodeChars text) first base) : False := by
    have wide := charWidth_pos c
    have dark := dark_of_ink split ink (show width front ≤ stop - 1 by omega) (by omega)
    rcases dark.not_blank blank with front | back <;> omega
  cases leads with
  | here same => omega
  | line blank begins =>
    cases closed with
    | ink split stop_eq ink => exact inked split stop_eq ink blank
    | line split stop_eq one ends =>
      rcases begins with rfl | feeds
      · omega
      · exact one (first - 1) (by omega) (by omega) feeds
  | blanks indented token =>
    cases closed with
    | ink split stop_eq ink => exact inked split stop_eq ink indented.blank
    | @line front back split stop_eq one ends =>
      -- what follows the line neither is a blank nor begins a token
      have ending {c : Char} {later : List Char} (eq : back = c :: later) : InCharacter isLineEnd text stop :=
        ⟨front, c, later, by rw [split, eq], ends c (by simp [eq]), Nat.le_of_eq stop_eq.symm,
          by have := charWidth_pos c; omega⟩
      have length := length_encodeChars text
      have further : stop < width text := by
        rcases Nat.lt_or_ge stop base with lt | ge
        · obtain ⟨byte, found, -⟩ := indented stop (by omega) lt
          have := (List.getElem?_eq_some_iff.mp found).1
          omega
        · obtain ⟨ahead, c, behind, whole, offset, -⟩ := token
          rw [whole, width_append, width_cons]
          have := charWidth_pos c
          omega
      cases eq : back with
      | nil =>
        rw [split, eq, List.append_nil] at further
        omega
      | cons c later =>
        rcases Nat.lt_or_ge stop base with lt | ge
        · obtain ⟨d, byte, isEnd, found, same⟩ := (ending eq).byte
          obtain ⟨other, found', indent⟩ := indented stop (by omega) lt
          rw [found] at found'
          cases found'
          simp only [isIndent, Bool.or_eq_true, decide_eq_true_eq] at indent
          rcases same with same | ⟨-, high⟩
          · have : d = ' ' ∨ d = '\t' := by
              rcases indent with rfl | rfl
              · exact .inl (Char.toNat_inj.mp same.symm)
              · exact .inr (Char.toNat_inj.mp same.symm)
            rcases this with rfl | rfl <;> exact absurd isEnd (by decide)
          · rcases indent with rfl | rfl <;> exact absurd high (by decide)
        · obtain ⟨ahead, d, behind, whole, offset, ink, -⟩ := token
          have here : InCharacter (fun c => !isSeparator c) text stop :=
            ⟨ahead, d, behind, whole, by simp [ink], by omega, by have := charWidth_pos d; omega⟩
          obtain ⟨c, isEnd, plain⟩ := (ending eq).both here
          rw [isSeparator_of_isLineEnd isEnd] at plain
          cases plain

/-! ## Leaves that erasure goes past -/

/-- An import statement whose clause is written anew. -/
structure RewritesClause (source : Bytes) (root statement clause : Tree) : Prop where
  reached : Reached root statement
  kind : statement.kind = .importStatement
  found : statement.children.find? (fun child => child.kind = .importClause) = some clause
  rewritten : importEdit? source (usedIn source root) statement =
    some ⟨clause.start, clause.stop, encode (keptBindings source (usedIn source root) clause).text⟩

/-- A leaf that no declaration writes anew: it is in none, or in an import that stays as it is, or beside the clause of one. -/
inductive Unwritten (source : Bytes) (root leaf : Tree) : Prop
  | outside (apart : ¬ InDeclaration root leaf)
  | unchanged {statement : Tree} (reached : Reached root statement) (kind : statement.kind = .importStatement)
      (mem : leaf ∈ statement.leaves) (stays : importEdit? source (usedIn source root) statement = none)
  | beside {statement clause : Tree} (rewrites : RewritesClause source root statement clause)
      (mem : leaf ∈ statement.leaves) (other : leaf ∉ clause.leaves)

/-- A leaf that no edit is about. -/
structure Unaffected (source : Bytes) (root leaf : Tree) : Prop where
  plain : ¬ InTypes root leaf
  unwritten : Unwritten source root leaf

theorem exists_mem_leaves (tree : Tree) : ∃ leaf, leaf ∈ tree.leaves := by
  induction tree using Tree.induction_on_children with
  | step tree below =>
    cases eq : tree.children with
    | nil => exact ⟨tree, by rw [Tree.leaves_of_children_eq_nil eq]; exact List.mem_cons_self⟩
    | cons child later =>
      obtain ⟨leaf, mem⟩ := below child (by simp [eq])
      refine ⟨leaf, ?_⟩
      rw [Tree.leaves_of_children_ne_nil (by simp [eq])]
      exact Tree.mem_leavesAll_iff.mpr ⟨child, by simp [eq], mem⟩

section Sites

variable (describes : root.Describes text) (found : .site site ∈ blocks (encodeChars text) [root] root)
  (eq : site.edit? (encodeChars text) (usedIn (encodeChars text) root) = some edit)
include describes found eq

/-- A site that holds such a leaf is an import whose clause is written anew beside it. -/
theorem Unaffected.of_site (unaffected : Unaffected (encodeChars text) root leaf) (mem : leaf ∈ site.leaves) :
    ∃ statement clause, site = .importing statement ∧ RewritesClause (encodeChars text) root statement clause ∧
      leaf ∉ clause.leaves := by
  have own {statement : Tree} (reached : Reached root statement) (kind : statement.kind = .importStatement)
      (inside : leaf ∈ statement.leaves) : site = .importing statement :=
    Site.eq_of_mem_leaves describes.placed describes.kind_eq found
      (mem_blocks_of_importStatement (encodeChars text) describes.shaped reached kind) mem inside
  cases unaffected.unwritten with
  | outside apart =>
    rcases inTypes_or_inDeclaration_of_met (Block.met_of_mem_blocks describes.kind_eq found) mem with ⟨-, inTypes⟩ | inside
    · exact absurd inTypes unaffected.plain
    · exact absurd inside apart
  | unchanged reached kind inside stays =>
    obtain rfl := own reached kind inside
    rw [Site.edit?, stays] at eq
    cases eq
  | @beside statement clause rewrites inside other =>
    exact ⟨statement, clause, own rewrites.reached rewrites.kind inside, rewrites, other⟩

/-- Such leaves are no whole site, -/
theorem Unaffected.not_whole (nonempty : ∃ leaf, leaf ∈ site.leaves)
    (unaffected : ∀ leaf ∈ site.leaves, Unaffected (encodeChars text) root leaf) : False := by
  obtain ⟨leaf, mem⟩ := nonempty
  obtain ⟨statement, clause, rfl, rewrites, -⟩ := (unaffected leaf mem).of_site describes found eq mem
  have member := List.mem_of_find?_eq_some rewrites.found
  obtain ⟨inner, innerMem⟩ := exists_mem_leaves clause
  have inSite : inner ∈ statement.leaves := by
    rw [Tree.leaves_of_children_ne_nil (List.ne_nil_of_mem member)]
    exact Tree.mem_leavesAll_iff.mpr ⟨clause, member, innerMem⟩
  obtain ⟨other, otherClause, same, rewrites', notMem⟩ := (unaffected inner inSite).of_site describes found eq inSite
  cases same
  cases rewrites.found.symm.trans rewrites'.found
  exact notMem innerMem

/-- and no whole clause that is written anew. -/
theorem Unaffected.not_clause {statement clause : Tree} (importing : site = .importing statement)
    (has : statement.children.find? (fun child => child.kind = .importClause) = some clause)
    (unaffected : ∀ leaf ∈ clause.leaves, Unaffected (encodeChars text) root leaf) : False := by
  have member := List.mem_of_find?_eq_some has
  obtain ⟨inner, mem⟩ := exists_mem_leaves clause
  have inSite : inner ∈ site.leaves := by
    rw [importing]
    change inner ∈ statement.leaves
    rw [Tree.leaves_of_children_ne_nil (List.ne_nil_of_mem member)]
    exact Tree.mem_leavesAll_iff.mpr ⟨clause, member, mem⟩
  obtain ⟨other, otherClause, same, rewrites, notMem⟩ := (unaffected inner mem).of_site describes found eq inSite
  cases importing.symm.trans same
  cases has.symm.trans rewrites.found
  exact notMem mem

end Sites

/-! ## Edits beside a passage -/

/-- A comment or a literal that no edit is about. No assertion stands in it, and nothing of it goes along with a construct
beside it. -/
structure Stays (source : Bytes) (root item : Tree) : Prop where
  unaffected : ∀ leaf ∈ item.leaves, Unaffected source root leaf
  alone : ∀ leaf ∈ item.leaves, ∀ position, ¬ Along source root leaf position
  plain : ∀ inner ∈ item.preorder, isAssertion inner.kind = false

/-- A tree that begins inside another one stands in it. -/
theorem mem_preorder_of_within (placed : root.Placed) (inside : item ∈ root.preorder) (mem : tree ∈ root.preorder)
    (nonempty : tree.start < tree.stop) (after : item.start < tree.start) (before : tree.start < item.stop) :
    tree ∈ item.preorder := by
  rcases placed.nested_or_apart mem inside with nested | nested | apart | apart
  · exact nested
  · have := ((placed.inner mem).1.inner nested).2.1
    omega
  · omega
  · omega

theorem leaves_subset (mem : tree ∈ item.preorder) : ∀ leaf ∈ tree.leaves, leaf ∈ item.leaves :=
  fun _ => mem_leaves_of_mem_preorder mem

/-- At a token that begins inside a tree stands a leaf of that. -/
theorem exists_leaf_at (describes : root.Describes text) (inside : item ∈ root.preorder) (begins : BeginsToken text position)
    (after : item.start ≤ position) (before : position < item.stop) :
    ∃ leaf ∈ item.leaves, leaf ∈ root.leaves ∧ Ink (encodeChars text) leaf position := by
  obtain ⟨front, c, back, split, offset, ink, -⟩ := begins
  have wide := charWidth_pos c
  have bound : position < width text := by
    rw [split, width_append, width_cons]
    omega
  rcases describes.filled position bound with ⟨leaf, mem, covers⟩ | blank
  · have within : leaf ∈ item.leaves := by
      obtain ⟨begins, ends⟩ := covers
      rcases describes.placed.mem_leaves_or_apart inside mem with mem | apart | apart
      · exact mem
      · omega
      · omega
    refine ⟨leaf, within, mem, covers, fun byte at_ => ?_⟩
    obtain ⟨other, found, dark⟩ := dark_of_ink split ink (show width front ≤ position by omega) (by omega)
    rw [found] at at_
    cases at_
    exact dark
  · have here : InCharacter (fun c => !isSeparator c) text position := ⟨front, c, back, split, by simp [ink], by omega, by omega⟩
    obtain ⟨d, separator, plain⟩ := blank.both here
    rw [separator] at plain
    cases plain

/-- A range that takes the lines of a statement leads to it. -/
theorem leads_of_statementRemoval (ordered : tree.start ≤ tree.stop) (le : tree.stop ≤ (encodeChars text).length) :
    Leads text (statementRemoval (encodeChars text) tree).start tree.start := by
  have own := ownLines_lineRange ordered le
  have same : (statementRemoval (encodeChars text) tree).start = (lineRange (encodeChars text) tree.start tree.stop).1 := rfl
  rw [same]
  rcases own.begins with here | line
  · exact .here here
  · exact .line own.front.blank line

section Beginnings

variable (describes : root.Describes text) (inside : item ∈ root.preorder)
include describes inside

/-- What a range leads to that begins inside a passage stands in that passage. -/
theorem mem_preorder_of_leads {first : Nat} (sealed : item.Sealed text) (after : item.start < first) (before : first < item.stop)
    (mem : tree ∈ root.preorder) (nonempty : tree.start < tree.stop) (le : first ≤ tree.start)
    (leads : Leads text first tree.start) : tree ∈ item.preorder :=
  mem_preorder_of_within describes.placed inside mem nonempty (by omega) (lt_of_leads sealed.closed leads after before)

/-- No assertion ends inside a passage that stays. -/
theorem Stays.stop_not_within (stays : Stays (encodeChars text) root item) {parent expression : Tree}
    (outer : parent ∈ root.preorder) (assertion : isAssertion parent.kind = true) (member : expression ∈ parent.children)
    (after : item.start < expression.stop) (before : expression.stop < item.stop) : False := by
  have inner := (describes.placed.inner outer).1.children
  have bounds := inner.bounds member
  rcases describes.placed.nested_or_apart inside outer with nested | nested | apart | apart
  · rcases Tree.mem_preorder_iff.mp nested with rfl | ⟨child, childMember, nested⟩
    · rw [stays.plain item (Tree.mem_preorder_self item)] at assertion
      cases assertion
    · have own := (inner.placed childMember).inner nested
      rcases inner.apart child childMember expression member with rfl | front | back <;> omega
  · rw [stays.plain parent nested] at assertion
    cases assertion
  · omega
  · omega

end Beginnings

section Sites

variable (describes : root.Describes text) (stays : Stays (encodeChars text) root item)
  (found : .site site ∈ blocks (encodeChars text) [root] root)
  (eq : site.edit? (encodeChars text) (usedIn (encodeChars text) root) = some edit)
include describes stays found eq

/-- No tree in a passage that stays is a site. -/
theorem Stays.not_site (mem : tree ∈ item.preorder) (leaves : site.leaves = tree.leaves) : False := by
  refine Unaffected.not_whole describes found eq ?_ fun leaf own => stays.unaffected leaf ?_
  · rw [leaves]
    exact exists_mem_leaves tree
  · exact leaves_subset mem leaf (leaves ▸ own)

/-- No element that is removed from its list has its range begin inside a passage that stays: neither the element nor the
comma that goes along with it stands there. -/
theorem Stays.not_element {parent : Tree} {first last : Nat} (inside : item ∈ root.preorder) (sealed : item.Sealed text)
    (outer : parent ∈ root.preorder) (member : tree ∈ parent.children)
    (element : ((tree.kind = .exportSpecifier && tree.hasToken "type") || isThisParameter tree) = true)
    (leaves : site.leaves = tree.leaves) (same : edit = .removal first last)
    (range : elementRange (encodeChars text) parent.children tree = (first, last))
    (taken : edit ∈ appliedEdits (encodeChars text) root) (after : item.start < edit.start) (before : edit.start < item.stop) :
    False := by
  subst same
  have notComment := Site.isComment_of_element element
  have inner := describes.placed.inner outer
  have widened := lineWidened_elementRange inner.1.children member notComment (Nat.le_trans inner.2.2 describes.stop_le)
  rw [range] at widened
  have leads : Leads text first (tree.stretch parent.children).1 := by
    rcases widened.begins with here | line
    · exact .here here
    · exact .line widened.front line
  have front := widened.start_le
  have within {other : Tree} (member : other ∈ parent.children) (le : first ≤ other.start)
      (leads : Leads text first other.start) : other ∈ item.preorder :=
    mem_preorder_of_leads describes inside sealed after before (Tree.mem_preorder_of_mem_children outer member)
      (describes.placed.child outer member).2.1 le leads
  cases comma : tree.listComma? parent.children with
  | none =>
    rw [Tree.stretch, comma] at leads front
    exact stays.not_site describes found eq (within member front leads) leaves
  | some sibling =>
    rw [Tree.stretch, comma] at leads front
    dsimp only at leads front
    rcases Nat.le_total tree.start sibling.start with ahead | ahead
    · rw [Nat.min_eq_left ahead] at leads front
      exact stays.not_site describes found eq (within member front leads) leaves
    · rw [Nat.min_eq_right ahead] at leads front
      have about : isTypeConstruct tree = true := by
        rw [isTypeConstruct, element]
        simp
      have siblingMember := inner.1.children.mem_of_listComma? member notComment comma
      have nested := within siblingMember front leads
      have kind : sibling.kind = .token "," := of_decide_eq_true (inner.1.children.isComma_of_listComma? member notComment comma)
      have childless := (describes.shaped sibling (Tree.mem_preorder_of_mem_children outer siblingMember)).children_eq_nil
        (by rw [kind]; rfl)
      refine stays.alone sibling (leaves_subset nested sibling ?_) 0 (.comma outer member about comma (by rwa [range]))
      rw [Tree.leaves_of_children_eq_nil childless]
      exact List.mem_cons_self

end Sites

/-- No edit of a site begins inside a passage that stays. -/
theorem Stays.not_within (describes : root.Describes text)
    (begins : ∀ tree ∈ root.preorder, tree.kind.isInked = true → BeginsToken text tree.start)
    (stays : Stays (encodeChars text) root item) (inside : item ∈ root.preorder) (sealed : item.Sealed text)
    (found : .site site ∈ blocks (encodeChars text) [root] root)
    (eq : site.edit? (encodeChars text) (usedIn (encodeChars text) root) = some edit)
    (taken : edit ∈ appliedEdits (encodeChars text) root) (after : item.start < edit.start) (before : edit.start < item.stop) :
    False := by
  have within {tree : Tree} (mem : tree ∈ root.preorder) (nonempty : tree.start < tree.stop) (le : edit.start ≤ tree.start)
      (leads : Leads text edit.start tree.start) : tree ∈ item.preorder :=
    mem_preorder_of_leads describes inside sealed after before mem nonempty le leads
  have whole {tree : Tree} (mem : tree ∈ item.preorder) (leaves : site.leaves = tree.leaves) : False :=
    stays.not_site describes found eq mem leaves
  cases Block.met_of_mem_blocks describes.kind_eq found with
  | @whole parent tree _ outer member site =>
    have mem := Tree.mem_preorder_of_mem_children outer member
    have bounds := describes.placed.child outer member
    have fits := Nat.le_trans bounds.2.2 describes.stop_le
    have removal (same : edit = statementRemoval (encodeChars text) tree) : tree ∈ item.preorder := by
      have ordered := Nat.le_of_lt bounds.2.1
      have leads := leads_of_statementRemoval ordered fits
      rw [← same] at leads
      refine within mem bounds.2.1 ?_ leads
      rw [same]
      exact (widened_statementRemoval ordered fits).start_le
    cases site with
    | exact =>
      cases eq
      exact whole (within mem bounds.2.1 (Nat.le_refl _) (.here rfl)) rfl
    | enumeration =>
      cases eq
      exact whole (within mem bounds.2.1 (Nat.le_refl _) (.here rfl)) rfl
    | clause kind =>
      cases eq
      refine whole (within mem bounds.2.1 (Nat.sub_le _ _) (.blanks ?_ ?_)) rfl
      · exact fun position after before => accepted_before (by omega) after before
      · exact begins tree mem (by rw [kind]; rfl)
    | statement =>
      cases eq
      exact whole (removal rfl) rfl
    | importing kind =>
      have fate := importFate (encodeChars text) (usedIn (encodeChars text) root) tree
      have judged : importEdit? (encodeChars text) (usedIn (encodeChars text) root) tree = some edit := eq
      rw [judged] at fate
      cases fate with
      | typed => exact whole (removal rfl) rfl
      | dropped => exact whole (removal rfl) rfl
      | @rewritten clause _ has =>
        have clauseMember := List.mem_of_find?_eq_some has
        have clauseMem := Tree.mem_preorder_of_mem_children mem clauseMember
        have clauseBounds := describes.placed.child mem clauseMember
        have nested := within clauseMem clauseBounds.2.1 (Nat.le_refl _) (.here rfl)
        exact Unaffected.not_clause describes found eq rfl has fun leaf own => stays.unaffected leaf (leaves_subset nested leaf own)
    | element element =>
      cases eq
      exact stays.not_element describes found rfl inside sealed outer member element rfl rfl rfl taken after before
  | @tail parent expression others outer assertion children =>
    cases eq
    have member : expression ∈ parent.children := children ▸ List.mem_cons_self
    exact stays.stop_not_within describes inside outer assertion member after before
  | @marker parent child outer _ member marker =>
    cases eq
    have mem := Tree.mem_preorder_of_mem_children outer member
    exact whole (within mem (describes.placed.child outer member).2.1 (Nat.le_refl _) (.here rfl)) rfl

theorem eq_or_sizeOf_lt_of_mem_preorder : ∀ tree : Tree, ∀ inner ∈ tree.preorder, inner = tree ∨ sizeOf inner < sizeOf tree := by
  intro tree
  induction tree using Tree.induction_on_children with
  | step tree below =>
    intro inner mem
    rcases Tree.mem_preorder_iff.mp mem with rfl | ⟨child, member, mem⟩
    · exact .inl rfl
    · have smaller : sizeOf child < sizeOf tree := by
        obtain ⟨kind, role, start, stop, children⟩ := tree
        have := List.sizeOf_lt_of_mem member
        simp only [Tree.children] at this
        simp only [Tree.node.sizeOf_spec]
        omega
      rcases below child member inner mem with rfl | lt
      · exact .inr smaller
      · exact .inr (Nat.lt_trans lt smaller)

/-- Two trees that stand in each other are one. -/
theorem eq_of_mem_preorder {inner : Tree} (mem : inner ∈ tree.preorder) (back : tree ∈ inner.preorder) : inner = tree := by
  rcases eq_or_sizeOf_lt_of_mem_preorder tree inner mem with same | lt
  · exact same
  · rcases eq_or_sizeOf_lt_of_mem_preorder inner tree back with rfl | gt
    · rfl
    · omega

/-- Where a tree holds a child of another one, it holds that one, or it is the child. -/
theorem mem_preorder_of_child {parent child : Tree} (placed : root.Placed) (inside : item ∈ root.preorder)
    (outer : parent ∈ root.preorder) (member : child ∈ parent.children) (mem : child ∈ item.preorder) :
    child = item ∨ parent ∈ item.preorder := by
  have inner := (placed.inner outer).1.children
  have bounds := inner.bounds member
  have within := (placed.inner inside).1.inner mem
  rcases placed.nested_or_apart inside outer with nested | nested | apart | apart
  · rcases Tree.mem_preorder_iff.mp nested with rfl | ⟨sibling, siblingMember, nested⟩
    · exact .inr (Tree.mem_preorder_self _)
    · have own := (inner.placed siblingMember).inner nested
      rcases inner.apart child member sibling siblingMember with rfl | front | back
      · exact .inl (eq_of_mem_preorder mem nested)
      · omega
      · omega
  · exact .inr nested
  · omega
  · omega

/-- A constructor that assigns properties has a modifier among its parameters. -/
theorem exists_marker_of_assignProperties {source : Bytes} {method : Tree} (inside : method ∈ root.preorder)
    (mem : edit ∈ (assignProperties source method).edits) : ∃ leaf ∈ method.leaves, InTypes root leaf := by
  obtain ⟨body, found, -⟩ := exists_of_mem_assignProperties mem
  cases foundParameters : method.child? .parameters with
  | none =>
    rw [assignProperties, foundParameters] at mem
    cases mem
  | some parameters =>
    have own := exists_assignProperties foundParameters found (declares_filterMap source parameters.children)
    split at own
    · rw [own] at mem
      cases mem
    · next some_ =>
      obtain ⟨name, nameMem⟩ := List.exists_mem_of_ne_nil _ some_
      obtain ⟨parameter, member, declares⟩ := List.mem_filterMap.mp nameMem
      obtain ⟨isParameter, ⟨child, childMember, modifies⟩, -⟩ := propertyName?_eq_some_iff.mp declares
      have parametersMember : parameters ∈ method.children := List.mem_of_find?_eq_some foundParameters
      have parametersInside := Tree.mem_preorder_of_mem_children (Tree.mem_preorder_self method) parametersMember
      have parameterInside := Tree.mem_preorder_of_mem_children parametersInside member
      have kinds : parameter.kind = .requiredParameter ∨ parameter.kind = .optionalParameter := by
        simpa [Erasure.isParameter] using isParameter
      have marker : isMarker parameter.kind child = true := by
        rcases modifies with modifier | readonly
        · cases kind : child.kind with
          | token word => simp [kind, isModifier] at modifier
          | _ => simpa [isMarker, kind] using modifier
        · rcases kinds with kind | kind <;> simp [isMarker, readonly, kind, markers]
      have plain : isAssertion parameter.kind = false := by
        rcases kinds with kind | kind <;> rw [kind] <;> rfl
      obtain ⟨leaf, leafMem⟩ := exists_mem_leaves child
      refine ⟨leaf, ?_, .marker (Tree.mem_preorder_trans inside parameterInside) plain childMember marker leafMem⟩
      exact mem_leaves_of_mem_preorder (Tree.mem_preorder_of_mem_children parameterInside childMember) leafMem

/-- The assignments of a constructor go beside a passage that stays. -/
theorem Stays.apart_of_constructor {method : Tree} (describes : root.Describes text)
    (stays : Stays (encodeChars text) root item) (inside : item ∈ root.preorder) (sealed : item.Sealed text)
    (isPassage : item.kind.isPassage = true) (outer : method ∈ root.preorder) (block : method.HasBlock text)
    (constructor : isConstructor (encodeChars text) method = true)
    (mem : edit ∈ (assignProperties (encodeChars text) method).edits) :
    item.stop ≤ edit.start ∨ edit.stop ≤ item.start := by
  obtain ⟨body, member, names, isBlock, inserts⟩ := inserts_of_constructor constructor block mem
  have bodyInside := Tree.mem_preorder_of_mem_children outer member
  have bodyPlaced := (describes.placed.inner bodyInside).1
  obtain ⟨bounds, ⟨last, lastMember, ends⟩, -⟩ := inserts.inside isBlock bodyPlaced
  have other : item ≠ body := by
    rintro rfl
    rw [isBlock.kind_eq] at isPassage
    cases isPassage
  rcases describes.placed.nested_or_apart inside bodyInside with nested | nested | apart | apart
  · rcases Tree.mem_preorder_iff.mp nested with same | ⟨child, childMember, nested⟩
    · exact absurd same other
    · have own := (bodyPlaced.children.placed childMember).inner nested
      rcases bodyPlaced.children.apart child childMember last lastMember with rfl | front | back
      · omega
      · have := bodyPlaced.children.bounds lastMember
        omega
      · -- white space behind the brace is taken at most
        have blank := (fits_of_mem_assignProperties describes.placed describes.shaped describes.stop_le outer constructor mem).2
        rcases (dark_of_beginsToken sealed.begins).1.not_blank blank with front | back <;> omega
  · -- a passage around the body holds the modifier of a parameter
    rcases mem_preorder_of_child describes.placed inside outer member nested with same | around
    · exact absurd same.symm other
    · obtain ⟨leaf, leafMem, inTypes⟩ := exists_marker_of_assignProperties outer mem
      exact absurd inTypes (stays.unaffected leaf (leaves_subset around leaf leafMem)).plain
  · omega
  · omega

/-- All applied edits lie beside a passage that stays. -/
theorem Stays.apart {dialect : Dialect} (parsed : dialect.parse (encodeChars text) = .ok root)
    (stays : Stays (encodeChars text) root item) (inside : item ∈ root.preorder) (isPassage : item.kind.isPassage = true)
    (taken : edit ∈ appliedEdits (encodeChars text) root) : item.stop ≤ edit.start ∨ edit.stop ≤ item.start := by
  have describes := Dialect.describes_of_parse parsed
  have sealed := (edged_of_parse parsed inside).closes isPassage
  rcases mem_erasureEdits_iff.mp (mem_of_mem_applied taken) with ⟨site, found, eq⟩ | ⟨method, found, member⟩
  · have nonempty : item.start < item.stop := by
      rcases describes.eq_or_start_lt_stop inside with rfl | bounds
      · rw [describes.kind_eq] at isPassage
        cases isPassage
      · exact bounds.1
    by_contra meets
    rw [not_or, Nat.not_le, Nat.not_le] at meets
    rcases Nat.lt_or_ge item.start edit.start with after | before
    · exact stays.not_within describes (fun tree mem => (edged_of_parse parsed mem).begins) inside sealed found eq taken after
        meets.1
    · -- the edit takes the first byte of the passage
      have covers : edit.Covers item.start := ⟨before, meets.2⟩
      obtain ⟨leaf, leafMem, leafInside, ink⟩ := exists_leaf_at describes inside sealed.begins (Nat.le_refl _) nonempty
      rcases own_or_along describes leafInside ink taken covers with ⟨other, otherFound, otherEq, mem⟩ | along
      · obtain ⟨statement, clause, rfl, rewrites, notMem⟩ := (stays.unaffected leaf leafMem).of_site describes otherFound otherEq mem
        have clauseInside := Tree.mem_preorder_of_mem_children rewrites.reached.mem_preorder
          (List.mem_of_find?_eq_some rewrites.found)
        have same : some edit = some (Edit.mk _ _ _) := otherEq.symm.trans rewrites.rewritten
        cases same
        obtain ⟨begins, ends⟩ := ink.covers
        obtain ⟨front, back⟩ : clause.start ≤ item.start ∧ item.start < clause.stop := covers
        rcases describes.placed.mem_leaves_or_apart clauseInside leafInside with mem | apart | apart
        · exact notMem mem
        · omega
        · omega
      · exact stays.alone leaf leafMem _ along
  · cases Block.met_of_mem_blocks describes.kind_eq found with
    | constructor outer constructor =>
      exact stays.apart_of_constructor describes inside sealed isPassage outer (hasBlock_of_parse parsed outer) constructor member

end Scaffold.Erasure
