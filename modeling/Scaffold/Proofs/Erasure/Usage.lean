import Scaffold.Proofs.Erasure.Sites

/-! # The names that a file uses

The walk reaches what is neither about types nor within an import or an enumeration. The names it counts as
used are those of the tokens that it reaches, and those in the values of the enumerations that it reaches,
unless the value is a string or a template.
-/

namespace Scaffold.Erasure

open Scaffold.Text Scaffold.Syntax

/-- A tree that the walk does not enter. -/
def isClosed (tree : Tree) : Bool :=
  isTypeConstruct tree || tree.kind = .importStatement || tree.kind = .enumDeclaration

/-- A tree that the walk comes to: it lies in no tree that is closed, it is no word about types, and it does
not stand behind the expression of an assertion. -/
inductive Reached (root : Tree) : Tree → Prop
  | root : Reached root root
  | expression {parent child : Tree} {others : List Tree} (reached : Reached root parent)
      (entered : isClosed parent = false) (assertion : isAssertion parent.kind = true)
      (children : parent.children = child :: others) : Reached root child
  | child {parent child : Tree} (reached : Reached root parent) (entered : isClosed parent = false)
      (plain : isAssertion parent.kind = false) (member : child ∈ parent.children)
      (unmarked : isMarker parent.kind child = false) : Reached root child

theorem Reached.mem_preorder {root tree : Tree} (reached : Reached root tree) : tree ∈ root.preorder := by
  induction reached with
  | root => exact Tree.mem_preorder_self root
  | expression _ _ _ children inside => exact Tree.mem_preorder_of_mem_children inside (children ▸ List.mem_cons_self)
  | child _ _ _ member _ inside => exact Tree.mem_preorder_of_mem_children inside member

theorem WholeSite.isClosed {siblings : List Tree} {tree : Tree} {site : Site} (whole : WholeSite siblings tree site) :
    isClosed tree = true := by
  cases whole with
  | exact about => simp [Erasure.isClosed, isTypeConstruct, about]
  | clause kind | importing kind | enumeration kind => simp [Erasure.isClosed, isTypeConstruct, kind]
  | statement about | element about =>
    rw [Erasure.isClosed, isTypeConstruct, about]
    simp

theorem wholeSite?_eq_none_iff {siblings : List Tree} {tree : Tree} :
    wholeSite? siblings tree = none ↔ isClosed tree = false := by
  constructor
  · intro plain
    obtain ⟨about, notImport, notEnum⟩ := wholeSite?_eq_none plain
    simp [isClosed, about, notImport, notEnum]
  · intro entered
    simp only [isClosed, isTypeConstruct, Bool.or_eq_false_iff, decide_eq_false_iff_not] at entered
    simp [wholeSite?, entered]

theorem wholeSite?_of_enumDeclaration (siblings : List Tree) {tree : Tree} (kind : tree.kind = .enumDeclaration) :
    wholeSite? siblings tree = some (.enumeration tree) := by
  simp [wholeSite?, kind, isTypeSyntax, isTypeStatement, isAmbientField, isTypeExport, isThisParameter]

theorem wholeSite?_of_importStatement (siblings : List Tree) {tree : Tree} (kind : tree.kind = .importStatement) :
    wholeSite? siblings tree = some (.importing tree) := by
  simp [wholeSite?, kind, isTypeSyntax, isTypeStatement, isAmbientField, isTypeExport]

theorem mem_blocks_of_expression {source : Bytes} {siblings others : List Tree} {tree child : Tree} {block : Block}
    (entered : isClosed tree = false) (assertion : isAssertion tree.kind = true)
    (children : tree.children = child :: others) (mem : block ∈ blocks source tree.children child) :
    block ∈ blocks source siblings tree := by
  have layout := layout_blocks source siblings tree
  generalize blocks source siblings tree = found at layout ⊢
  cases layout with
  | whole whole =>
    have closed := whole.isClosed
    rw [entered] at closed
    cases closed
  | token simple => simp [children, not_isValueName_of_isAssertion assertion] at simple
  | assertion _ same =>
    rw [children] at same
    cases same
    exact List.mem_cons_of_mem _ mem
  | construct _ plain =>
    rw [assertion] at plain
    cases plain

theorem mem_blocks_of_child {source : Bytes} {siblings : List Tree} {tree child : Tree} {block : Block}
    (entered : isClosed tree = false) (plain : isAssertion tree.kind = false) (shaped : tree.WellShaped)
    (member : child ∈ tree.children) (mem : block ∈ blocksOfChild source tree.kind tree.children child) :
    block ∈ blocks source siblings tree := by
  have layout := layout_blocks source siblings tree
  generalize blocks source siblings tree = found at layout ⊢
  cases layout with
  | whole whole =>
    have closed := whole.isClosed
    rw [entered] at closed
    cases closed
  | token simple =>
    have childless : tree.children = [] := by
      rcases simple with childless | valueName
      · exact childless
      · exact shaped.children_eq_nil (isComposite_of_isValueName valueName)
    simp [childless] at member
  | assertion assertion =>
    rw [plain] at assertion
    cases assertion
  | construct => exact List.mem_append_right _ (List.mem_flatMap.mpr ⟨child, member, mem⟩)

/-- The blocks of a tree that the walk reaches are blocks of the file. -/
theorem blocks_subset (source : Bytes) {root tree : Tree} (shaped : root.Everywhere Tree.WellShaped)
    (reached : Reached root tree) : ∃ siblings, blocks source siblings tree ⊆ blocks source [root] root := by
  induction reached with
  | root => exact ⟨[root], List.Subset.refl _⟩
  | @expression parent child others _ entered assertion children subset =>
    obtain ⟨siblings, subset⟩ := subset
    exact ⟨parent.children, fun block mem => subset (mem_blocks_of_expression entered assertion children mem)⟩
  | @child parent child reached entered plain member unmarked subset =>
    obtain ⟨siblings, subset⟩ := subset
    refine ⟨parent.children, fun block mem => subset ?_⟩
    apply mem_blocks_of_child entered plain (shaped parent reached.mem_preorder) member
    rwa [blocksOfChild, if_neg (Bool.eq_false_iff.mp unmarked)]

/-- The tree of a token, an import or an enumeration among the blocks is reached. -/
def Block.Stands (root : Tree) : Block → Prop
  | token tree => Reached root tree
  | .site (.importing tree) => Reached root tree ∧ tree.kind = .importStatement
  | .site (.enumeration tree) => Reached root tree ∧ tree.kind = .enumDeclaration
  | _ => True

private theorem stands_of_mem (source : Bytes) {root tree : Tree} (siblings : List Tree) (reached : Reached root tree) :
    ∀ block ∈ blocks source siblings tree, block.Stands root := by
  induction tree using Tree.induction_on_children generalizing siblings with
  | step tree inner =>
    cases found : wholeSite? siblings tree with
    | some site =>
      rw [blocks_of_wholeSite? source found]
      intro block mem
      rw [List.mem_singleton.mp mem]
      cases WholeSite.of_wholeSite? found with
      | importing kind | enumeration kind => exact ⟨reached, kind⟩
      | _ => trivial
    | none =>
      have entered := wholeSite?_eq_none_iff.mp found
      have layout := layout_blocks source siblings tree
      generalize blocks source siblings tree = found at layout ⊢
      intro block mem
      cases layout with
      | whole whole =>
        have closed := whole.isClosed
        rw [entered] at closed
        cases closed
      | token simple => exact List.mem_singleton.mp mem ▸ reached
      | assertion assertion children =>
        rcases List.mem_cons.mp mem with rfl | mem
        · trivial
        · exact inner _ (children ▸ List.mem_cons_self) tree.children
            (.expression reached entered assertion children) block mem
      | construct _ plain constructor =>
        rcases List.mem_append.mp mem with mem | mem
        · rcases constructor with rfl | ⟨rfl, -⟩
          · cases mem
          · rw [List.mem_singleton.mp mem]
            trivial
        · obtain ⟨child, member, mem⟩ := List.mem_flatMap.mp mem
          unfold blocksOfChild at mem
          split at mem
          · rw [List.mem_singleton.mp mem]
            trivial
          · next unmarked =>
            exact inner child member tree.children
              (.child reached entered plain member (Bool.eq_false_iff.mpr unmarked)) block mem

theorem Block.stands_of_mem_blocks {source : Bytes} {root : Tree} {block : Block}
    (mem : block ∈ blocks source [root] root) : block.Stands root :=
  stands_of_mem source [root] .root block mem

theorem mem_blocks_of_importStatement (source : Bytes) {root tree : Tree} (shaped : root.Everywhere Tree.WellShaped)
    (reached : Reached root tree) (kind : tree.kind = .importStatement) :
    .site (.importing tree) ∈ blocks source [root] root := by
  obtain ⟨siblings, subset⟩ := blocks_subset source shaped reached
  rw [blocks_of_wholeSite? source (wholeSite?_of_importStatement siblings kind)] at subset
  exact subset List.mem_cons_self

theorem mem_blocks_of_enumDeclaration (source : Bytes) {root tree : Tree} (shaped : root.Everywhere Tree.WellShaped)
    (reached : Reached root tree) (kind : tree.kind = .enumDeclaration) :
    .site (.enumeration tree) ∈ blocks source [root] root := by
  obtain ⟨siblings, subset⟩ := blocks_subset source shaped reached
  rw [blocks_of_wholeSite? source (wholeSite?_of_enumDeclaration siblings kind)] at subset
  exact subset List.mem_cons_self

theorem mem_blocks_of_isValueName {source : Bytes} {root tree : Tree} (shaped : root.Everywhere Tree.WellShaped)
    (reached : Reached root tree) (valueName : isValueName tree.kind = true) :
    .token tree ∈ blocks source [root] root := by
  obtain ⟨siblings, subset⟩ := blocks_subset source shaped reached
  have childless := (shaped tree reached.mem_preorder).children_eq_nil (isComposite_of_isValueName valueName)
  apply subset
  have layout := layout_blocks source siblings tree
  generalize blocks source siblings tree = found at layout ⊢
  cases layout with
  | whole whole =>
    have closed := whole.isClosed
    simp only [isValueName, Bool.or_eq_true, decide_eq_true_eq] at valueName
    rcases valueName with kind | kind <;>
      simp [isClosed, isTypeConstruct, kind, isTypeSyntax, isTypeStatement, isAmbientField, isTypeExport,
        isThisParameter] at closed
  | token => exact List.mem_cons_self
  | assertion _ children => simp [childless] at children
  | construct inner => exact absurd childless inner

/-! ## What is counted -/

/-- The members of an enumeration. -/
def enumerationMembers (tree : Tree) : List Tree := ((tree.child? .body).map Tree.parts).getD []

/-- A member of an enumeration with a value. -/
structure Initialised (root enumeration value : Tree) : Prop where
  reached : Reached root enumeration
  kind : enumeration.kind = .enumDeclaration
  value : ∃ member ∈ enumerationMembers enumeration, (memberParts member).2 = some value

/-- A value that is a string or a template. -/
def isText (value : Tree) : Bool := value.kind = .string || value.kind = .templateString

/-- A name is counted as used. -/
inductive Counted (source : Bytes) (root : Tree) (name : String) : Prop
  | token {tree : Tree} (reached : Reached root tree) (valueName : isValueName tree.kind = true)
      (text : tree.text source = name)
  | value {enumeration value tree : Tree} (initialised : Initialised root enumeration value)
      (plain : isText value = false) (inside : tree ∈ value.preorder) (valueName : isValueName tree.kind = true)
      (text : tree.text source = name)

theorem used_assignProperties (source : Bytes) (method : Tree) : (assignProperties source method).used = [] := by
  unfold assignProperties
  split
  · dsimp only
    split <;> rfl
  · rfl

theorem mem_usedNames_iff {source : Bytes} {tree : Tree} {name : String} :
    name ∈ usedNames source tree ↔
      ∃ inner ∈ tree.preorder, isValueName inner.kind = true ∧ inner.text source = name := by
  simp [usedNames, List.mem_map, List.mem_filter, and_assoc]

theorem mem_memberNames_iff {source : Bytes} {member : Tree} {name : String} :
    name ∈ memberNames source member ↔ ∃ value, (memberParts member).2 = some value ∧ isText value = false ∧
      ∃ inner ∈ value.preorder, isValueName inner.kind = true ∧ inner.text source = name := by
  unfold memberNames
  split
  · next value found =>
    change name ∈ (if isText value = true then [] else usedNames source value) ↔ _
    simp only [found, Option.some.injEq, exists_eq_left']
    split
    · next text => simp [text]
    · next plain => simp [plain, mem_usedNames_iff]
  · next missing => simp [missing]

/-- The names that are used in a file are those that are counted. -/
theorem mem_usedIn_iff {source : Bytes} {root : Tree} (shaped : root.Everywhere Tree.WellShaped) {name : String} :
    name ∈ usedIn source root ↔ Counted source root name := by
  rw [usedIn, walk_eq_allFindings, used_allFindings, List.mem_flatMap]
  constructor
  · rintro ⟨block, found, mem⟩
    have stands := Block.stands_of_mem_blocks found
    cases block with
    | token tree =>
      change name ∈ (if isValueName tree.kind = true then (⟨[], [tree.text source], []⟩ : Findings) else .empty).used at mem
      split at mem
      · next valueName => exact .token stands valueName (List.mem_singleton.mp mem).symm
      · cases mem
    | constructor method =>
      rw [Block.findings, used_assignProperties] at mem
      cases mem
    | site site =>
      cases site with
      | enumeration tree =>
        obtain ⟨member, inside, mem⟩ := List.mem_flatMap.mp mem
        obtain ⟨value, initial, plain, inner, innerInside, valueName, text⟩ := mem_memberNames_iff.mp mem
        exact .value ⟨stands.1, stands.2, member, inside, initial⟩ plain innerInside valueName text
      | _ => cases mem
  · intro counted
    cases counted with
    | @token tree reached valueName text =>
      refine ⟨_, mem_blocks_of_isValueName shaped reached valueName, ?_⟩
      change name ∈ (if isValueName tree.kind = true then (⟨[], [tree.text source], []⟩ : Findings) else .empty).used
      rw [if_pos valueName]
      exact List.mem_singleton.mpr text.symm
    | @value enumeration value tree initialised plain inside valueName text =>
      obtain ⟨reached, kind, member, memberInside, initial⟩ := initialised
      refine ⟨_, mem_blocks_of_enumDeclaration source shaped reached kind, List.mem_flatMap.mpr ⟨member, memberInside, ?_⟩⟩
      exact mem_memberNames_iff.mpr ⟨value, initial, plain, tree, inside, valueName, text⟩

end Scaffold.Erasure
