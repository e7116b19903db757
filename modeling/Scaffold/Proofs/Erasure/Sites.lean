import Scaffold.Proofs.Erasure.Edits

/-! # Where the leaves of a file lie

A leaf lies in a construct of types, in an import or an enumeration, or outside all sites of the file. It
lies in one site at most, and apart from all the others.
-/

namespace Scaffold.Erasure

open Scaffold.Text Scaffold.Syntax

/-! ## Constructs -/

/-- A leaf lies in a construct of types: one that is about types as a whole, a word or a mark about types,
or what follows the expression of an assertion. -/
inductive InTypes (root leaf : Tree) : Prop
  | construct {parent child : Tree} (inside : parent ∈ root.preorder) (member : child ∈ parent.children)
      (about : isTypeConstruct child = true) (mem : leaf ∈ child.leaves)
  | marker {parent child : Tree} (inside : parent ∈ root.preorder) (plain : isAssertion parent.kind = false)
      (member : child ∈ parent.children) (marker : isMarker parent.kind child = true) (mem : leaf ∈ child.leaves)
  | tail {parent expression : Tree} {others : List Tree} (inside : parent ∈ root.preorder)
      (assertion : isAssertion parent.kind = true) (children : parent.children = expression :: others)
      (mem : leaf ∈ Tree.leavesAll others)

/-- A leaf lies in an import or in an enumeration. -/
def InDeclaration (root leaf : Tree) : Prop :=
  ∃ declaration ∈ root.preorder,
    (declaration.kind = .importStatement ∨ declaration.kind = .enumDeclaration) ∧ leaf ∈ declaration.leaves

theorem mem_leaves_of_mem_preorder {root inner leaf : Tree} (inside : inner ∈ root.preorder) (mem : leaf ∈ inner.leaves) :
    leaf ∈ root.leaves := by
  induction root using Tree.induction_on_children with
  | step root below =>
    rcases Tree.mem_preorder_iff.mp inside with rfl | ⟨child, member, inside⟩
    · exact mem
    · rw [Tree.leaves_of_children_ne_nil (List.ne_nil_of_mem member), Tree.mem_leavesAll_iff]
      exact ⟨child, member, below child member inside⟩

theorem isComposite_of_isValueName {kind : Kind} (valueName : isValueName kind = true) : kind.isComposite = false := by
  simp only [isValueName, Bool.or_eq_true, decide_eq_true_eq] at valueName
  rcases valueName with rfl | rfl <;> rfl

/-- A construct of types is a site. -/
private theorem exists_site_of_isTypeConstruct (source : Bytes) {siblings : List Tree} {tree : Tree}
    (about : isTypeConstruct tree = true) :
    ∃ site, .site site ∈ blocks source siblings tree ∧ site.leaves = tree.leaves := by
  cases found : wholeSite? siblings tree with
  | none =>
    rw [(wholeSite?_eq_none found).1] at about
    cases about
  | some site =>
    rw [blocks_of_wholeSite? source found]
    exact ⟨site, List.mem_singleton_self _, (WholeSite.of_wholeSite? found).spec.2.2⟩

theorem InTypes.mem_leaves {root leaf : Tree} (inTypes : InTypes root leaf) : leaf ∈ root.leaves := by
  cases inTypes with
  | construct inside member _ mem | marker inside _ member _ mem =>
    exact mem_leaves_of_mem_preorder (Tree.mem_preorder_of_mem_children inside member) mem
  | tail inside _ children mem =>
    apply mem_leaves_of_mem_preorder inside
    rw [Tree.leaves_of_children_ne_nil (by simp [children]), children]
    exact List.mem_append_right _ mem

/-- The construct that a leaf lies in is a part of the tree itself, or it lies in a child. -/
private theorem InTypes.cases_children {root leaf : Tree} (inTypes : InTypes root leaf) :
    (∃ child ∈ root.children, isTypeConstruct child = true ∧ leaf ∈ child.leaves) ∨
      (isAssertion root.kind = false ∧ ∃ child ∈ root.children, isMarker root.kind child = true ∧ leaf ∈ child.leaves) ∨
      (isAssertion root.kind = true ∧
        ∃ expression others, root.children = expression :: others ∧ leaf ∈ Tree.leavesAll others) ∨
      ∃ child ∈ root.children, InTypes child leaf := by
  cases inTypes with
  | construct inside member about mem =>
    rcases Tree.mem_preorder_iff.mp inside with rfl | ⟨child, outer, inside⟩
    · exact .inl ⟨_, member, about, mem⟩
    · exact .inr (.inr (.inr ⟨child, outer, .construct inside member about mem⟩))
  | marker inside plain member marker mem =>
    rcases Tree.mem_preorder_iff.mp inside with rfl | ⟨child, outer, inside⟩
    · exact .inr (.inl ⟨plain, _, member, marker, mem⟩)
    · exact .inr (.inr (.inr ⟨child, outer, .marker inside plain member marker mem⟩))
  | tail inside assertion children mem =>
    rcases Tree.mem_preorder_iff.mp inside with rfl | ⟨child, outer, inside⟩
    · exact .inr (.inr (.inl ⟨assertion, _, _, children, mem⟩))
    · exact .inr (.inr (.inr ⟨child, outer, .tail inside assertion children mem⟩))

/-- A leaf in a construct of types lies in a site. -/
theorem exists_site_of_inTypes (source : Bytes) {root leaf : Tree} (siblings : List Tree)
    (shaped : root.Everywhere Tree.WellShaped) (inTypes : InTypes root leaf) :
    ∃ site, .site site ∈ blocks source siblings root ∧ leaf ∈ site.leaves := by
  induction root using Tree.induction_on_children generalizing siblings with
  | step root below =>
    obtain ⟨own, children⟩ := Tree.everywhere_iff.mp shaped
    have mem := inTypes.mem_leaves
    have fromChild (child : Tree) (member : child ∈ root.children)
        (inner : isTypeConstruct child = true ∧ leaf ∈ child.leaves ∨ InTypes child leaf) :
        ∃ site, .site site ∈ blocks source root.children child ∧ leaf ∈ site.leaves := by
      rcases inner with ⟨about, mem⟩ | inner
      · obtain ⟨site, found, eq⟩ := exists_site_of_isTypeConstruct source about
        exact ⟨site, found, eq ▸ mem⟩
      · exact below child member root.children (children child member) inner
    have layout := layout_blocks source siblings root
    generalize blocks source siblings root = found at layout ⊢
    cases layout with
    | @whole site whole => exact ⟨site, List.mem_singleton_self _, whole.spec.2.2 ▸ mem⟩
    | token simple =>
      have childless : root.children = [] := by
        rcases simple with childless | valueName
        · exact childless
        · exact own.children_eq_nil (isComposite_of_isValueName valueName)
      rcases inTypes.cases_children with ⟨child, member, -⟩ | ⟨-, child, member, -⟩ | ⟨-, _, _, eq, -⟩ | ⟨child, member, -⟩
      · simp [childless] at member
      · simp [childless] at member
      · simp [childless] at eq
      · simp [childless] at member
    | @assertion expression others assertion eq =>
      have behind {child : Tree} (member : child ∈ others) (mem : leaf ∈ child.leaves) :
          leaf ∈ Site.leaves (.tail expression.stop root.stop others) :=
        Tree.mem_leavesAll_iff.mpr ⟨child, member, mem⟩
      have found {child : Tree} (member : child ∈ root.children)
          (inner : isTypeConstruct child = true ∧ leaf ∈ child.leaves ∨ InTypes child leaf) :
          ∃ site, Block.site site ∈ Block.site (.tail expression.stop root.stop others) ::
            blocks source root.children expression ∧ leaf ∈ site.leaves := by
        rcases List.mem_cons.mp (eq ▸ member : child ∈ expression :: others) with rfl | later
        · obtain ⟨site, found, mem⟩ := fromChild child member inner
          exact ⟨site, List.mem_cons_of_mem _ found, mem⟩
        · exact ⟨_, List.mem_cons_self, behind later (inner.elim And.right InTypes.mem_leaves)⟩
      rcases inTypes.cases_children with ⟨child, member, inner⟩ | ⟨plain, -⟩ | ⟨-, _, _, same, mem⟩ | ⟨child, member, inner⟩
      · exact found member (.inl inner)
      · rw [assertion] at plain
        cases plain
      · rw [eq] at same
        cases same
        exact ⟨_, List.mem_cons_self, mem⟩
      · exact found member (.inr inner)
    | construct nonempty plain _ =>
      have found {child : Tree} (member : child ∈ root.children)
          (inner : isMarker root.kind child = true ∧ leaf ∈ child.leaves ∨
            (isTypeConstruct child = true ∧ leaf ∈ child.leaves ∨ InTypes child leaf)) :
          ∃ site, Block.site site ∈ blocksOfChild source root.kind root.children child ∧ leaf ∈ site.leaves := by
        unfold blocksOfChild
        split
        · exact ⟨_, List.mem_singleton_self _, inner.elim And.right fun inner => inner.elim And.right InTypes.mem_leaves⟩
        · next unmarked => exact fromChild child member (inner.resolve_left fun marked => unmarked marked.1)
      obtain ⟨child, member, inner⟩ : ∃ child ∈ root.children, isMarker root.kind child = true ∧ leaf ∈ child.leaves ∨
          (isTypeConstruct child = true ∧ leaf ∈ child.leaves ∨ InTypes child leaf) := by
        rcases inTypes.cases_children with ⟨child, member, inner⟩ | ⟨-, child, member, inner⟩ | ⟨assertion, -⟩ |
          ⟨child, member, inner⟩
        · exact ⟨child, member, .inr (.inl inner)⟩
        · exact ⟨child, member, .inl inner⟩
        · rw [plain] at assertion
          cases assertion
        · exact ⟨child, member, .inr (.inr inner)⟩
      obtain ⟨site, mem, own⟩ := found member inner
      exact ⟨site, List.mem_append_right _ (List.mem_flatMap.mpr ⟨child, member, mem⟩), own⟩

/-- A leaf of a construct that is cut out lies in a construct of types. -/
theorem inTypes_of_met {source : Bytes} {root leaf : Tree} {site : Site} (met : Block.Met source root (.site site))
    (isRemoval : site.isRemoval = true) (mem : leaf ∈ site.leaves) : InTypes root leaf := by
  cases met with
  | whole inside member whole =>
    rw [whole.spec.2.2] at mem
    cases whole with
    | exact about => exact .construct inside member (by simp [isTypeConstruct, about]) mem
    | clause about => exact .construct inside member (by simp [isTypeConstruct, about]) mem
    | statement about => exact .construct inside member (by rw [isTypeConstruct, about]; simp) mem
    | element about => exact .construct inside member (by rw [isTypeConstruct, about]; simp) mem
    | importing => cases isRemoval
    | enumeration => cases isRemoval
  | tail inside assertion children => exact .tail inside assertion children mem
  | marker inside plain member marker => exact .marker inside plain member marker mem

/-- A leaf of a site lies in a construct of types or in a declaration that is written anew. -/
theorem inTypes_or_inDeclaration_of_met {source : Bytes} {root leaf : Tree} {site : Site}
    (met : Block.Met source root (.site site)) (mem : leaf ∈ site.leaves) :
    site.isRemoval = true ∧ InTypes root leaf ∨ InDeclaration root leaf := by
  cases isRemoval : site.isRemoval with
  | true => exact .inl ⟨rfl, inTypes_of_met met isRemoval mem⟩
  | false =>
    cases met with
    | tail | marker => cases isRemoval
    | whole inside member whole =>
      have inner := Tree.mem_preorder_of_mem_children inside member
      rw [whole.spec.2.2] at mem
      cases whole with
      | importing kind => exact .inr ⟨_, inner, .inl kind, mem⟩
      | enumeration kind => exact .inr ⟨_, inner, .inr kind, mem⟩
      | _ => cases isRemoval

/-! ## Which leaves an edit takes -/

namespace Site

variable {source : Bytes} {root leaf : Tree} {site : Site}

/-- A leaf lies in a site or apart from it. -/
theorem mem_leaves_or_apart_of_met (placed : root.Placed) (met : Block.Met source root (.site site))
    (member : leaf ∈ root.leaves) : leaf ∈ site.leaves ∨ leaf.stop ≤ site.start ∨ site.stop ≤ leaf.start := by
  cases met with
  | whole inside inner whole =>
    obtain ⟨start, stop, leaves⟩ := whole.spec
    rw [start, stop, leaves]
    exact placed.mem_leaves_or_apart (Tree.mem_preorder_of_mem_children inside inner) member
  | @tail parent expression others inside _ children =>
    change leaf ∈ Tree.leavesAll others ∨ leaf.stop ≤ expression.stop ∨ parent.stop ≤ leaf.start
    have inner := (placed.inner inside).1.children
    rw [children] at inner
    rcases placed.mem_leaves_or_apart inside member with mem | before | after
    · rw [Tree.leaves_of_children_ne_nil (by simp [children]), children, Tree.leavesAll, List.mem_append] at mem
      rcases mem with mem | mem
      · exact .inr (.inl (inner.2.1.leaf_bounds inner.1.2 mem).2.2)
      · exact .inl mem
    · have := inner.1
      exact .inr (.inl (by omega))
    · exact .inr (.inr after)
  | marker inside _ inner _ => exact placed.mem_leaves_or_apart (Tree.mem_preorder_of_mem_children inside inner) member

theorem leaf_bounds_of_met (placed : root.Placed) (met : Block.Met source root (.site site)) (mem : leaf ∈ site.leaves) :
    site.start ≤ leaf.start ∧ leaf.start < leaf.stop ∧ leaf.stop ≤ site.stop := by
  cases met with
  | whole inside inner whole =>
    obtain ⟨start, stop, leaves⟩ := whole.spec
    rw [start, stop]
    have own := (placed.inner (Tree.mem_preorder_of_mem_children inside inner)).1
    exact own.leaf_bounds (placed.child inside inner).2.1 (leaves ▸ mem)
  | @tail parent expression others inside _ children =>
    have inner := (placed.inner inside).1.children
    rw [children] at inner
    exact inner.2.2.leaf_bounds mem
  | marker inside _ inner _ =>
    have own := (placed.inner (Tree.mem_preorder_of_mem_children inside inner)).1
    exact own.leaf_bounds (placed.child inside inner).2.1 mem

/-- Two sites with a position in common are one. -/
theorem eq_of_common {other : Site} {position : Nat} (placed : root.Placed)
    (first : .site site ∈ blocks source [root] root) (second : .site other ∈ blocks source [root] root)
    (inFirst : site.start ≤ position ∧ position < site.stop)
    (inSecond : other.start ≤ position ∧ position < other.stop) : site = other := by
  have arranged := arranged_blocks source [root] placed
  have apart : ∀ one ∈ blocks source [root] root, ∀ two ∈ blocks source [root] root, one = two ∨ one.Apart two := by
    refine List.Pairwise.forall_of_forall_of_flip (fun _ _ => .inl rfl) (arranged.apart.imp .inr) (arranged.apart.imp ?_)
    intro one two apart
    exact .inr apart.symm
  rcases apart _ first _ second with same | before | after
  · cases same
    rfl
  · change site.stop ≤ other.start at before
    omega
  · change other.stop ≤ site.start at after
    omega

/-- A leaf lies in one site only. -/
theorem eq_of_mem_leaves {other : Site} (placed : root.Placed) (program : root.kind = .program)
    (first : .site site ∈ blocks source [root] root) (second : .site other ∈ blocks source [root] root)
    (memFirst : leaf ∈ site.leaves) (memSecond : leaf ∈ other.leaves) : site = other := by
  have firstBounds := leaf_bounds_of_met placed (Block.met_of_mem_blocks program first) memFirst
  have secondBounds := leaf_bounds_of_met placed (Block.met_of_mem_blocks program second) memSecond
  exact eq_of_common placed first second ⟨firstBounds.1, Nat.lt_of_lt_of_le firstBounds.2.1 firstBounds.2.2⟩
    ⟨secondBounds.1, Nat.lt_of_lt_of_le secondBounds.2.1 secondBounds.2.2⟩

end Site

end Scaffold.Erasure
