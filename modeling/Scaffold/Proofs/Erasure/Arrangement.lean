import Scaffold.Proofs.Erasure.Blocks

/-! # Where the blocks of a file lie

Every leaf of a tree lies in a block, two blocks lie apart, and every block comes from some place in the tree.
-/

namespace Scaffold.Erasure

open Scaffold.Text Scaffold.Syntax

namespace Block

/-- A constructor takes no room of its own. -/
def start : Block → Nat
  | token tree | constructor tree => tree.start
  | .site found => found.start

def stop : Block → Nat
  | token tree => tree.stop
  | constructor tree => tree.start
  | .site found => found.stop

/-- One block ends before the other begins. -/
def Apart (first second : Block) : Prop := first.stop ≤ second.start ∨ second.stop ≤ first.start

end Block

/-- Blocks lie between two offsets, and apart from each other. -/
structure Arranged (start stop : Nat) (blocks : List Block) : Prop where
  bounds : ∀ block ∈ blocks, start ≤ block.start ∧ block.start ≤ block.stop ∧ block.stop ≤ stop
  apart : blocks.Pairwise Block.Apart

namespace Arranged

variable {start between stop : Nat} {blocks first second : List Block}

theorem nil : Arranged start stop [] := ⟨fun _ mem => absurd mem List.not_mem_nil, .nil⟩

theorem singleton {block : Block} (front : start ≤ block.start) (own : block.start ≤ block.stop) (back : block.stop ≤ stop) :
    Arranged start stop [block] :=
  ⟨fun _ mem => List.mem_singleton.mp mem ▸ ⟨front, own, back⟩, List.pairwise_singleton _ _⟩

theorem loosen {newStart newStop : Nat} (arranged : Arranged start stop blocks) (front : newStart ≤ start)
    (back : stop ≤ newStop) : Arranged newStart newStop blocks :=
  ⟨fun block mem => by have := arranged.bounds block mem; omega, arranged.apart⟩

theorem append (front : Arranged start between first) (back : Arranged between stop second) (le : start ≤ between)
    (le' : between ≤ stop) : Arranged start stop (first ++ second) := by
  refine ⟨fun block mem => ?_, List.pairwise_append.mpr ⟨front.apart, back.apart, fun one memOne two memTwo => ?_⟩⟩
  · rcases List.mem_append.mp mem with mem | mem
    · have := front.bounds block mem
      omega
    · have := back.bounds block mem
      omega
  · have := front.bounds one memOne
    have := back.bounds two memTwo
    left
    omega

/-- Where children follow each other, so do their blocks. -/
theorem flatMap {children : List Tree} {found : Tree → List Block} (placed : Tree.PlacedIn start stop children)
    (each : ∀ child ∈ children, Arranged child.start child.stop (found child)) :
    Arranged start stop (children.flatMap found) := by
  induction children generalizing start with
  | nil => exact .nil
  | cons child later arranged =>
    obtain ⟨bounds, -, rest⟩ := placed
    rw [List.flatMap_cons]
    have le := rest.le
    exact ((each child List.mem_cons_self).loosen bounds.1 (Nat.le_refl _)).append
      (arranged rest fun other mem => each other (List.mem_cons_of_mem _ mem)) (by omega) le

end Arranged

/-! ## Where the blocks of a tree lie -/

/-- The blocks of a well placed tree lie inside it, apart from each other. -/
theorem arranged_blocks (source : Bytes) (siblings : List Tree) {tree : Tree} (placed : tree.Placed) :
    Arranged tree.start tree.stop (blocks source siblings tree) := by
  induction tree using Tree.induction_on_children generalizing siblings with
  | step tree inner =>
    have ordered := placed.start_le_stop
    have layout := layout_blocks source siblings tree
    generalize blocks source siblings tree = found at layout ⊢
    cases layout with
    | @whole site whole =>
      obtain ⟨start, stop, -⟩ := whole.spec
      exact .singleton (Nat.le_of_eq start.symm) (by simp only [Block.start, Block.stop]; omega) (Nat.le_of_eq stop)
    | token => exact .singleton (Nat.le_refl _) ordered (Nat.le_refl _)
    | @assertion expression others _ children =>
      have member : expression ∈ tree.children := children ▸ List.mem_cons_self
      have bounds := placed.children.bounds member
      have expressionBlocks := inner expression member tree.children (placed.children.placed member)
      refine ⟨fun block mem => ?_, List.pairwise_cons.mpr ⟨fun block mem => ?_, expressionBlocks.apart⟩⟩
      · rcases List.mem_cons.mp mem with rfl | mem
        · simp only [Block.start, Block.stop, Site.start, Site.stop]
          omega
        · have := expressionBlocks.bounds block mem
          omega
      · exact .inr (expressionBlocks.bounds block mem).2.2
    | @construct front _ _ constructor =>
      have behind : Arranged tree.start tree.stop
          (tree.children.flatMap (blocksOfChild source tree.kind tree.children)) := by
        apply Arranged.flatMap placed.children
        intro child member
        have bounds := placed.children.bounds member
        unfold blocksOfChild
        split
        · exact .singleton (Nat.le_refl _) (Nat.le_of_lt bounds.2.1) (Nat.le_refl _)
        · exact inner child member tree.children (placed.children.placed member)
      rcases constructor with rfl | ⟨rfl, -⟩
      · exact behind
      · have alone : Arranged tree.start tree.start [.constructor tree] :=
          .singleton (Nat.le_refl _) (Nat.le_refl _) (Nat.le_refl _)
        exact alone.append behind (Nat.le_refl _) ordered

/-- Every leaf lies in a block. -/
theorem exists_block_of_leaf (source : Bytes) (siblings : List Tree) {tree leaf : Tree} (mem : leaf ∈ tree.leaves) :
    ∃ block ∈ blocks source siblings tree, leaf ∈ block.leaves := by
  induction tree using Tree.induction_on_children generalizing siblings with
  | step tree inner =>
    have layout := layout_blocks source siblings tree
    generalize blocks source siblings tree = found at layout ⊢
    cases layout with
    | @whole site whole =>
      rw [← whole.spec.2.2] at mem
      exact ⟨.site site, List.mem_singleton_self _, mem⟩
    | token => exact ⟨.token tree, List.mem_singleton_self _, mem⟩
    | @assertion expression others _ children =>
      rw [Tree.leaves_of_children_ne_nil (by simp [children]), children, Tree.leavesAll, List.mem_append] at mem
      rcases mem with mem | mem
      · obtain ⟨block, member, mem⟩ := inner expression (children ▸ List.mem_cons_self) tree.children mem
        exact ⟨block, List.mem_cons_of_mem _ member, mem⟩
      · exact ⟨_, List.mem_cons_self, mem⟩
    | construct nonempty _ _ =>
      rw [Tree.leaves_of_children_ne_nil nonempty, Tree.mem_leavesAll_iff] at mem
      obtain ⟨child, member, mem⟩ := mem
      obtain ⟨block, found, mem⟩ : ∃ block ∈ blocksOfChild source tree.kind tree.children child, leaf ∈ block.leaves := by
        unfold blocksOfChild
        split
        · exact ⟨_, List.mem_singleton_self _, mem⟩
        · exact inner child member tree.children mem
      exact ⟨block, List.mem_append_right _ (List.mem_flatMap.mpr ⟨child, member, found⟩), mem⟩

/-- Where in a tree a block comes from. -/
inductive Block.Met (source : Bytes) (root : Tree) : Block → Prop
  | whole {parent tree : Tree} {site : Site} (inside : parent ∈ root.preorder) (member : tree ∈ parent.children)
      (whole : WholeSite parent.children tree site) : Met source root (.site site)
  | tail {parent expression : Tree} {others : List Tree} (inside : parent ∈ root.preorder)
      (assertion : isAssertion parent.kind = true) (children : parent.children = expression :: others) :
      Met source root (.site (.tail expression.stop parent.stop others))
  | marker {parent child : Tree} (inside : parent ∈ root.preorder) (plain : isAssertion parent.kind = false)
      (member : child ∈ parent.children) (marker : isMarker parent.kind child = true) :
      Met source root (.site (.marker child))
  | token {tree : Tree} (inside : tree ∈ root.preorder) (simple : tree.children = [] ∨ isValueName tree.kind = true) :
      Met source root (.token tree)
  | constructor {method : Tree} (inside : method ∈ root.preorder)
      (constructor : isConstructor source method = true) : Met source root (.constructor method)

/-- The blocks of a tree come from where it is met among its siblings, and from places in it. -/
theorem Block.met_of_mem (source : Bytes) {root tree : Tree} (siblings : List Tree) (inside : tree ∈ root.preorder)
    (own : ∀ site, WholeSite siblings tree site → Block.Met source root (.site site)) :
    ∀ block ∈ blocks source siblings tree, block.Met source root := by
  induction tree using Tree.induction_on_children generalizing siblings with
  | step tree inner =>
    have below (child : Tree) (member : child ∈ tree.children) :
        ∀ block ∈ blocks source tree.children child, block.Met source root :=
      inner child member tree.children (Tree.mem_preorder_of_mem_children inside member) fun site whole =>
        .whole inside member whole
    have layout := layout_blocks source siblings tree
    generalize blocks source siblings tree = found at layout ⊢
    intro block mem
    cases layout with
    | whole whole => exact List.mem_singleton.mp mem ▸ own _ whole
    | token simple => exact List.mem_singleton.mp mem ▸ .token inside simple
    | assertion assertion children =>
      rcases List.mem_cons.mp mem with rfl | mem
      · exact .tail inside assertion children
      · exact below _ (children ▸ List.mem_cons_self) block mem
    | construct _ plain constructor =>
      rcases List.mem_append.mp mem with mem | mem
      · rcases constructor with rfl | ⟨rfl, constructor⟩
        · cases mem
        · exact List.mem_singleton.mp mem ▸ .constructor inside constructor
      · obtain ⟨child, member, mem⟩ := List.mem_flatMap.mp mem
        unfold blocksOfChild at mem
        split at mem
        · next marker => exact List.mem_singleton.mp mem ▸ .marker inside plain member marker
        · exact below child member block mem

theorem not_wholeSite_of_program {siblings : List Tree} {tree : Tree} {site : Site} (program : tree.kind = .program) :
    ¬ WholeSite siblings tree site := by
  intro whole
  cases whole <;>
    simp_all [isTypeSyntax, isTypeStatement, isAmbientField, isTypeExport, isThisParameter]

/-- Every block of a file comes from some place in its tree. -/
theorem Block.met_of_mem_blocks {source : Bytes} {root : Tree} (program : root.kind = .program) {block : Block}
    (mem : block ∈ blocks source [root] root) : block.Met source root :=
  Block.met_of_mem source [root] (Tree.mem_preorder_self root)
    (fun _ whole => absurd whole (not_wholeSite_of_program program)) block mem

end Scaffold.Erasure
