import Scaffold.Proofs.Erasure.Survival
import Scaffold.Proofs.Erasure.Usage
import Scaffold.Proofs.Syntax.Methods

/-! # The assignments of a constructor

The parameters of a constructor declare properties, and one edit assigns them: behind the call of the parent constructor
where that is the first statement, and otherwise behind the brace that opens the body. The places of two constructors lie
apart.
-/

namespace Scaffold.Erasure

open Scaffold.Text Scaffold.Syntax

variable {source : Bytes} {text : List Char} {root method body : Tree} {names : List String}

/-! ## What a constructor declares and assigns -/

theorem kind_of_isConstructor (constructor : isConstructor source method = true) : method.kind = .methodDefinition := by
  simp only [isConstructor, Bool.and_eq_true, decide_eq_true_eq] at constructor
  exact constructor.1

theorem isClosed_of_isConstructor (constructor : isConstructor source method = true) : isClosed method = false := by
  have kind := kind_of_isConstructor constructor
  simp [isClosed, isTypeConstruct, kind, isTypeSyntax, isTypeStatement, isAmbientField, isTypeExport, isThisParameter]

/-- A parameter declares a property: it has a modifier, and it is a plain name. -/
structure IsProperty (source : Bytes) (parameter : Tree) (name : String) : Prop where
  isParameter : isParameter parameter.kind = true
  modified : ∃ child ∈ parameter.children, isModifier child.kind = true ∨ child.kind = .token "readonly"
  named : ∃ pattern, parameter.child? .pattern = some pattern ∧ pattern.kind = .identifier ∧ name = pattern.text source

/-- The properties that some parameters declare, in their order. -/
inductive Declares (source : Bytes) : List Tree → List String → Prop
  | nil : Declares source [] []
  | property {parameter : Tree} {later : List Tree} {name : String} {names : List String}
      (property : IsProperty source parameter name) (rest : Declares source later names) :
      Declares source (parameter :: later) (name :: names)
  | other {parameter : Tree} {later : List Tree} {names : List String} (other : ∀ name, ¬ IsProperty source parameter name)
      (rest : Declares source later names) : Declares source (parameter :: later) names

theorem propertyName?_eq_some_iff {parameter : Tree} {name : String} :
    propertyName? source parameter = some name ↔ IsProperty source parameter name := by
  have modified_iff : (parameter.children.any fun child => isModifier child.kind || child.kind = .token "readonly") = true ↔
      ∃ child ∈ parameter.children, isModifier child.kind = true ∨ child.kind = .token "readonly" := by
    simp
  unfold propertyName?
  constructor
  · intro found
    split at found
    · next declared =>
      obtain ⟨kind, modified⟩ := (Bool.and_eq_true _ _).mp declared
      split at found
      · next pattern pattern_eq =>
        split at found
        · next identifier =>
          exact ⟨kind, modified_iff.mp modified, pattern, pattern_eq, identifier, (Option.some.inj found).symm⟩
        · cases found
      · cases found
    · cases found
  · rintro ⟨kind, modified, pattern, found, identifier, rfl⟩
    rw [if_pos ((Bool.and_eq_true _ _).mpr ⟨kind, modified_iff.mpr modified⟩), found]
    exact if_pos identifier

theorem Declares.eq_filterMap {parameters : List Tree} (declared : Declares source parameters names) :
    names = parameters.filterMap (propertyName? source) := by
  induction declared with
  | nil => rfl
  | property property _ eq => rw [List.filterMap_cons_some (propertyName?_eq_some_iff.mpr property), ← eq]
  | @other parameter _ _ other _ eq =>
    have none_ : propertyName? source parameter = none := by
      apply Option.eq_none_iff_forall_ne_some.mpr
      exact fun name found => other name (propertyName?_eq_some_iff.mp found)
    rw [List.filterMap_cons_none none_, ← eq]

theorem declares_filterMap (source : Bytes) (parameters : List Tree) :
    Declares source parameters (parameters.filterMap (propertyName? source)) := by
  induction parameters with
  | nil => exact .nil
  | cons parameter later rest =>
    cases found : propertyName? source parameter with
    | none =>
      rw [List.filterMap_cons_none found]
      refine .other (fun name property => ?_) rest
      rw [propertyName?_eq_some_iff.mpr property] at found
      cases found
    | some name =>
      rw [List.filterMap_cons_some found]
      exact .property (propertyName?_eq_some_iff.mp found) rest

/-- Where the assignments of a body go: behind the call of the parent constructor, if that is its first statement, and
otherwise behind its brace. -/
inductive IsPlace (body : Tree) : Nat → Prop
  | behindCall {first : Tree} {later : List Tree} (parts : body.parts = first :: later)
      (call : isParentCall first = true) : IsPlace body first.stop
  | atFront (other : ∀ first ∈ body.parts.head?, isParentCall first = false) : IsPlace body (body.start + 1)

/-- Only spaces and tabs. -/
def IsIndent (bytes : Bytes) : Prop := ∀ byte ∈ bytes, isIndent byte = true

/-- The assignments of some properties, each on a line of its own. Behind them a line may begin for what follows. -/
inductive IsRun (names : List String) : Bytes → Prop
  | mk {indent closing : Bytes} (spaced : IsIndent indent)
      (closes : closing = [] ∨ ∃ outer, closing = encode "\n" ++ outer ∧ IsIndent outer) :
      IsRun names
        ((names.flatMap fun name => encode "\n" ++ indent ++ encode ("this." ++ name ++ " = " ++ name ++ ";")) ++ closing)

theorem IsIndent.append {first second : Bytes} (front : IsIndent first) (back : IsIndent second) : IsIndent (first ++ second) := by
  intro byte mem
  rcases List.mem_append.mp mem with mem | mem
  · exact front byte mem
  · exact back byte mem

/-- A run with nothing behind it. -/
theorem IsRun.plain {indent : Bytes} (spaced : IsIndent indent) :
    IsRun names (names.flatMap fun name => encode "\n" ++ indent ++ encode ("this." ++ name ++ " = " ++ name ++ ";")) := by
  have run := @IsRun.mk names indent [] spaced (.inl rfl)
  rwa [List.append_nil] at run

theorem IsRun.ne_nil {run : Bytes} (isRun : IsRun names run) (some_ : names ≠ []) : run ≠ [] := by
  cases isRun with
  | mk =>
    obtain ⟨name, later, rfl⟩ := List.exists_cons_of_ne_nil some_
    have feed : encode "\n" = [10] := by decide
    simp [feed]

/-- The edit that assigns the properties of a constructor: it writes the assignments in their place, and takes at most the
white space between two braces. -/
structure Inserts (body : Tree) (names : List String) (edit : Edit) : Prop where
  place : IsPlace body edit.start
  stop_eq : edit.stop = edit.start ∨ body.parts = [] ∧ edit.stop = body.stop - 1
  run : IsRun names edit.replacement

theorem isIndent_indentationAt (source : Bytes) (offset : Nat) : IsIndent (indentationAt source offset) := fun byte mem =>
  List.all_eq_true.mp List.all_takeWhile byte mem

theorem exists_assignProperties {parameters : Tree} (foundParameters : method.child? .parameters = some parameters)
    (found : method.child? .body = some body) (declared : Declares source parameters.children names) :
    if names = [] then (assignProperties source method).edits = []
    else ∃ edit, (assignProperties source method).edits = [edit] ∧ Inserts body names edit := by
  have eq := declared.eq_filterMap
  unfold assignProperties
  rw [foundParameters, found]
  dsimp only
  rw [← eq]
  split
  · next none_ =>
    rw [none_, List.isEmpty_nil, if_pos rfl]
    rfl
  · next some_ =>
    rw [if_neg (by simpa using some_)]
    cases parts : body.parts with
    | nil =>
      have spaced : IsIndent (indentationAt source method.start ++ encode "    ") := by
        have four : (encode "    ").all isIndent = true := by decide
        exact (isIndent_indentationAt source _).append (List.all_eq_true.mp four)
      refine ⟨_, rfl, ?_, ?_, ?_⟩
      · apply IsPlace.atFront
        rw [parts]
        exact nofun
      · dsimp only
        split
        · exact .inr ⟨parts, rfl⟩
        · exact .inl rfl
      · dsimp only
        split
        · rw [List.append_assoc]
          exact .mk spaced (.inr ⟨_, rfl, isIndent_indentationAt source _⟩)
        · exact .plain spaced
    | cons first later =>
      refine ⟨_, rfl, ?_, .inl rfl, .plain (isIndent_indentationAt source _)⟩
      dsimp only
      split
      · next call => exact .behindCall parts call
      · next other =>
        apply IsPlace.atFront
        rw [parts]
        rintro _ ⟨⟩
        exact Bool.eq_false_iff.mpr other

/-- A constructor has no edit, or one that assigns the properties that it declares. -/
theorem assignProperties_cases (source : Bytes) (method : Tree) :
    (assignProperties source method).edits = [] ∨ ∃ body names edit, method.child? .body = some body ∧
      (assignProperties source method).edits = [edit] ∧ Inserts body names edit := by
  cases foundParameters : method.child? .parameters with
  | none =>
    rw [assignProperties, foundParameters]
    exact .inl rfl
  | some parameters =>
    cases found : method.child? .body with
    | none =>
      rw [assignProperties, foundParameters, found]
      exact .inl rfl
    | some body =>
      have own := exists_assignProperties foundParameters found (declares_filterMap source parameters.children)
      split at own
      · exact .inl own
      · obtain ⟨edit, eq, inserts⟩ := own
        exact .inr ⟨body, _, edit, rfl, eq, inserts⟩

/-! ## The places of constructors -/

/-- The place of the assignments lies in the body, right behind one of its children. -/
theorem Inserts.inside {edit : Edit} (inserts : Inserts body names edit) (block : body.IsBlock text)
    (placed : body.Placed) :
    (body.start < edit.start ∧ edit.start ≤ edit.stop ∧ edit.stop < body.stop) ∧
      (∃ tree ∈ body.children, tree.stop = edit.start) ∧
        ∃ brace ∈ body.children, brace.IsBrace text "\x7d" ∧ edit.start ≤ brace.start := by
  obtain ⟨place, stop_eq, -⟩ := inserts
  obtain ⟨anchor, stop, replacement⟩ := edit
  dsimp only at place stop_eq ⊢
  obtain ⟨opening, inner, closing, after, children, begins, isOpening, isClosing, comment⟩ := block.braces
  have pairwise := placed.children.pairwise
  have openingStop := isOpening.stop_eq
  have closingStop := isClosing.stop_eq
  have openingMem : opening ∈ body.children := by simp [children]
  have closingMem : closing ∈ body.children := by simp [children]
  have closingBounds := placed.children.bounds closingMem
  rw [children] at pairwise
  obtain ⟨front, back⟩ := List.pairwise_cons.mp pairwise
  have between := front closing (by simp)
  have where_ : ∃ tree ∈ body.children, tree.stop = anchor ∧ body.start < tree.stop ∧ tree.stop ≤ closing.start := by
    cases place with
    | atFront => exact ⟨opening, openingMem, by omega, by omega, between⟩
    | @behindCall first later parts call =>
      obtain ⟨mem, part⟩ := List.mem_filter.mp (parts ▸ List.mem_cons_self : first ∈ body.parts)
      have bounds := placed.children.bounds mem
      refine ⟨first, mem, rfl, by omega, ?_⟩
      rw [children] at mem
      simp only [Tree.isNamed, Bool.and_eq_true, Bool.not_eq_true'] at part
      rcases List.mem_cons.mp mem with rfl | mem
      · rw [isOpening.kind_eq] at part
        cases part.1
      · rcases List.mem_append.mp mem with mem | mem
        · exact (List.pairwise_append.mp back).2.2 first mem closing List.mem_cons_self
        · rcases List.mem_cons.mp mem with rfl | mem
          · rw [isClosing.kind_eq] at part
            cases part.1
          · rw [comment first mem] at part
            cases part.2
  obtain ⟨tree, mem, ends, after, before⟩ := where_
  refine ⟨?_, ⟨tree, mem, ends⟩, closing, closingMem, isClosing, by omega⟩
  rcases stop_eq with same | ⟨none_, same⟩
  · omega
  · have front : anchor = body.start + 1 := by
      cases place with
      | atFront => rfl
      | behindCall parts =>
        rw [none_] at parts
        cases parts
    omega

/-- One edit ends before the other begins, with something between them. -/
def Separate (first second : Edit) : Prop := first.stop < second.start ∨ second.stop < first.start

/-- The edits of a block that is a constructor. -/
def Block.insertions (source : Bytes) : Block → List Edit
  | constructor method => (assignProperties source method).edits
  | _ => []

/-- The edits of the constructors among some blocks. -/
def insertions (source : Bytes) (found : List Block) : List Edit := found.flatMap (Block.insertions source)

theorem insertions_append (first second : List Block) :
    insertions source (first ++ second) = insertions source first ++ insertions source second := List.flatMap_append

/-- The edit of a constructor lies in its body. -/
theorem inserts_of_constructor {edit : Edit} (constructor : isConstructor source method = true)
    (block : method.HasBlock text) (mem : edit ∈ (assignProperties source method).edits) :
    ∃ body ∈ method.children, ∃ names, body.IsBlock text ∧ Inserts body names edit := by
  rcases assignProperties_cases source method with none_ | ⟨body, names, only, found, eq, inserts⟩
  · rw [none_] at mem
    cases mem
  · rw [eq] at mem
    cases List.mem_singleton.mp mem
    have member : body ∈ method.children := List.mem_of_find?_eq_some found
    have role : body.role = some .body := by simpa using List.find?_some found
    exact ⟨body, member, names, block (kind_of_isConstructor constructor) body member role, inserts⟩

/-- The edits of the constructors in a tree lie inside its children. -/
theorem insertions_inside {tree : Tree} (siblings : List Tree) (placed : tree.Placed)
    (blocked : tree.Everywhere (Tree.HasBlock text)) {edit : Edit}
    (mem : edit ∈ insertions source (blocks source siblings tree)) :
    ∃ child ∈ tree.children, child.children ≠ [] ∧ child.start < edit.start ∧ edit.stop < child.stop := by
  induction tree using Tree.induction_on_children generalizing siblings with
  | step tree below =>
    obtain ⟨own, inner⟩ := Tree.everywhere_iff.mp blocked
    have deeper {child : Tree} (member : child ∈ tree.children)
        (mem : edit ∈ insertions source (blocks source tree.children child)) :
        child.children ≠ [] ∧ child.start < edit.start ∧ edit.stop < child.stop := by
      obtain ⟨grandchild, found, -, after, before⟩ :=
        below child member tree.children (placed.children.placed member) (inner child member) mem
      have bounds := (placed.children.placed member).children.bounds found
      exact ⟨List.ne_nil_of_mem found, by omega, by omega⟩
    have layout := layout_blocks source siblings tree
    generalize blocks source siblings tree = found at layout mem
    cases layout with
    | whole => cases mem
    | token => cases mem
    | @assertion expression others _ children =>
      have member : expression ∈ tree.children := children ▸ List.mem_cons_self
      exact ⟨expression, member, deeper member mem⟩
    | construct _ _ constructor =>
      rw [insertions_append, List.mem_append] at mem
      rcases mem with mem | mem
      · rcases constructor with rfl | ⟨rfl, constructor⟩
        · cases mem
        · rw [insertions, List.flatMap_singleton] at mem
          obtain ⟨body, member, names, block, inserts⟩ := inserts_of_constructor constructor own mem
          obtain ⟨bounds, ⟨last, found, -⟩, -⟩ := inserts.inside block (placed.children.placed member)
          exact ⟨body, member, List.ne_nil_of_mem found, bounds.1, bounds.2.2⟩
      · rw [insertions, List.flatMap_assoc] at mem
        obtain ⟨child, member, mem⟩ := List.mem_flatMap.mp mem
        unfold blocksOfChild at mem
        split at mem
        · cases mem
        · exact ⟨child, member, deeper member mem⟩

/-- What lies in a body with children of its own lies apart from where the assignments go. -/
theorem Inserts.separate {edit other : Edit} {tree : Tree} (inserts : Inserts body names edit) (block : body.IsBlock text)
    (placed : body.Placed) (shaped : tree.WellShaped) (member : tree ∈ body.children) (inner : tree.children ≠ [])
    (after : tree.start < other.start) (before : other.stop < tree.stop) : Separate edit other := by
  obtain ⟨bounds, ⟨last, found, ends⟩, -⟩ := inserts.inside block placed
  rcases inserts.stop_eq with same | ⟨none_, -⟩
  · have lastBounds := placed.children.bounds found
    rcases placed.children.apart tree member last found with rfl | front | back
    · exact .inr (by omega)
    · exact .inr (by omega)
    · exact .inl (by omega)
  · -- a tree with children is no brace and no comment
    have composite := shaped.isComposite inner
    have part : tree ∈ body.parts := by
      simp only [Kind.isComposite, Bool.and_eq_true, decide_eq_true_eq] at composite
      have notComment : tree.isComment = false := decide_eq_false composite.1.1.2
      refine List.mem_filter.mpr ⟨member, (Bool.and_eq_true _ _).mpr ⟨composite.1.1.1, ?_⟩⟩
      rw [notComment]
      rfl
    rw [none_] at part
    cases part

/-- The edits of the constructors in a tree lie apart. -/
theorem separate_insertions {tree : Tree} (siblings : List Tree) (placed : tree.Placed)
    (shaped : tree.Everywhere Tree.WellShaped) (blocked : tree.Everywhere (Tree.HasBlock text)) :
    (insertions source (blocks source siblings tree)).Pairwise Separate := by
  induction tree using Tree.induction_on_children generalizing siblings with
  | step tree below =>
    obtain ⟨-, innerShaped⟩ := Tree.everywhere_iff.mp shaped
    obtain ⟨own, innerBlocked⟩ := Tree.everywhere_iff.mp blocked
    have deeper {child : Tree} (member : child ∈ tree.children) :
        (insertions source (blocksOfChild source tree.kind tree.children child)).Pairwise Separate ∧
          ∀ edit ∈ insertions source (blocksOfChild source tree.kind tree.children child),
            ∃ grandchild ∈ child.children, grandchild.children ≠ [] ∧ grandchild.start < edit.start ∧ edit.stop < grandchild.stop := by
      have childPlaced := placed.children.placed member
      unfold blocksOfChild
      split
      · exact ⟨.nil, nofun⟩
      · exact ⟨below child member tree.children childPlaced (innerShaped child member) (innerBlocked child member),
          fun edit mem => insertions_inside tree.children childPlaced (innerBlocked child member) mem⟩
    have layout := layout_blocks source siblings tree
    generalize blocks source siblings tree = found at layout ⊢
    cases layout with
    | whole => exact .nil
    | token => exact .nil
    | @assertion expression others _ children =>
      have member : expression ∈ tree.children := children ▸ List.mem_cons_self
      exact below expression member tree.children (placed.children.placed member) (innerShaped expression member)
        (innerBlocked expression member)
    | construct _ _ constructor =>
      have behind : (tree.children.flatMap fun child =>
          insertions source (blocksOfChild source tree.kind tree.children child)).Pairwise Separate := by
        refine List.pairwise_flatMap.mpr ⟨fun child member => (deeper member).1, ?_⟩
        apply placed.children.pairwise.imp_of_mem
        intro first second firstMem secondMem le one oneMem two twoMem
        obtain ⟨front, frontMem, -, -, oneBefore⟩ := (deeper firstMem).2 one oneMem
        obtain ⟨back, backMem, -, twoAfter, -⟩ := (deeper secondMem).2 two twoMem
        have frontBounds := (placed.children.placed firstMem).children.bounds frontMem
        have backBounds := (placed.children.placed secondMem).children.bounds backMem
        exact .inl (by omega)
      rw [insertions_append, insertions, insertions, List.flatMap_assoc]
      refine List.pairwise_append.mpr ⟨?_, behind, ?_⟩
      · rcases constructor with rfl | ⟨rfl, -⟩
        · exact .nil
        · rw [List.flatMap_singleton, Block.insertions]
          rcases assignProperties_cases source tree with none_ | ⟨body, names, edit, -, eq, -⟩
          · rw [none_]
            exact .nil
          · rw [eq]
            exact List.pairwise_singleton _ _
      · intro edit mem other otherMem
        rcases constructor with rfl | ⟨rfl, constructor⟩
        · cases mem
        · rw [List.flatMap_singleton] at mem
          obtain ⟨body, bodyMem, names, block, inserts⟩ := inserts_of_constructor constructor own mem
          obtain ⟨child, member, otherMem⟩ := List.mem_flatMap.mp otherMem
          obtain ⟨grandchild, found, inner, after, before⟩ := (deeper member).2 other otherMem
          have bodyPlaced := placed.children.placed bodyMem
          obtain ⟨bounds, -⟩ := inserts.inside block bodyPlaced
          have grandBounds := (placed.children.placed member).children.bounds found
          rcases placed.children.apart child member body bodyMem with rfl | front | back
          · obtain ⟨-, grandShaped⟩ := Tree.everywhere_iff.mp (innerShaped child member)
            have wellShaped := (Tree.everywhere_iff.mp (grandShaped grandchild found)).1
            exact inserts.separate block bodyPlaced wellShaped found inner after before
          · exact .inr (by omega)
          · exact .inl (by omega)

end Scaffold.Erasure
