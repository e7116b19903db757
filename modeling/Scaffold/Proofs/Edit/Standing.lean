import Scaffold.Edit.Call
import Scaffold.Proofs.Syntax.Production

/-! # Where statements stand

A statement is an element of a list of statements, or it stands alone in a construct that needs it: as the branch of a
condition, as the body or in the head of a loop, behind a label, or behind `export` or `declare`. This is read off the
rules of the language.
-/

namespace Scaffold.Edit

open Scaffold.Text Scaffold.Syntax

/-- The constructs that hold a list of statements. -/
def isList : Kind → Bool
  | .program | .statementBlock | .switchCase | .switchDefault => true
  | _ => false

/-- The constructs that need a statement or a declaration. -/
def needsStatement : Kind → Bool
  | .ifStatement | .elseClause | .forStatement | .forInStatement | .whileStatement | .doStatement | .withStatement
  | .labeledStatement | .exportStatement | .ambientDeclaration => true
  | _ => false

/-- The symbols whose rules yield statements. -/
def yieldsStatement : Symbol → Bool
  | .statement | .declaration => true
  | _ => false

mutual

/-- Whether no tree of a rule is a statement. -/
def isPlain : Shape → Bool
  | .leaf kind _ | .glued kind _ | .node kind _ => !isStatement kind
  | .call symbol => !yieldsStatement symbol
  | .seq first second | .alt first second => isPlain first && isPlain second
  | .many body | .items body | .role _ body | .only _ body => isPlain body
  | .grow base _ tails => isPlain base && arePlain tails
  | .empty | .never | .ending _ | .without _ => true

def arePlain : List (Tail Symbol) → Bool
  | [] => true
  | .mk _ kind _ _ :: later => !isStatement kind && arePlain later

end

/-- Whether a rule yields one tree at most, comments aside. -/
def isSingle : Shape → Bool
  | .leaf _ _ | .glued _ _ | .node _ _ | .empty | .never | .ending _ | .without _ => true
  | .call symbol => yieldsStatement symbol || symbol = .block
  | .alt first second => isSingle first && isSingle second
  | _ => false

/-- Whether the statements that a rule yields come from lists of them. -/
def isListing : Shape → Bool
  | .seq first second => isListing first && isListing second
  | .many item | .items item => isSingle item
  | rule => isPlain rule

mutual

/-- Whether all constructs in a rule that hold statements are lists of statements or need one. No construct is a
comment. -/
def isOrderly : Shape → Bool
  | .node kind body =>
    (if isList kind then isListing body else needsStatement kind || isPlain body) && kind ≠ .comment && isOrderly body
  | .seq first second | .alt first second => isOrderly first && isOrderly second
  | .many body | .items body | .role _ body | .only _ body => isOrderly body
  | .grow base _ tails => isPlain base && isOrderly base && areOrderly tails
  | _ => true

def areOrderly : List (Tail Symbol) → Bool
  | [] => true
  | .mk _ kind _ body :: later =>
    !isStatement kind && kind ≠ .comment && isPlain body && isOrderly body && areOrderly later

end

/-! ## The rules of the language -/

theorem areOrderly_append (front back : List (Tail Symbol)) : areOrderly (front ++ back) = (areOrderly front && areOrderly back) := by
  induction front with
  | nil => rfl
  | cons tail later splits =>
    obtain ⟨accepts, kind, role, body⟩ := tail
    rw [List.cons_append, areOrderly, splits, areOrderly]
    simp only [Bool.and_assoc]

theorem areOrderly_ite {condition : Prop} [Decidable condition] {tails : List (Tail Symbol)} (orderly : areOrderly tails = true) :
    areOrderly (if condition then tails else []) = true := by
  split
  · exact orderly
  · rfl

theorem areOrderly_operatorTails (place : Place) (binding : Nat) : areOrderly (Shape.operatorTails place binding) = true := by
  unfold Shape.operatorTails Shape.binaryOperators
  simp only [List.flatMap_cons, List.flatMap_nil, areOrderly_append, Bool.and_eq_true]
  and_intros <;> first | rfl | exact areOrderly_ite rfl

/-- In all constructs of the language, statements stand in lists or where the construct needs one. -/
theorem isOrderly_rule (dialect : Dialect) (symbol : Symbol) : isOrderly (dialect.rule symbol) = true := by
  cases symbol with
  | expression place binding assertions =>
    change (true && true && areOrderly _) = true
    simp only [areOrderly_append, areOrderly_operatorTails, Bool.and_eq_true, true_and, and_true]
    and_intros <;> first | rfl | exact areOrderly_ite rfl
  | declarators first => cases first <;> rfl
  | destructuring assigned => cases assigned <;> rfl
  | operand place =>
    obtain ⟨openEnded, typedArrows⟩ := place
    cases openEnded <;> cases typedArrows <;> rfl
  | type place =>
    obtain ⟨ending, functions, inCall, shortNames⟩ := place
    cases functions <;> cases inCall <;> rfl
  | simpleType place =>
    obtain ⟨ending, functions, inCall, shortNames⟩ := place
    cases inCall <;> cases shortNames <;> rfl
  | typeArguments inCall => cases inCall <;> rfl
  | angled place => cases dialect <;> rfl
  | _ => rfl

theorem arePlain_of_areOrderly {tails : List (Tail Symbol)} (orderly : areOrderly tails = true) : arePlain tails = true := by
  induction tails with
  | nil => rfl
  | cons tail later plain =>
    obtain ⟨accepts, kind, role, body⟩ := tail
    simp only [areOrderly, Bool.and_eq_true] at orderly
    rw [arePlain, orderly.1.1.1.1, plain orderly.2]
    rfl

theorem isPlain_grow {base guard : Shape} {tails : List (Tail Symbol)} (orderly : isOrderly (.grow base guard tails) = true) :
    isPlain (.grow base guard tails) = true := by
  simp only [isOrderly, Bool.and_eq_true] at orderly
  rw [isPlain, orderly.1.1, arePlain_of_areOrderly orderly.2]
  rfl

/-- Only statements and declarations yield statements. -/
theorem isPlain_rule (dialect : Dialect) {symbol : Symbol} (other : yieldsStatement symbol = false) :
    isPlain (dialect.rule symbol) = true := by
  cases symbol with
  | statement => cases other
  | declaration => cases other
  | declarators first => cases first <;> rfl
  | expression place binding assertions => exact isPlain_grow (isOrderly_rule dialect (.expression place binding assertions))
  | destructuring assigned => cases assigned <;> rfl
  | operand place =>
    obtain ⟨openEnded, typedArrows⟩ := place
    cases openEnded <;> cases typedArrows <;> rfl
  | type place =>
    obtain ⟨ending, functions, inCall, shortNames⟩ := place
    cases functions <;> cases inCall <;> rfl
  | simpleType place =>
    obtain ⟨ending, functions, inCall, shortNames⟩ := place
    cases inCall <;> cases shortNames <;> rfl
  | typeArguments inCall => cases inCall <;> rfl
  | angled place => cases dialect <;> rfl
  | _ => rfl

theorem isSingle_rule (dialect : Dialect) {symbol : Symbol} (single : isSingle (.call symbol) = true) :
    isSingle (dialect.rule symbol) = true := by
  cases symbol <;> first | rfl | cases single

/-! ## What the rules produce -/

section Produced

variable {dialect : Dialect} {tolerant : Bool} {shape : Shape} {trees : List Tree} {tree : Tree}

theorem isStatement_of_isComment (isComment : tree.isComment = true) : isStatement tree.kind = false := by
  rw [show tree.kind = .comment from of_decide_eq_true isComment]
  rfl

theorem kind_inRole (role : Option Role) (tree : Tree) : (tree.inRole role).kind = tree.kind := by
  cases role with
  | none => rfl
  | some role => exact tree.kind_withRole role

theorem children_inRole (role : Option Role) (tree : Tree) : (tree.inRole role).children = tree.children := by
  cases role with
  | none => rfl
  | some role => exact tree.children_withRole role

theorem isStatement_of_arePlain {tails : List (Tail Symbol)} (plain : arePlain tails = true) {accepts : Kind → Bool}
    {kind : Kind} {role : Option Role} {body : Shape} (mem : .mk accepts kind role body ∈ tails) : isStatement kind = false := by
  induction tails with
  | nil => cases mem
  | cons tail later others =>
    obtain ⟨otherAccepts, otherKind, otherRole, otherBody⟩ := tail
    simp only [arePlain, Bool.and_eq_true, Bool.not_eq_true'] at plain
    cases mem with
    | head => exact plain.1
    | tail _ mem => exact others plain.2 mem

/-- A plain rule produces no statement. -/
theorem isStatement_of_isPlain (produced : (dialect.grammar tolerant).Produces shape trees) (plain : isPlain shape = true) :
    ∀ tree ∈ trees, isStatement tree.kind = false := by
  induction produced with
  | empty | ending | manyNone | itemsNone | without => simp
  | leaf | glued => exact List.forall_mem_singleton.mpr ((Bool.not_eq_true' _).mp plain)
  | call body others => exact others (isPlain_rule dialect ((Bool.not_eq_true' _).mp plain))
  | seq _ _ front back =>
    obtain ⟨first, second⟩ := (Bool.and_eq_true _ _).mp plain
    exact List.forall_mem_append.mpr ⟨front first, back second⟩
  | first _ others => exact others ((Bool.and_eq_true _ _).mp plain).1
  | second _ others => exact others ((Bool.and_eq_true _ _).mp plain).2
  | manyMore _ _ front back | itemsMore _ _ front back => exact List.forall_mem_append.mpr ⟨front plain, back plain⟩
  | node _ _ _ comments =>
    refine List.forall_mem_append.mpr ⟨fun tree mem => isStatement_of_isComment (comments tree mem), ?_⟩
    exact List.forall_mem_singleton.mpr ((Bool.not_eq_true' _).mp plain)
  | hollow _ comments => exact fun tree mem => isStatement_of_isComment (comments tree mem)
  | role _ others =>
    refine List.forall_mem_map.mpr fun tree mem => ?_
    rw [Tree.kind_withRole]
    exact others plain tree mem
  | only _ _ _ others => exact others plain
  | base _ others => exact others ((Bool.and_eq_true _ _).mp plain).1
  | grown _ _ _ tail _ _ smaller =>
    obtain ⟨before, -⟩ := List.forall_mem_append.mp (smaller plain)
    refine List.forall_mem_append.mpr ⟨before, List.forall_mem_singleton.mpr ?_⟩
    exact isStatement_of_arePlain ((Bool.and_eq_true _ _).mp plain).2 tail
  | comment _ isComment _ others =>
    obtain ⟨before, behind⟩ := List.forall_mem_append.mp (others plain)
    exact List.forall_mem_append.mpr ⟨before, List.forall_mem_cons.mpr ⟨isStatement_of_isComment isComment, behind⟩⟩

/-- A rule for one tree produces no second one, comments aside. -/
theorem length_le_of_isSingle (produced : (dialect.grammar tolerant).Produces shape trees) (single : isSingle shape = true) :
    (trees.filter fun tree => !tree.isComment).length ≤ 1 := by
  induction produced with
  | empty | ending | without => exact Nat.zero_le _
  | leaf | glued => exact List.length_filter_le _ _
  | call _ one => exact one (isSingle_rule dialect single)
  | first _ one => exact one ((Bool.and_eq_true _ _).mp single).1
  | second _ one => exact one ((Bool.and_eq_true _ _).mp single).2
  | node _ _ _ comments =>
    rw [List.filter_append, List.filter_eq_nil_iff.mpr (by simpa using comments), List.nil_append]
    exact List.length_filter_le _ _
  | hollow _ comments =>
    rw [List.filter_eq_nil_iff.mpr (by simpa using comments)]
    exact Nat.zero_le _
  | comment _ isComment _ one =>
    rw [List.filter_append, List.filter_cons_of_neg (by simp [isComment]), ← List.filter_append]
    exact one single
  | _ => cases single

/-- Statements stand in a tree only if it is a list of statements or needs one. -/
def IsOrdered (tree : Tree) : Prop :=
  ∀ child ∈ tree.children, isStatement child.kind = true → isList tree.kind = true ∨ needsStatement tree.kind = true

/-- The tails of an orderly rule make no statement, and what they add is orderly and holds none. -/
theorem orderly_of_mem {tails : List (Tail Symbol)} (orderly : areOrderly tails = true) {accepts : Kind → Bool}
    {kind : Kind} {role : Option Role} {body : Shape} (mem : .mk accepts kind role body ∈ tails) :
    kind ≠ .comment ∧ isPlain body = true ∧ isOrderly body = true := by
  induction tails with
  | nil => cases mem
  | cons tail later others =>
    obtain ⟨otherAccepts, otherKind, otherRole, otherBody⟩ := tail
    simp only [areOrderly, Bool.and_eq_true, decide_eq_true_eq] at orderly
    cases mem with
    | head => exact ⟨orderly.1.1.1.2, orderly.1.1.2, orderly.1.2⟩
    | tail _ mem => exact others orderly.2 mem

/-- The comments that an orderly rule produces have no children. -/
theorem children_of_isComment (produced : (dialect.grammar tolerant).Produces shape trees) (orderly : isOrderly shape = true) :
    ∀ tree ∈ trees, tree.isComment = true → tree.children = [] := by
  induction produced with
  | empty | ending | manyNone | itemsNone | without => simp
  | leaf | glued => exact List.forall_mem_singleton.mpr fun _ => rfl
  | call _ others => exact others (isOrderly_rule dialect _)
  | seq _ _ front back =>
    obtain ⟨first, second⟩ := (Bool.and_eq_true _ _).mp orderly
    exact List.forall_mem_append.mpr ⟨front first, back second⟩
  | first _ others => exact others ((Bool.and_eq_true _ _).mp orderly).1
  | second _ others => exact others ((Bool.and_eq_true _ _).mp orderly).2
  | manyMore _ _ front back | itemsMore _ _ front back => exact List.forall_mem_append.mpr ⟨front orderly, back orderly⟩
  | node _ _ _ _ others =>
    obtain ⟨outer, below⟩ := (Bool.and_eq_true _ _).mp orderly
    obtain ⟨-, other⟩ := (Bool.and_eq_true _ _).mp outer
    obtain ⟨ahead, -⟩ := List.forall_mem_append.mp (others below)
    refine List.forall_mem_append.mpr ⟨ahead, List.forall_mem_singleton.mpr fun isComment => ?_⟩
    exact absurd (of_decide_eq_true isComment) (of_decide_eq_true other)
  | hollow _ _ others => exact others ((Bool.and_eq_true _ _).mp orderly).2
  | role _ others =>
    refine List.forall_mem_map.mpr fun tree mem isComment => ?_
    rw [Tree.children_withRole]
    apply others orderly tree mem
    unfold Tree.isComment
    rwa [← Tree.kind_withRole]
  | only _ _ _ others => exact others orderly
  | base _ others => exact others ((Bool.and_eq_true _ _).mp ((Bool.and_eq_true _ _).mp orderly).1).2
  | grown _ _ _ tail _ _ others =>
    obtain ⟨before, -⟩ := List.forall_mem_append.mp (others orderly)
    refine List.forall_mem_append.mpr ⟨before, List.forall_mem_singleton.mpr fun isComment => ?_⟩
    exact absurd (of_decide_eq_true isComment) (orderly_of_mem ((Bool.and_eq_true _ _).mp orderly).2 tail).1
  | comment _ _ childless others =>
    obtain ⟨before, behind⟩ := List.forall_mem_append.mp (others orderly)
    exact List.forall_mem_append.mpr ⟨before, List.forall_mem_cons.mpr ⟨fun _ => childless, behind⟩⟩

end Produced

end Scaffold.Edit
