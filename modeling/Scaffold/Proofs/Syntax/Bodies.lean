import Scaffold.Proofs.Syntax.Checks

/-! # Constructs with one body

Most kinds of constructs stand in one rule of the language only. That it is so is a check on the rules that computes, and
then every tree of this kind is what the body of that rule derives.
-/

namespace Scaffold.Syntax

open Scaffold.Text

namespace Shape

/-- Whether two shapes are the same. Those that hold functions are not compared. -/
def agrees : Shape → Shape → Bool
  | .empty, .empty | .never, .never => true
  | .leaf kind terminal, .leaf kind' terminal' | .glued kind terminal, .glued kind' terminal' =>
    kind = kind' && terminal = terminal'
  | .ending ending, .ending ending' => ending = ending'
  | .call symbol, .call symbol' => symbol = symbol'
  | .seq first second, .seq first' second' | .alt first second, .alt first' second' =>
    agrees first first' && agrees second second'
  | .many body, .many body' | .items body, .items body' | .without body, .without body' => agrees body body'
  | .node kind body, .node kind' body' => kind = kind' && agrees body body'
  | .role role body, .role role' body' => role = role' && agrees body body'
  | _, _ => false

theorem eq_of_agrees : ∀ {shape other : Shape}, shape.agrees other = true → shape = other
  | .empty, other, same | .never, other, same => by
    cases other <;> first | rfl | cases same
  | .leaf kind terminal, other, same | .glued kind terminal, other, same => by
    cases other <;> first | cases same | simp_all [agrees]
  | .ending _, other, same | .call _, other, same => by
    cases other <;> first | cases same | simp_all [agrees]
  | .seq first second, other, same | .alt first second, other, same => by
    cases other <;> first | cases same | skip
    obtain ⟨front, back⟩ := (Bool.and_eq_true _ _).mp same
    rw [eq_of_agrees front, eq_of_agrees back]
  | .many body, other, same | .items body, other, same | .without body, other, same => by
    cases other <;> first | cases same | skip
    have inner : agrees body _ = true := same
    rw [eq_of_agrees inner]
  | .node _ body, other, same | .role _ body, other, same => by
    cases other <;> first | cases same | skip
    obtain ⟨own, inner⟩ := (Bool.and_eq_true _ _).mp same
    rw [of_decide_eq_true own, eq_of_agrees inner]
  | .only _ _, other, same | .grow _ _ _, other, same => by
    cases other <;> cases same

/-- Whether all constructs of a kind that stand in a shape have the same body. -/
def givesOnly (kind : Kind) (body : Shape) : Shape → Bool :=
  passes (fun other found => kind ≠ other || agrees found body) (fun other _ => kind ≠ other)

end Shape

variable {dialect : Dialect} {text : List Char} {root tree : Tree} {kind : Kind} {body : Shape}

/-- A tree is what a body derives in a text, with the comments in front of it left out. -/
def Tree.IsDerived (dialect : Dialect) (text : List Char) (body : Shape) (tree : Tree) : Prop :=
  ∃ at_ trees next first others, at_.In text ∧ (dialect.grammar false).Derives body at_ trees next ∧
    trees.dropWhile Tree.isComment = first :: others ∧
      tree = .node tree.kind tree.role first.start ((first :: others).getLast (List.cons_ne_nil _ _)).stop (first :: others)

/-- Where one body alone gives trees of a kind, all trees of this kind in a file are derived from it. -/
theorem Dialect.isDerived_of_parse (parsed : dialect.parse (encodeChars text) = .ok root)
    (only : ∀ symbol, Shape.givesOnly kind body (dialect.rule symbol) = true) (other : kind ≠ .program)
    (mem : tree ∈ root.preorder) (own : tree.kind = kind) (inner : tree.children ≠ []) :
    tree.IsDerived dialect text body := by
  obtain ⟨trees, comments, next, rfl, derived, comment⟩ := Dialect.exists_derivation_of_parse parsed
  have all (shape : Shape) (pass : Shape.givesOnly kind body shape = true) :=
    @Shape.all_of_passes _ _ (kind ≠ ·) (fun _ _ different => of_decide_eq_true different) shape pass
  have everywhere := @Grammar.Derives.everywhere _ _ text _ _
    (fun tree => tree.kind = kind → tree.children ≠ [] → tree.IsDerived dialect text body)
    (fun symbol => all _ (only symbol)) ?_ ?_ ?_ ?_ _ _ _ _ derived ⟨[], rfl, rfl⟩ (all Shape.file rfl)
  · rcases Tree.mem_preorder_iff.mp mem with rfl | ⟨child, member, mem⟩
    · exact absurd own.symm other
    · rcases List.mem_append.mp member with member | member
      · exact everywhere child member tree mem own inner
      · obtain ⟨-, childless⟩ := comment child member
        rcases Tree.mem_preorder_iff.mp mem with rfl | ⟨below, found, -⟩
        · exact absurd childless inner
        · rw [childless] at found
          cases found
  · exact fun _ _ _ _ childless => absurd rfl childless
  · rintro ⟨found, _, start, stop, children⟩ role holds own inner
    obtain ⟨at_, trees, next, first, others, inside, derived, left, eq⟩ := holds own inner
    injection eq with _ _ start_eq stop_eq children_eq
    exact ⟨at_, trees, next, first, others, inside, derived, left, by rw [← start_eq, ← stop_eq, ← children_eq]; rfl⟩
  · rintro found candidate at_ trees next first others ⟨same, -⟩ inside derived left rfl -
    obtain rfl := Shape.eq_of_agrees (((Bool.or_eq_true _ _).mp same).resolve_left fun different =>
      of_decide_eq_true different rfl)
    exact ⟨at_, trees, next, first, others, inside, derived, left, rfl⟩
  · exact fun found _ _ _ different own => absurd own.symm different

/-! ## Kinds of leaves -/

section Leaves

variable {σ : Type} {accepts : Kind → Bool}

mutual

/-- Whether the leaves of a rule are of accepted kinds. -/
def Rule.leavesOf (accepts : Kind → Bool) : Rule σ → Bool
  | .leaf kind _ | .glued kind _ => accepts kind
  | .seq first second | .alt first second => Rule.leavesOf accepts first && Rule.leavesOf accepts second
  | .many body | .items body | .node _ body | .role _ body | .only _ body => Rule.leavesOf accepts body
  | .grow base _ tails => Rule.leavesOf accepts base && Tail.leavesOf accepts tails
  | .empty | .never | .ending _ | .call _ | .without _ => true

def Tail.leavesOf (accepts : Kind → Bool) : List (Tail σ) → Bool
  | [] => true
  | .mk _ _ _ body :: later => Rule.leavesOf accepts body && Tail.leavesOf accepts later

end

theorem Tail.leavesOf_append (front back : List (Tail σ)) :
    Tail.leavesOf accepts (front ++ back) = (Tail.leavesOf accepts front && Tail.leavesOf accepts back) := by
  induction front with
  | nil => rfl
  | cons tail later eq =>
    obtain ⟨_, _, _, body⟩ := tail
    simp only [List.cons_append, leavesOf, eq, Bool.and_assoc]

theorem Tail.leavesOf_ite {condition : Prop} [Decidable condition] {tails : List (Tail σ)}
    (leaves : Tail.leavesOf accepts tails = true) : Tail.leavesOf accepts (if condition then tails else []) = true := by
  split
  · exact leaves
  · rfl

theorem Tail.leavesOf_of_mem {tails : List (Tail σ)} (leaves : Tail.leavesOf accepts tails = true) {fits : Kind → Bool}
    {kind : Kind} {role : Option Role} {body : Rule σ} (mem : .mk fits kind role body ∈ tails) :
    body.leavesOf accepts = true := by
  induction tails with
  | nil => cases mem
  | cons tail later found =>
    obtain ⟨_, _, _, other⟩ := tail
    simp only [leavesOf, Bool.and_eq_true] at leaves
    rcases List.mem_cons.mp mem with same | mem
    · cases same
      exact leaves.1
    · exact found leaves.2 mem

/-- A tree without children is of an accepted kind. -/
def Tree.IsLeafOf (accepts : Kind → Bool) (tree : Tree) : Prop := tree.children = [] → accepts tree.kind = true

open Scaffold.Syntax.Tree in
/-- Everywhere in what is derived the leaves are those of the rules. -/
theorem Grammar.Derives.leavesOf {grammar : Grammar σ} {rule : Rule σ} {at_ next : Cursor} {trees : List Tree}
    (strict : grammar.tolerant = false) (comment : accepts .comment = true)
    (all : ∀ symbol, (grammar.rule symbol).leavesOf accepts = true) (derived : grammar.Derives rule at_ trees next)
    (own : rule.leavesOf accepts = true) : ∀ tree ∈ trees, tree.Everywhere (Tree.IsLeafOf accepts) := by
  have alone {kind : Kind} (start stop : Nat) (accepted : accepts kind = true) :
      (Tree.node kind none start stop []).Everywhere (Tree.IsLeafOf accepts) :=
    everywhere_iff.mpr ⟨fun _ => accepted, fun child mem => absurd mem List.not_mem_nil⟩
  have stable (tree : Tree) (role : Option Role) (holds : tree.IsLeafOf accepts) : (tree.recast role).IsLeafOf accepts := holds
  induction derived with
  | empty | manyNone | itemsNone | without => simp
  | leaf found =>
    obtain ⟨comments, start, stop, rfl, areComments⟩ := exists_of_readLeaf found
    intro tree mem
    rcases List.mem_append.mp mem with mem | mem
    · obtain ⟨start, stop, rfl⟩ := areComments tree mem
      exact alone _ _ comment
    · rw [List.mem_singleton.mp mem]
      exact alone _ _ own
  | glued found =>
    obtain ⟨start, stop, rfl⟩ := exists_of_readGlued found
    intro tree mem
    rw [List.mem_singleton.mp mem]
    exact alone _ _ own
  | ending found =>
    intro tree mem
    obtain ⟨start, stop, rfl⟩ := readEnding_comments _ _ _ _ found tree mem
    exact alone _ _ comment
  | itemsError tolerant => rw [strict] at tolerant; cases tolerant
  | call _ inner => exact inner (all _)
  | first _ inner | base _ inner => exact inner ((Bool.and_eq_true _ _).mp own).1
  | second _ inner => exact inner ((Bool.and_eq_true _ _).mp own).2
  | only _ _ _ inner => exact inner own
  | seq _ _ front back =>
    intro tree mem
    exact (List.mem_append.mp mem).elim (front ((Bool.and_eq_true _ _).mp own).1 tree) (back ((Bool.and_eq_true _ _).mp own).2 tree)
  | manyMore _ _ front back | itemsMore _ _ front back =>
    intro tree mem
    exact (List.mem_append.mp mem).elim (front own tree) (back own tree)
  | node _ inner =>
    intro tree mem
    rcases exists_of_mem_gather mem with ⟨mem, -⟩ | ⟨first, others, eq, rfl⟩
    · exact inner own tree mem
    · refine everywhere_iff.mpr ⟨fun none_ => absurd none_ (List.cons_ne_nil _ _), fun child mem => inner own child ?_⟩
      rw [Tree.children, ← eq] at mem
      exact (List.dropWhile_sublist _).subset mem
  | role _ inner =>
    intro tree mem
    obtain ⟨original, member, rfl⟩ := List.mem_map.mp mem
    exact (inner own original member).withRole stable _
  | @grown _ _ _ _ _ _ _ trees tree _ kind role _ _ tail _ _ smaller behind =>
    have body := Tail.leavesOf_of_mem ((Bool.and_eq_true _ _).mp own).2 tail
    obtain ⟨other, eq⟩ := extended_eq kind role tree trees
    intro whole mem
    rcases List.mem_append.mp mem with mem | mem
    · exact smaller own whole (List.mem_append_left _ mem)
    · rw [List.mem_singleton.mp mem, eq]
      refine everywhere_iff.mpr ⟨fun none_ => absurd none_ (List.cons_ne_nil _ _), fun child mem => ?_⟩
      rcases List.mem_cons.mp mem with rfl | mem
      · exact (smaller own tree (by simp)).recast stable other
      · exact behind body child mem

end Leaves

/-- No leaf of the language is an object. -/
theorem leavesOf_rule (dialect : Dialect) (symbol : Symbol) : (dialect.rule symbol).leavesOf (· ≠ .object) = true := by
  cases symbol with
  | expression place binding assertions =>
    change (true && Tail.leavesOf _ _) = true
    simp only [Tail.leavesOf_append, Shape.operatorTails, Shape.binaryOperators, List.flatMap_cons, List.flatMap_nil,
      Bool.and_eq_true, true_and]
    and_intros <;> first | rfl | exact Tail.leavesOf_ite rfl
  | declarators first => cases first <;> rfl
  | destructuring assigned => cases assigned <;> rfl
  | operand place =>
    obtain ⟨openEnded, typedArrows⟩ := place
    cases openEnded <;> cases typedArrows <;> rfl
  | type place =>
    obtain ⟨ending, functions, inCall, shortNames⟩ := place
    cases functions <;> cases inCall <;> rfl
  | simpleType place =>
    obtain ⟨ending, functions, inCall, shortNames⟩ := place
    cases inCall <;> cases shortNames <;> rfl
  | typeArguments inCall => cases inCall <;> rfl
  | angled place => cases dialect <;> rfl
  | _ => rfl

end Scaffold.Syntax
