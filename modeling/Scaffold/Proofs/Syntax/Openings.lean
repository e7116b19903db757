import Scaffold.Proofs.Syntax.Language
import Scaffold.Proofs.Text.Widening

/-! # How constructs begin

An expression is one tree, behind comments, and begins at a byte that is no white space. An array holds
such trees between its brackets, any two of them with a comma between them.
-/

namespace Scaffold.Syntax

open Scaffold.Text

/-- Trees that, behind comments, begin with a tree that is no comment. -/
def Opened (text : List Char) (trees : List Tree) : Prop :=
  ∃ comments tree later, trees = comments ++ tree :: later ∧ (∀ comment ∈ comments, comment.isComment = true) ∧
    tree.isComment = false ∧ Dark (encodeChars text) tree.start

/-- A tree that may be an element of a list: it is named, no comment, and does not begin with white space. -/
structure Tree.IsItem (text : List Char) (tree : Tree) : Prop where
  isNamed : tree.isNamed = true
  notComment : tree.isComment = false
  dark : Dark (encodeChars text) tree.start

/-- A punctuation mark. -/
structure Tree.IsMark (text : List Char) (mark : String) (tree : Tree) : Prop where
  kind_eq : tree.kind = .token mark
  stop_eq : tree.stop = tree.start + width mark.toList
  dark : Dark (encodeChars text) tree.start

/-- Comments and one item behind them. -/
def OneItem (text : List Char) (trees : List Tree) : Prop :=
  ∃ comments tree, trees = comments ++ [tree] ∧ (∀ comment ∈ comments, comment.isComment = true) ∧ tree.IsItem text

theorem OneItem.opened {text : List Char} {trees : List Tree} (one : OneItem text trees) : Opened text trees := by
  obtain ⟨comments, tree, rfl, comment, item⟩ := one
  exact ⟨comments, tree, [], rfl, comment, item.notComment, item.dark⟩

/-- Items and commas, no two items side by side. -/
inductive Parted (text : List Char) : List Tree → Prop
  | nil : Parted text []
  | comma {tree : Tree} {later : List Tree} (isComma : tree.IsMark text ",") (rest : Parted text later) :
      Parted text (tree :: later)
  | item {tree : Tree} {later : List Tree} (isItem : tree.IsItem text)
      (next : ∀ first ∈ later.head?, first.IsMark text ",") (rest : Parted text later) : Parted text (tree :: later)

/-- The children of an array, comments left out: brackets around items and commas. -/
inductive Bracketed (text : List Char) (siblings : List Tree) : Prop
  | mk {opening closing : Tree} {inner : List Tree} (isOpening : opening.IsMark text "[")
      (isClosing : closing.IsMark text "]")
      (order : siblings.filter (fun sibling => !sibling.isComment) = opening :: (inner ++ [closing]))
      (parted : Parted text inner)

theorem Bracketed.dropWhile {text : List Char} {trees : List Tree} (bracketed : Bracketed text trees) :
    Bracketed text (trees.dropWhile Tree.isComment) := by
  obtain ⟨isOpening, isClosing, order, parted⟩ := bracketed
  have split : (trees.takeWhile Tree.isComment ++ trees.dropWhile Tree.isComment).filter (fun tree => !tree.isComment) =
      trees.filter fun tree => !tree.isComment := by
    rw [List.takeWhile_append_dropWhile]
  have comments : (trees.takeWhile Tree.isComment).filter (fun tree => !tree.isComment) = [] := by
    refine List.filter_eq_nil_iff.mpr fun tree mem => ?_
    simpa using List.all_eq_true.mp List.all_takeWhile tree mem
  rw [List.filter_append, comments, List.nil_append] at split
  exact .mk isOpening isClosing (split.trans order) parted

/-! ## Terminals -/

variable {text : List Char}

/-- Where comments end, no separator stands. -/
theorem triviaFrom_stop (offset skip : Nat) (rest : List Char) {c : Char} {more : List Char}
    (stop : (triviaFrom offset skip rest).2.rest = c :: more) : isSeparator c = false := by
  induction rest generalizing offset skip with
  | nil =>
    cases skip <;> cases stop
  | cons head rest ends =>
    cases skip with
    | succ skip => exact ends _ skip stop
    | zero =>
      unfold triviaFrom at stop
      split at stop
      · exact ends _ 0 stop
      · next plain =>
        split at stop
        · cases stop
          exact Bool.eq_false_iff.mpr plain
        · exact ends _ _ stop

theorem not_isBlankByte_of_not_isSeparator {c : Char} {byte : UInt8} (plain : isSeparator c = false)
    (same : byte.toNat = c.toNat ∨ 0x80 ≤ c.toNat ∧ 0x80 ≤ byte.toNat) : isBlankByte byte = false := by
  simp only [isSeparator, Bool.or_eq_false_iff, Bool.and_eq_false_iff, decide_eq_false_iff_not] at plain
  simp only [isBlankByte, Bool.or_eq_false_iff, Bool.and_eq_false_iff, decide_eq_false_iff_not, UInt8.le_iff_toNat_le,
    ← UInt8.toNat_inj, UInt8.reduceToNat]
  omega

/-- A cursor at which no separator stands is at a byte that is no white space. -/
theorem Cursor.In.dark {at_ : Cursor} (inside : at_.In text) {c : Char} {more : List Char} (head : at_.rest = c :: more)
    (plain : isSeparator c = false) : Dark (encodeChars text) at_.offset := by
  obtain ⟨before, split, offset⟩ := inside
  have here : InCharacter (fun c => !isSeparator c) text at_.offset := by
    have := charWidth_pos c
    exact ⟨before, c, more, by rw [split, head], by simp [plain], by omega, by omega⟩
  obtain ⟨d, byte, other, found, same⟩ := here.byte
  exact ⟨byte, found, not_isBlankByte_of_not_isSeparator (by simpa using other) same⟩

/-- A terminal is read behind comments, and not at a separator. -/
theorem readLeaf_spec {kind : Kind} {terminal : Terminal} {at_ next : Cursor} {trees : List Tree} (inside : at_.In text)
    (found : readLeaf kind terminal at_ = some (trees, next)) :
    ∃ comments start rest, (∀ comment ∈ comments, comment.isComment = true) ∧ Dark (encodeChars text) start ∧
      terminal.length rest ≠ 0 ∧
      trees = comments ++ [.node kind none start (start + width (rest.take (terminal.length rest))) []] := by
  have here := inside.trivia.2
  unfold readLeaf readGlued at found
  dsimp only at found
  split at found
  · cases found
  · next glued_found =>
    split at glued_found
    · cases glued_found
    · next _ some_ =>
      cases glued_found
      cases found
      refine ⟨_, _, at_.trivia.2.rest, fun comment mem => ?_, ?_, some_, rfl⟩
      · obtain ⟨start, stop, rfl⟩ := triviaFrom_comments _ 0 _ comment mem
        rfl
      · cases rest : at_.trivia.2.rest with
        | nil =>
          rw [rest, Terminal.length_nil] at some_
          exact absurd rfl some_
        | cons c more => exact here.dark rest (triviaFrom_stop _ 0 _ rest)

/-- What is read of a text as a mark is the mark. -/
theorem Terminal.take_length_mark {mark : String} {rest : List Char} (found : (Terminal.mark mark []).length rest ≠ 0) :
    rest.take ((Terminal.mark mark []).length rest) = mark.toList := by
  obtain ⟨front, -, eq⟩ := Terminal.of_length_mark found
  rw [eq, ← String.length_toList]
  exact (List.prefix_iff_eq_take.mp front).symm

/-- A construct whose first tree is no comment is one tree, and begins where that does. -/
theorem Opened.gather {trees : List Tree} (opened : Opened text trees) {kind : Kind} (composite : kind.isComposite = true) :
    OneItem text (gather kind trees) := by
  simp only [Kind.isComposite, Bool.and_eq_true, decide_eq_true_eq] at composite
  obtain ⟨comments, tree, later, rfl, comment, plain, dark⟩ := opened
  rw [gather_eq comment plain]
  exact ⟨comments, _, rfl, comment, composite.1.1.1, decide_eq_false composite.1.1.2, dark⟩

namespace Grammar

variable {σ : Type} {grammar : Grammar σ} {text : List Char} {first second body : Rule σ}

/-- What a rule yields begins, behind comments, with a tree that is none. -/
def Opens (grammar : Grammar σ) (text : List Char) (rule : Rule σ) : Prop :=
  ∀ at_ trees next, Cursor.In text at_ → grammar.Derives rule at_ trees next → Opened text trees

/-- A rule yields nothing, or begins with a tree that is no comment. -/
def MayOpen (grammar : Grammar σ) (text : List Char) (rule : Rule σ) : Prop :=
  ∀ at_ trees next, Cursor.In text at_ → grammar.Derives rule at_ trees next → trees = [] ∨ Opened text trees

/-- A rule yields nothing. -/
def Silent (grammar : Grammar σ) (rule : Rule σ) : Prop :=
  ∀ at_ trees next, grammar.Derives rule at_ trees next → trees = []

/-- A rule yields one item behind comments. -/
def YieldsItem (grammar : Grammar σ) (text : List Char) (rule : Rule σ) : Prop :=
  ∀ at_ trees next, Cursor.In text at_ → grammar.Derives rule at_ trees next → OneItem text trees

theorem YieldsItem.opens (one : grammar.YieldsItem text body) : grammar.Opens text body :=
  fun at_ trees next inside derived => (one at_ trees next inside derived).opened

theorem silent_empty : grammar.Silent (.empty : Rule σ) := by
  intro at_ trees next derived
  cases derived
  rfl

theorem silent_without : grammar.Silent (.without body) := by
  intro at_ trees next derived
  cases derived
  rfl

/-! ## Rules that begin with a tree -/

theorem opens_leaf {kind : Kind} {terminal : Terminal} (notComment : kind ≠ .comment) :
    grammar.Opens text (.leaf kind terminal) := by
  intro at_ trees next inside derived
  cases derived with
  | leaf found =>
    obtain ⟨comments, start, rest, comment, dark, -, rfl⟩ := readLeaf_spec inside found
    exact ⟨comments, _, [], rfl, comment, decide_eq_false notComment, dark⟩

theorem opens_seq (front : grammar.Opens text first) : grammar.Opens text (.seq first second) := by
  intro at_ trees next inside derived
  cases derived with
  | @seq _ _ _ _ _ _ more frontDerived backDerived =>
    obtain ⟨comments, tree, later, rfl, comment, plain, dark⟩ := front _ _ _ inside frontDerived
    exact ⟨comments, tree, later ++ more, by simp, comment, plain, dark⟩

theorem opens_seq_of_mayOpen (front : grammar.MayOpen text first) (back : grammar.Opens text second) :
    grammar.Opens text (.seq first second) := by
  intro at_ trees next inside derived
  cases derived with
  | @seq _ _ _ _ _ _ more frontDerived backDerived =>
    rcases front _ _ _ inside frontDerived with rfl | ⟨comments, tree, later, rfl, comment, plain, dark⟩
    · exact back _ _ _ (frontDerived.span inside).2 backDerived
    · exact ⟨comments, tree, later ++ more, by simp, comment, plain, dark⟩

theorem opens_alt (left : grammar.Opens text first) (right : grammar.Opens text second) :
    grammar.Opens text (.alt first second) := by
  intro at_ trees next inside derived
  cases derived with
  | first taken => exact left _ _ _ inside taken
  | second taken => exact right _ _ _ inside taken

theorem opens_call {symbol : σ} (rule : grammar.Opens text (grammar.rule symbol)) : grammar.Opens text (.call symbol) := by
  intro at_ trees next inside derived
  cases derived with
  | call inner => exact rule _ _ _ inside inner

theorem opens_role {role : Role} (rule : grammar.Opens text body) : grammar.Opens text (.role role body) := by
  intro at_ trees next inside derived
  cases derived with
  | role inner =>
    obtain ⟨comments, tree, later, rfl, comment, plain, dark⟩ := rule _ _ _ inside inner
    refine ⟨comments.map (Tree.withRole role), tree.withRole role, later.map (Tree.withRole role), by simp, ?_, ?_, ?_⟩
    · intro other mem
      obtain ⟨original, member, rfl⟩ := List.mem_map.mp mem
      rw [Tree.isComment_withRole]
      exact comment original member
    · rwa [Tree.isComment_withRole]
    · rwa [Tree.start_withRole]

theorem opens_seqs {head next : Rule σ} {later : List (Rule σ)} (front : grammar.MayOpen text head)
    (back : grammar.Opens text (Rule.seqs (next :: later))) : grammar.Opens text (Rule.seqs (head :: next :: later)) :=
  opens_seq_of_mayOpen front back

theorem opens_seqs_head {head : Rule σ} {later : List (Rule σ)} (front : grammar.Opens text head) :
    grammar.Opens text (Rule.seqs (head :: later)) := by
  cases later with
  | nil => exact front
  | cons next others => exact opens_seq front

theorem opens_alts {rules : List (Rule σ)} (all : ∀ rule ∈ rules, grammar.Opens text rule) :
    grammar.Opens text (Rule.alts rules) := by
  induction rules with
  | nil =>
    intro at_ trees next _ derived
    cases derived
  | cons head later opens =>
    cases later with
    | nil => exact all head List.mem_cons_self
    | cons next others =>
      exact opens_alt (all head List.mem_cons_self) (opens fun rule mem => all rule (List.mem_cons_of_mem _ mem))

theorem mayOpen_opt (rule : grammar.Opens text body) : grammar.MayOpen text (Rule.opt body) := by
  intro at_ trees next inside derived
  cases derived with
  | first taken => exact .inr (rule _ _ _ inside taken)
  | second taken => exact .inl (silent_empty _ _ _ taken)

theorem mayOpen_many (rule : grammar.Opens text body) : grammar.MayOpen text (.many body) := by
  intro at_ trees next inside derived
  cases derived with
  | manyNone => exact .inl rfl
  | manyMore front back => exact .inr (opens_seq rule _ _ _ inside (.seq front back))

theorem opens_modified {modifiers : List (Rule σ)} (all : ∀ rule ∈ modifiers, grammar.Opens text rule)
    (rule : grammar.Opens text body) : grammar.Opens text (Rule.modified modifiers body) := by
  induction modifiers with
  | nil => exact rule
  | cons head later opens =>
    exact opens_alt (opens_seq (all head List.mem_cons_self)) (opens fun rule mem => all rule (List.mem_cons_of_mem _ mem))

/-! ## Rules that yield one item -/

theorem yieldsItem_leaf {kind : Kind} {terminal : Terminal} (named : kind.isNamed = true) (notComment : kind ≠ .comment) :
    grammar.YieldsItem text (.leaf kind terminal) := by
  intro at_ trees next inside derived
  cases derived with
  | leaf found =>
    obtain ⟨comments, start, rest, comment, dark, -, rfl⟩ := readLeaf_spec inside found
    exact ⟨comments, _, rfl, comment, named, decide_eq_false notComment, dark⟩

theorem yieldsItem_node {kind : Kind} (opens : grammar.Opens text body) (composite : kind.isComposite = true) :
    grammar.YieldsItem text (.node kind body) := by
  intro at_ trees next inside derived
  cases derived with
  | node inner => exact (opens _ _ _ inside inner).gather composite

theorem opens_node {kind : Kind} (opens : grammar.Opens text body) (composite : kind.isComposite = true) :
    grammar.Opens text (.node kind body) :=
  (yieldsItem_node opens composite).opens

theorem yieldsItem_alt (left : grammar.YieldsItem text first) (right : grammar.YieldsItem text second) :
    grammar.YieldsItem text (.alt first second) := by
  intro at_ trees next inside derived
  cases derived with
  | first taken => exact left _ _ _ inside taken
  | second taken => exact right _ _ _ inside taken

theorem yieldsItem_call {symbol : σ} (rule : grammar.YieldsItem text (grammar.rule symbol)) :
    grammar.YieldsItem text (.call symbol) := by
  intro at_ trees next inside derived
  cases derived with
  | call inner => exact rule _ _ _ inside inner

theorem yieldsItem_seq_silent (front : grammar.YieldsItem text first) (back : grammar.Silent second) :
    grammar.YieldsItem text (.seq first second) := by
  intro at_ trees next inside derived
  cases derived with
  | seq frontDerived backDerived =>
    rw [back _ _ _ backDerived, List.append_nil]
    exact front _ _ _ inside frontDerived

theorem yieldsItem_barring {excluded : Rule σ} (rule : grammar.YieldsItem text body) :
    grammar.YieldsItem text (Rule.barring excluded body) := by
  intro at_ trees next inside derived
  cases derived with
  | seq frontDerived backDerived =>
    rw [silent_without _ _ _ frontDerived, List.nil_append]
    exact rule _ _ _ (frontDerived.span inside).2 backDerived

theorem yieldsItem_alts {rules : List (Rule σ)} (all : ∀ rule ∈ rules, grammar.YieldsItem text rule) :
    grammar.YieldsItem text (Rule.alts rules) := by
  induction rules with
  | nil =>
    intro at_ trees next _ derived
    cases derived
  | cons head later yields =>
    cases later with
    | nil => exact all head List.mem_cons_self
    | cons next others =>
      exact yieldsItem_alt (all head List.mem_cons_self) (yields fun rule mem => all rule (List.mem_cons_of_mem _ mem))

/-- A tree that grows by tails stays one item. -/
theorem yieldsItem_grow {base guard : Rule σ} {tails : List (Tail σ)} (rule : grammar.YieldsItem text base)
    (kinds : ∀ accepts kind role body, .mk accepts kind role body ∈ tails → kind.isComposite = true) :
    grammar.YieldsItem text (.grow base guard tails) := by
  intro at_ trees next inside derived
  generalize same : Rule.grow base guard tails = rule_ at derived
  induction derived with
  | base inner =>
    cases same
    exact rule _ _ _ inside inner
  | @grown _ _ _ _ _ _ _ trees tree _ kind role _ _ mem _ _ smaller =>
    cases same
    obtain ⟨comments, item, split, comment, isItem⟩ := smaller inside rfl
    obtain ⟨rfl, same⟩ := List.append_inj' split rfl
    cases same
    have composite : kind.isComposite = true := kinds _ _ _ _ mem
    simp only [Kind.isComposite, Bool.and_eq_true, decide_eq_true_eq] at composite
    exact ⟨_, _, rfl, comment, composite.1.1.1, decide_eq_false composite.1.1.2, isItem.dark⟩
  | _ => cases same

end Grammar

/-! ## Expressions -/

namespace Dialect

open Grammar

variable {dialect : Dialect} {tolerant : Bool}

private def AnyForm (_ : Kind) (_ : Shape) : Prop := True

private def CompositeKind (kind : Kind) : Prop := kind.isComposite = true

/-- The tails of the language make constructs. -/
private theorem admitsAll : Admits AnyForm CompositeKind where
  construct _ _ _ _ _ := trivial
  tail _ composite _ _ := composite
  method modifier reserved plain := by
    have any {kind : Kind} {body : Shape} : AnyForm kind body := trivial
    have all (word : String) : (modifier word).All AnyForm CompositeKind := by
      rcases plain with rfl | rfl
      · exact all_word
      · exact Shape.all_modifier
    simp [Shape.methodDefinition, all, any]
  array := by
    have any {kind : Kind} {body : Shape} : AnyForm kind body := trivial
    simp [Shape.array, Shape.spread, any]

private theorem opens_mark {mark : String} {continuations : List String} :
    (dialect.grammar tolerant).Opens text (Rule.mark mark continuations) := opens_leaf nofun

private theorem opens_word {word : String} : (dialect.grammar tolerant).Opens text (Rule.word word) := opens_leaf nofun

theorem yieldsItem_spread : (dialect.grammar tolerant).YieldsItem text Shape.spread :=
  yieldsItem_node (opens_seq opens_mark) rfl

private theorem yieldsItem_identifier : (dialect.grammar tolerant).YieldsItem text Shape.identifier :=
  yieldsItem_leaf rfl nofun

private theorem opens_typeArguments {inCall : Bool} :
    (dialect.grammar tolerant).Opens text (.call (.typeArguments inCall)) := by
  refine opens_call (opens_node (opens_seqs_head ?_) rfl)
  split <;> exact opens_mark

private theorem opens_typeParameters : (dialect.grammar tolerant).Opens text (.call .typeParameters) :=
  opens_call (opens_node (opens_seqs_head opens_mark) (by rfl))

private theorem opens_parameters : (dialect.grammar tolerant).Opens text (.call .parameters) :=
  opens_call (opens_node (opens_seqs_head opens_mark) (by rfl))

theorem yieldsItem_arrowFunction {place : Place} :
    (dialect.grammar tolerant).YieldsItem text (Shape.arrowFunction place) := by
  have single : (dialect.grammar tolerant).Opens text (.seq (.role .pattern Shape.identifier) (Rule.sign "=>")) :=
    opens_seq (opens_role yieldsItem_identifier.opens)
  have head (result : Shape) : (dialect.grammar tolerant).Opens text (.seq
      (Rule.seqs [Rule.opt (.call .typeParameters), .role .parameters (.call .parameters), result]) (Rule.sign "=>")) :=
    opens_seq (opens_seqs (mayOpen_opt opens_typeParameters) (opens_seqs_head (opens_role opens_parameters)))
  refine yieldsItem_node (opens_seq (opens_modified ?_ ?_)) rfl
  · intro rule mem
    rw [List.mem_singleton.mp mem]
    exact opens_word
  · split
    · refine opens_alts ?_
      intro rule mem
      simp only [List.mem_cons, List.not_mem_nil, or_false] at mem
      rcases mem with rfl | rfl | rfl
      · exact single
      · exact head _
      · exact head _
    · exact opens_alt single (head _)

theorem yieldsItem_functionExpression : (dialect.grammar tolerant).YieldsItem text Shape.functionExpression :=
  yieldsItem_alt (yieldsItem_node (opens_seqs (mayOpen_opt opens_word) (opens_seqs_head opens_word)) rfl)
    (yieldsItem_node (opens_seqs (mayOpen_opt opens_word) (opens_seqs_head opens_word)) rfl)

private theorem opens_destructuring {assigned : Bool} :
    (dialect.grammar tolerant).Opens text (.call (.destructuring assigned)) :=
  opens_call (opens_alt (opens_node (opens_seqs_head opens_mark) (by rfl)) (opens_node (opens_seqs_head opens_mark) (by rfl)))

/-- Type assertions and markup begin with an angle bracket. -/
private theorem yieldsItem_angled {place : Place} : (dialect.grammar tolerant).YieldsItem text (.call (.angled place)) := by
  refine yieldsItem_call ?_
  cases dialect with
  | plain => exact yieldsItem_node (opens_seq opens_typeArguments) rfl
  | markup =>
    exact yieldsItem_alt (yieldsItem_node (opens_seqs_head opens_mark) rfl)
      (yieldsItem_node (opens_seqs_head (opens_node (opens_seqs_head opens_mark) rfl)) rfl)

/-- An operand is one item. -/
theorem yieldsItem_operand {place : Place} : (dialect.grammar tolerant).YieldsItem text (.call (.operand place)) := by
  refine yieldsItem_call (yieldsItem_alts ?_)
  intro rule mem
  simp only [List.mem_cons, List.not_mem_nil, or_false] at mem
  rcases mem with rfl | rfl | rfl | rfl | rfl | rfl | rfl | rfl | rfl | rfl | rfl | rfl | rfl | rfl | rfl | rfl | rfl |
    rfl | rfl | rfl | rfl | rfl | rfl | rfl | rfl | rfl | rfl | rfl
  · exact yieldsItem_arrowFunction
  · exact yieldsItem_functionExpression
  · have decorator : (dialect.grammar tolerant).Opens text (.call .decorator) :=
      opens_call (opens_node (opens_seq opens_mark) (by rfl))
    exact yieldsItem_node (opens_seqs (mayOpen_many decorator) (opens_seqs_head opens_word)) rfl
  · exact yieldsItem_node (opens_seqs_head opens_word) rfl
  · exact yieldsItem_node (opens_seqs_head opens_word) rfl
  · exact yieldsItem_node (opens_seq opens_word) rfl
  · exact yieldsItem_node (opens_seq opens_word) rfl
  · exact yieldsItem_node (opens_seq (opens_alt opens_mark opens_mark)) rfl
  · refine yieldsItem_node (opens_seq (opens_alts ?_)) rfl
    intro rule mem
    simp only [List.mem_cons, List.not_mem_nil, or_false] at mem
    rcases mem with rfl | rfl | rfl | rfl | rfl | rfl | rfl <;> exact opens_leaf nofun
  · exact yieldsItem_node (opens_seqs_head opens_mark) rfl
  · exact yieldsItem_seq_silent (yieldsItem_call (yieldsItem_node (opens_seqs_head opens_mark) (by rfl))) silent_without
  · exact yieldsItem_seq_silent (yieldsItem_call (yieldsItem_node (opens_seqs_head opens_mark) (by rfl))) silent_without
  · exact yieldsItem_node (opens_seqs_head (opens_role opens_destructuring)) rfl
  · exact yieldsItem_call (yieldsItem_node (opens_seqs_head opens_mark) (by rfl))
  · exact yieldsItem_leaf rfl nofun
  · exact yieldsItem_leaf rfl nofun
  · exact yieldsItem_leaf rfl nofun
  · exact yieldsItem_angled
  · exact yieldsItem_leaf rfl nofun
  · exact yieldsItem_leaf rfl nofun
  · exact yieldsItem_leaf rfl nofun
  · exact yieldsItem_leaf rfl nofun
  · exact yieldsItem_leaf rfl nofun
  · exact yieldsItem_node (opens_seqs_head opens_word) rfl
  · exact yieldsItem_seq_silent (yieldsItem_leaf rfl nofun) silent_without
  · exact yieldsItem_seq_silent (yieldsItem_leaf rfl nofun) silent_without
  · exact yieldsItem_leaf rfl nofun
  · exact yieldsItem_barring yieldsItem_identifier

/-- A whole expression is one item. -/
theorem yieldsItem_expression {place : Place} : (dialect.grammar tolerant).YieldsItem text (Shape.expression place) := by
  have all := Shape.all_expressionRule admitsAll place 1 true
  exact yieldsItem_call (yieldsItem_grow yieldsItem_operand fun _ _ _ _ mem => (all.2.of_mem mem).1)

/-! ## Arrays -/

/-- A list without its comments. -/
private theorem filter_of_comments {comments later : List Tree} (comment : ∀ tree ∈ comments, tree.isComment = true) :
    (comments ++ later).filter (fun tree => !tree.isComment) = later.filter fun tree => !tree.isComment := by
  rw [List.filter_append, List.filter_eq_nil_iff.mpr (by simpa using comment), List.nil_append]

private theorem filter_mark {mark : String} {at_ next : Cursor} {trees : List Tree} (inside : at_.In text)
    (derived : (dialect.grammar tolerant).Derives (Rule.sign mark) at_ trees next) :
    ∃ tree, trees.filter (fun tree => !tree.isComment) = [tree] ∧ tree.IsMark text mark := by
  cases derived with
  | leaf found =>
    obtain ⟨comments, start, rest, comment, dark, some_, rfl⟩ := readLeaf_spec inside found
    exact ⟨_, filter_of_comments comment, rfl, by rw [Terminal.take_length_mark some_]; rfl, dark⟩

private theorem filter_optionalItem {item : Shape} (yields : (dialect.grammar tolerant).YieldsItem text item)
    {at_ next : Cursor} {trees : List Tree} (inside : at_.In text)
    (derived : (dialect.grammar tolerant).Derives (Rule.opt item) at_ trees next) :
    trees.filter (fun tree => !tree.isComment) = [] ∨
      ∃ tree, trees.filter (fun tree => !tree.isComment) = [tree] ∧ tree.IsItem text := by
  cases derived with
  | first taken =>
    obtain ⟨comments, tree, rfl, comment, isItem⟩ := yields _ _ _ inside taken
    refine .inr ⟨tree, ?_, isItem⟩
    rw [filter_of_comments comment, List.filter_cons_of_pos (by simp [isItem.notComment]), List.filter_nil]
  | second taken =>
    cases taken
    exact .inl rfl

/-- Commas with an item behind some of them. -/
private theorem parted_of_many {item : Shape} (yields : (dialect.grammar tolerant).YieldsItem text item) {at_ next : Cursor}
    {trees : List Tree} (inside : at_.In text)
    (derived : (dialect.grammar tolerant).Derives (.many (.seq (Rule.sign ",") (Rule.opt item))) at_ trees next) :
    Parted text (trees.filter fun tree => !tree.isComment) ∧
      ∀ first ∈ (trees.filter fun tree => !tree.isComment).head?, first.IsMark text "," := by
  generalize same : Rule.many (.seq (Rule.sign ",") (Rule.opt item)) = rule at derived
  induction derived with
  | manyNone => exact ⟨.nil, nofun⟩
  | manyMore front _ _ parted =>
    cases same
    obtain ⟨rest, commaNext⟩ := parted (front.span inside).2 rfl
    cases front with
    | seq comma optional =>
      obtain ⟨mark, eq, isComma⟩ := filter_mark inside comma
      rw [List.filter_append, List.filter_append, eq]
      refine ⟨.comma isComma ?_, fun first mem => ?_⟩
      · rcases filter_optionalItem yields (comma.span inside).2 optional with none_ | ⟨tree, one, isItem⟩
        · rw [none_]
          exact rest
        · rw [one]
          exact .item isItem commaNext rest
      · cases mem
        exact isComma
  | _ => cases same

/-- An array is a list of items in brackets. -/
theorem bracketed_of_array {at_ next : Cursor} {trees : List Tree} (inside : at_.In text)
    (derived : (dialect.grammar tolerant).Derives (Rule.brackets (Rule.holed (.alt Shape.spread (Shape.expression .enclosed))))
      at_ trees next) : Bracketed text trees := by
  have yields : (dialect.grammar tolerant).YieldsItem text (.alt Shape.spread (Shape.expression .enclosed)) :=
    yieldsItem_alt yieldsItem_spread yieldsItem_expression
  cases derived with
  | seq opening rest =>
    have afterOpening := (opening.span inside).2
    cases rest with
    | seq items closing =>
      obtain ⟨open_, openEq, isOpening⟩ := filter_mark inside opening
      obtain ⟨close_, closeEq, isClosing⟩ := filter_mark (items.span afterOpening).2 closing
      cases items with
      | seq optional others =>
        obtain ⟨rest, commaNext⟩ := parted_of_many yields (optional.span afterOpening).2 others
        refine .mk isOpening isClosing (by rw [List.filter_append, List.filter_append, List.filter_append, openEq, closeEq]; rfl) ?_
        rcases filter_optionalItem yields afterOpening optional with none_ | ⟨tree, one, isItem⟩
        · rw [none_]
          exact rest
        · rw [one]
          exact .item isItem commaNext rest

end Dialect

end Scaffold.Syntax
