import Scaffold.Edit.Call
import Scaffold.Proofs.Syntax.Checks
import Scaffold.Proofs.Syntax.Tokens

/-! # How statements begin and end

A statement begins at its first token, and it ends with its last one or with the comments that an omitted semicolon
leaves to it. So the range of a statement that is not empty begins neither at white space nor at a semicolon, and no blank
follows it that belongs to it. This is read off the rules of the language.
-/

namespace Scaffold.Syntax

open Scaffold.Text Scaffold.Edit

/-! ## The rules of the language -/

namespace Shape

/-- Whether a rule yields a tree that is no comment. -/
def isCertain : Shape → Bool
  | .leaf kind _ | .glued kind _ => kind ≠ .comment
  | .node kind body => kind ≠ .comment && isCertain body
  | .call _ | .never => true
  | .seq first second => isCertain first || isCertain second
  | .alt first second => isCertain first && isCertain second
  | .role _ body | .only _ body => isCertain body
  | .grow base _ _ => isCertain base
  | .empty | .ending _ | .many _ | .items _ | .without _ => false

/-- Whether the first tree that a rule yields begins at a token, and not with a semicolon. -/
def isFront : Shape → Bool
  | .leaf _ terminal => terminal.sparesSemicolon
  | .glued _ _ => false
  | .call symbol => symbol ≠ .statement
  | .seq first second => isFront first && (isCertain first || isFront second)
  | .alt first second => isFront first && isFront second
  | .node _ body | .many body | .items body | .role _ body | .only _ body => isFront body
  | .grow base _ _ => isFront base && isCertain base
  | .empty | .never | .ending _ | .without _ => true

/-- Whether the last tree that a rule yields ends with a token. -/
def isBack : Shape → Bool
  | .leaf _ terminal | .glued _ terminal => terminal.closes
  | .seq first second => isBack second && (isCertain second || isBack first)
  | .alt first second => isBack first && isBack second
  | .node _ body | .many body | .items body | .role _ body | .only _ body => isBack body
  | .grow base _ _ => isBack base
  | .call _ | .empty | .never | .ending _ | .without _ => true

/-- Whether a rule is that of a token. -/
def isMark : Shape → Bool
  | .leaf (.token _) _ => true
  | _ => false

/-- What is asked of the constructs: a statement begins and ends with a token, and an empty one is a mark. -/
def framesStatements (kind : Kind) (body : Shape) : Bool :=
  !isStatement kind || if kind = .emptyStatement then isMark body else isFront body && isBack body

/-- What is asked of the tails: they make no comment and no statement, and end with a token. -/
def framesTails (kind : Kind) (body : Shape) : Bool := kind ≠ .comment && !isStatement kind && isBack body

/-- What is asked of the rule of a symbol. Only a statement may begin with a semicolon. -/
def frames (symbol : Symbol) (shape : Shape) : Bool :=
  passes framesStatements framesTails shape && isCertain shape && isBack shape && (symbol = .statement || isFront shape)

end Shape

open Shape

theorem frames_rule (dialect : Dialect) (symbol : Symbol) : frames symbol (dialect.rule symbol) = true := by
  cases symbol with
  | expression place binding assertions =>
    change ((true && passAll _ _ _) && true && true && true) = true
    simp only [passAll_append, operatorTails, binaryOperators, List.flatMap_cons, List.flatMap_nil, Bool.and_eq_true,
      true_and, and_true]
    and_intros <;> first | rfl | exact passAll_ite rfl
  | declarators first => cases first <;> rfl
  | destructuring assigned => cases assigned <;> rfl
  | operand place =>
    obtain ⟨openEnded, typedArrows⟩ := place
    cases openEnded <;> cases typedArrows <;> rfl
  | type place =>
    obtain ⟨ending, functions, inCall, shortNames⟩ := place
    cases functions <;> cases inCall <;> rfl
  | simpleType place =>
    obtain ⟨ending, functions, inCall, shortNames⟩ := place
    cases inCall <;> cases shortNames <;> rfl
  | typeArguments inCall => cases inCall <;> rfl
  | angled place => cases dialect <;> rfl
  | _ => rfl

theorem passes_frames (dialect : Dialect) (symbol : Symbol) :
    passes framesStatements framesTails (dialect.rule symbol) = true := by
  have all := frames_rule dialect symbol
  simp only [frames, Bool.and_eq_true] at all
  exact all.1.1.1

theorem isCertain_rule (dialect : Dialect) (symbol : Symbol) : isCertain (dialect.rule symbol) = true := by
  have all := frames_rule dialect symbol
  simp only [frames, Bool.and_eq_true] at all
  exact all.1.1.2

theorem isFront_rule (dialect : Dialect) {symbol : Symbol} (other : symbol ≠ .statement) :
    isFront (dialect.rule symbol) = true := by
  have all := frames_rule dialect symbol
  simp only [frames, Bool.and_eq_true, Bool.or_eq_true, decide_eq_true_eq] at all
  exact all.2.resolve_left other

variable {dialect : Dialect} {shape : Shape} {at_ next : Cursor} {trees : List Tree}

/-- A rule that is certain to yield a tree yields one that is no comment. -/
theorem exists_of_isCertain (derived : (dialect.grammar false).Derives shape at_ trees next)
    (pass : passes framesStatements framesTails shape = true) (certain : isCertain shape = true) :
    ∃ tree ∈ trees, tree.isComment = false := by
  induction derived with
  | empty | ending | manyNone | manyMore | itemsNone | itemsMore | without => cases certain
  | itemsError tolerant => cases tolerant
  | leaf found =>
    obtain ⟨comments, start, stop, rfl, -⟩ := exists_of_readLeaf found
    exact ⟨_, List.mem_append_right _ List.mem_cons_self, decide_eq_false (of_decide_eq_true certain)⟩
  | glued found =>
    obtain ⟨start, stop, rfl⟩ := exists_of_readGlued found
    exact ⟨_, List.mem_cons_self, decide_eq_false (of_decide_eq_true certain)⟩
  | call _ some_ => exact some_ (passes_frames dialect _) (isCertain_rule dialect _)
  | seq _ _ front back =>
    obtain ⟨passFront, passBack⟩ := (Bool.and_eq_true _ _).mp pass
    rcases (Bool.or_eq_true _ _).mp certain with first | second
    · obtain ⟨tree, mem, other⟩ := front passFront first
      exact ⟨tree, List.mem_append_left _ mem, other⟩
    · obtain ⟨tree, mem, other⟩ := back passBack second
      exact ⟨tree, List.mem_append_right _ mem, other⟩
  | first _ some_ => exact some_ ((Bool.and_eq_true _ _).mp pass).1 ((Bool.and_eq_true _ _).mp certain).1
  | second _ some_ => exact some_ ((Bool.and_eq_true _ _).mp pass).2 ((Bool.and_eq_true _ _).mp certain).2
  | @node kind body _ _ trees _ some_ =>
    obtain ⟨other, inner⟩ := (Bool.and_eq_true _ _).mp certain
    obtain ⟨tree, mem, plain⟩ := some_ ((Bool.and_eq_true _ _).mp pass).2 inner
    rcases comments_or_split trees with comments | ⟨comments, first, later, rfl, comment, notComment⟩
    · rw [comments tree mem] at plain
      cases plain
    · rw [gather_eq comment notComment]
      exact ⟨_, List.mem_append_right _ List.mem_cons_self, decide_eq_false (of_decide_eq_true other)⟩
  | @role role _ _ _ _ _ some_ =>
    obtain ⟨tree, mem, plain⟩ := some_ pass certain
    exact ⟨tree.withRole role, List.mem_map_of_mem mem, by rwa [Tree.isComment_withRole]⟩
  | only _ _ _ some_ => exact some_ pass certain
  | base _ some_ => exact some_ ((Bool.and_eq_true _ _).mp pass).1 certain
  | grown _ mem =>
    obtain ⟨tail, -⟩ := passes_of_mem ((Bool.and_eq_true _ _).mp pass).2 mem
    simp only [framesTails, Bool.and_eq_true, decide_eq_true_eq] at tail
    exact ⟨_, List.mem_append_right _ List.mem_cons_self, decide_eq_false tail.1.1⟩

/-- The first of some trees that is no comment begins at a token, and not with a semicolon. -/
def Fronted (text : List Char) (trees : List Tree) : Prop :=
  ∀ front tree back, trees = front ++ tree :: back → (∀ other ∈ front, other.isComment = true) → tree.isComment = false →
    BeginsToken text tree.start

theorem Fronted.of_comments (comments : ∀ tree ∈ trees, tree.isComment = true) : Fronted text trees := by
  rintro front tree back rfl - plain
  rw [comments tree (by simp)] at plain
  cases plain

theorem Fronted.append {later : List Tree} (front : Fronted text trees)
    (back : Fronted text later ∨ ∃ tree ∈ trees, tree.isComment = false) : Fronted text (trees ++ later) := by
  intro before tree after split comments plain
  rcases List.append_eq_append_iff.mp split with ⟨extra, rfl, eq⟩ | ⟨extra, rfl, eq⟩
  · -- the tree comes from the back, so the front holds comments only
    rcases back with back | ⟨other, mem, notComment⟩
    · exact back extra tree after eq (fun other mem => comments other (List.mem_append_right _ mem)) plain
    · rw [comments other (List.mem_append_left _ mem)] at notComment
      cases notComment
  · cases extra with
    | nil =>
      rw [List.append_nil] at back
      rcases back with back | ⟨other, mem, notComment⟩
      · exact back [] tree after eq.symm nofun plain
      · rw [comments other mem] at notComment
        cases notComment
    | cons head extra =>
      obtain ⟨rfl, -⟩ := List.cons.inj eq
      exact front before tree extra rfl comments plain

theorem Fronted.singleton {tree : Tree} (begins : BeginsToken text tree.start) : Fronted text [tree] := by
  rintro front other back split - -
  cases front with
  | nil =>
    cases split
    exact begins
  | cons head front => simp at split

theorem Fronted.gather {kind : Kind} (fronted : Fronted text trees) : Fronted text (Syntax.gather kind trees) := by
  rcases comments_or_split trees with comments | ⟨comments, first, later, rfl, comment, plain⟩
  · rwa [gather_of_comments comments]
  · rw [gather_eq comment plain]
    exact .append (.of_comments comment) (.inl (.singleton (fronted comments first later rfl comment plain)))

theorem Fronted.map_withRole (fronted : Fronted text trees) (role : Role) :
    Fronted text (trees.map (Tree.withRole role)) := by
  intro before tree after split comments plain
  obtain ⟨first, second, rfl, rfl, same⟩ := List.map_eq_append_iff.mp split
  obtain ⟨original, later, rfl, rfl, rfl⟩ := List.map_eq_cons_iff.mp same
  rw [Tree.start_withRole]
  exact fronted first original later rfl (by simpa using comments) (by simpa using plain)

/-- A tree begins where it did before it was extended. -/
theorem Fronted.extended {before : List Tree} {tree : Tree} (fronted : Fronted text (before ++ [tree]))
    (some_ : ∃ other ∈ before ++ [tree], other.isComment = false) (kind : Kind) (role : Option Role) :
    Fronted text (before ++ [tree.extended kind role trees]) := by
  have ahead : Fronted text before := fun first other later split => fronted first other (later ++ [tree]) (by simp [split])
  refine ahead.append ?_
  by_cases comments : ∀ other ∈ before, other.isComment = true
  · obtain ⟨other, mem, plain⟩ := some_
    refine .inl (.singleton ?_)
    rcases List.mem_append.mp mem with mem | mem
    · rw [comments other mem] at plain
      cases plain
    · rw [List.mem_singleton.mp mem] at plain
      exact fronted before tree [] rfl comments plain
  · obtain ⟨other, mem⟩ := Classical.not_forall.mp comments
    obtain ⟨mem, plain⟩ := Classical.not_imp.mp mem
    exact .inr ⟨other, mem, Bool.eq_false_iff.mpr plain⟩

theorem fronted_leaf {kind : Kind} {terminal : Terminal} (inside : at_.In text)
    (found : readLeaf kind terminal at_ = some (trees, next)) (spares : terminal.sparesSemicolon = true) : Fronted text trees := by
  have here := inside.trivia.2
  unfold readLeaf readGlued at found
  dsimp only at found
  split at found
  · cases found
  · next glued_found =>
    split at glued_found
    · cases glued_found
    · next _ some_ =>
      cases glued_found
      cases found
      refine .append (.of_comments fun tree mem => ?_) (.inl ?_)
      · obtain ⟨start, stop, rfl⟩ := triviaFrom_comments _ 0 _ tree mem
        rfl
      · apply Fronted.singleton
        cases rest_eq : at_.trivia.2.rest with
        | nil =>
          rw [rest_eq, Terminal.length_nil] at some_
          exact absurd rfl some_
        | cons c more =>
          obtain ⟨before, whole, offset⟩ := here
          refine ⟨before, c, more, by rw [whole, rest_eq], offset, triviaFrom_stop _ 0 _ rest_eq, ?_⟩
          rintro rfl
          rw [rest_eq] at some_
          rw [Terminal.sparesSemicolon_eq_false some_] at spares
          cases spares

/-- A token begins with a byte that is neither white space nor a semicolon. -/
theorem dark_of_beginsToken {position : Nat} (begins : BeginsToken text position) :
    Dark (encodeChars text) position ∧ (encodeChars text)[position]? ≠ some 59 := by
  obtain ⟨before, c, after, split, rfl, ink, other⟩ := begins
  have here : InCharacter (fun c => !isSeparator c && c ≠ ';') text (width before) :=
    ⟨before, c, after, split, by simp [ink, other], Nat.le_refl _, Nat.lt_add_of_pos_right (charWidth_pos c)⟩
  obtain ⟨d, byte, plain, found, same⟩ := here.byte
  simp only [Bool.and_eq_true, Bool.not_eq_true', decide_eq_true_eq] at plain
  refine ⟨⟨byte, found, not_isBlankByte_of_not_isSeparator plain.1 same⟩, ?_⟩
  rw [found]
  rintro ⟨⟩
  rcases same with same | ⟨-, high⟩
  · exact plain.2 (Char.toNat_inj.mp same.symm)
  · exact absurd high (by decide)

/-- What a rule yields begins at a token and not with a semicolon, where the check says so. -/
theorem fronted_of_isFront (derived : (dialect.grammar false).Derives shape at_ trees next) (inside : at_.In text)
    (pass : passes framesStatements framesTails shape = true) (front : isFront shape = true) : Fronted text trees := by
  induction derived with
  | empty | manyNone | itemsNone | without => exact .of_comments nofun
  | itemsError tolerant => cases tolerant
  | glued => cases front
  | leaf found => exact fronted_leaf inside found front
  | ending found =>
    refine .of_comments fun tree mem => ?_
    obtain ⟨start, stop, rfl⟩ := readEnding_comments _ _ _ _ found tree mem
    rfl
  | call _ fronted => exact fronted inside (passes_frames dialect _) (isFront_rule dialect (of_decide_eq_true front))
  | seq frontDerived _ first second =>
    obtain ⟨passFront, passBack⟩ := (Bool.and_eq_true _ _).mp pass
    obtain ⟨own, rest⟩ := (Bool.and_eq_true _ _).mp front
    refine (first inside passFront own).append ?_
    rcases (Bool.or_eq_true _ _).mp rest with certain | later
    · exact .inr (exists_of_isCertain frontDerived passFront certain)
    · exact .inl (second (frontDerived.span inside).2 passBack later)
  | first _ fronted => exact fronted inside ((Bool.and_eq_true _ _).mp pass).1 ((Bool.and_eq_true _ _).mp front).1
  | second _ fronted => exact fronted inside ((Bool.and_eq_true _ _).mp pass).2 ((Bool.and_eq_true _ _).mp front).2
  | manyMore frontDerived _ first second | itemsMore frontDerived _ first second =>
    exact (first inside pass front).append (.inl (second (frontDerived.span inside).2 pass front))
  | node _ fronted => exact (fronted inside ((Bool.and_eq_true _ _).mp pass).2 front).gather
  | role _ fronted => exact (fronted inside pass front).map_withRole _
  | only _ _ _ fronted => exact fronted inside pass front
  | base _ fronted => exact fronted inside ((Bool.and_eq_true _ _).mp pass).1 ((Bool.and_eq_true _ _).mp front).1
  | grown smallerDerived _ _ _ fronted =>
    have certain := exists_of_isCertain smallerDerived pass ((Bool.and_eq_true _ _).mp front).2
    exact (fronted inside pass front).extended certain _ _

/-- The last of some trees ends with a token. -/
def Backed (text : List Char) (trees : List Tree) : Prop := ∀ tree, trees.getLast? = some tree → EndsToken text tree.stop

theorem Backed.nil (text : List Char) : Backed text [] := nofun

theorem Backed.of_forall (ends : ∀ tree ∈ trees, EndsToken text tree.stop) : Backed text trees :=
  fun tree last => ends tree (List.mem_of_getLast? last)

theorem Backed.append {later : List Tree} (back : Backed text later) (front : Backed text trees ∨ later ≠ []) :
    Backed text (trees ++ later) := by
  intro tree last
  rw [List.getLast?_append] at last
  cases eq : later.getLast? with
  | none =>
    rw [eq] at last
    rcases front with front | nonempty
    · exact front tree last
    · exact absurd (List.getLast?_eq_none_iff.mp eq) nonempty
  | some other =>
    rw [eq] at last
    cases last
    exact back tree eq

/-- It depends on the end of the last tree only. -/
theorem Backed.congr {others : List Tree} (backed : Backed text trees)
    (same : others.getLast?.map Tree.stop = trees.getLast?.map Tree.stop) : Backed text others := by
  intro tree last
  rw [last, Option.map_some] at same
  obtain ⟨other, otherLast, stop_eq⟩ := Option.map_eq_some_iff.mp same.symm
  exact stop_eq ▸ backed other otherLast

/-- A tree that is extended ends where the last of the trees behind it does, or else where it did. -/
theorem Backed.extended {before : List Tree} {tree : Tree} (backed : Backed text (before ++ [tree])) (behind : Backed text trees)
    (kind : Kind) (role : Option Role) : Backed text (before ++ [tree.extended kind role trees]) := by
  refine .append ?_ (.inr (List.cons_ne_nil _ _))
  intro other last
  obtain rfl : tree.extended kind role trees = other := Option.some.inj last
  rw [Tree.stop_extended]
  cases final : trees.getLast? with
  | none => exact backed tree (by simp)
  | some final_ => exact behind final_ final

end Scaffold.Syntax
