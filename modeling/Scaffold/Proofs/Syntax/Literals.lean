import Scaffold.Proofs.Edit.Edges
import Scaffold.Proofs.Syntax.Bodies

/-! # Where comments and literals begin and end

A comment, a string literal and a template literal begin with ink. They end with it too, but for a comment that runs to
the end of its line. So a range of white space that reaches into one of them from outside does not begin at a line of its
own. All trees begin and end between characters.
-/

namespace Scaffold.Syntax

open Scaffold.Text Shape

variable {text rest : List Char} {start stop position : Nat}

/-- An offset between two characters. -/
def IsBoundary (text : List Char) (position : Nat) : Prop := ∃ before after, text = before ++ after ∧ position = width before

/-- Two places between characters part a text in three. -/
theorem IsBoundary.exists_parts (first : IsBoundary text start) (second : IsBoundary text stop) (ordered : start ≤ stop) :
    ∃ before taken behind, text = before ++ (taken ++ behind) ∧ start = width before ∧ stop = width before + width taken := by
  obtain ⟨before, rest, split, start_eq⟩ := first
  obtain ⟨longer, behind, split', stop_eq⟩ := second
  obtain ⟨taken, rfl, rfl⟩ : ∃ taken, longer = before ++ taken ∧ rest = taken ++ behind := by
    rcases List.append_eq_append_iff.mp (split.symm.trans split') with ⟨taken, eq, eq'⟩ | ⟨extra, eq, eq'⟩
    · exact ⟨taken, eq, eq'⟩
    · have none_ : extra = [] := by
        rw [eq, width_append] at start_eq
        cases extra with
        | nil => rfl
        | cons c more =>
          have := charWidth_pos c
          rw [width_cons] at start_eq
          omega
      subst none_
      exact ⟨[], by simpa using eq.symm, by simpa using eq'.symm⟩
  exact ⟨before, taken, behind, split, start_eq, by rw [stop_eq, width_append]⟩

/-- How a comment or a literal ends: with ink, or at the end of the only line that it is on. -/
inductive Closed (text : List Char) (start stop : Nat) : Prop
  | ink {before after : List Char} {c : Char} (split : text = before ++ c :: after)
      (stop_eq : stop = width before + charWidth c) (ink : isSeparator c = false)
  | line {before after : List Char} (split : text = before ++ after) (stop_eq : stop = width before)
      (one : ∀ position, start ≤ position → position < stop → (encodeChars text)[position]? ≠ some lineFeed)
      (ends : ∀ c ∈ after.head?, isLineEnd c = true)

/-- A tree begins with ink, and closes. -/
structure Tree.Sealed (text : List Char) (tree : Tree) : Prop where
  begins : BeginsToken text tree.start
  closed : Closed text tree.start tree.stop

theorem Closed.of_endsInInk {before : List Char} {length : Nat} (split : text = before ++ rest)
    (ends : EndsInInk rest length) : Closed text start (width before + width (rest.take length)) := by
  obtain ⟨c, last, ink⟩ := ends
  obtain ⟨front, eq⟩ := List.getLast?_eq_some_iff.mp last
  have parts : rest = front ++ c :: rest.drop length := by rw [List.append_cons, ← eq, List.take_append_drop]
  have whole : text = (before ++ front) ++ c :: rest.drop length := by rw [split, List.append_assoc, ← parts]
  refine .ink whole ?_ ink
  · rw [eq, width_append, width_append, width_cons, width_nil]
    omega

/-! ## Tokens -/

/-- The terminals that begin and end with ink: quoted text and the mark of a template. -/
def Terminal.isSealed : Terminal → Bool
  | .mark shape _ => shape = "\x60"
  | .string | .markupString => true
  | _ => false

theorem Terminal.isSealed_spec {terminal : Terminal} (isSealed : terminal.isSealed = true) (some_ : terminal.length rest ≠ 0) :
    (∃ c more, rest = c :: more ∧ isSeparator c = false ∧ c ≠ ';') ∧ EndsInInk rest (terminal.length rest) := by
  have closes : terminal.closes = true := by
    cases terminal with
    | mark shape continuations =>
      obtain rfl : shape = "\x60" := of_decide_eq_true isSealed
      rfl
    | string | markupString => rfl
    | _ => cases isSealed
  refine ⟨?_, terminal.endsInInk closes some_⟩
  have quoted {c : Char} {more : List Char} (quote : (c = '"' || c = '\'') = true) :
      ∃ d later, c :: more = d :: later ∧ isSeparator d = false ∧ d ≠ ';' := by
    simp only [Bool.or_eq_true, decide_eq_true_eq] at quote
    rcases quote with rfl | rfl <;> exact ⟨_, _, rfl, by decide, by decide⟩
  cases terminal with
  | mark shape continuations =>
    obtain rfl : shape = "\x60" := of_decide_eq_true isSealed
    obtain ⟨⟨more, rfl⟩, -⟩ := of_length_mark some_
    exact ⟨'\x60', more, rfl, by decide, by decide⟩
  | string =>
    cases rest with
    | nil => exact absurd rfl some_
    | cons c more =>
      simp only [Terminal.length, stringLength] at some_
      split at some_
      · next quote => exact quoted quote
      · exact absurd rfl some_
  | markupString =>
    cases rest with
    | nil => exact absurd rfl some_
    | cons c more =>
      simp only [Terminal.length, markupStringLength] at some_
      split at some_
      · next quote => exact quoted quote
      · exact absurd rfl some_
  | _ => cases isSealed

/-! ## Comments -/

/-- A byte of a stretch of text is one of its characters, or no ASCII. -/
theorem inCharacter_of_taken {taken before after : List Char} (split : text = before ++ (taken ++ after))
    (begins : width before ≤ position) (ends : position < width before + width taken) :
    InCharacter (fun c => c ∈ taken) text position := by
  induction taken generalizing before with
  | nil =>
    rw [width_nil] at ends
    omega
  | cons c taken inner =>
    rw [width_cons] at ends
    rcases Nat.lt_or_ge position (width before + charWidth c) with own | later
    · exact ⟨before, c, taken ++ after, split, by simp, begins, own⟩
    · have next : text = (before ++ [c]) ++ (taken ++ after) := by rw [split, List.append_assoc]; rfl
      have step : width (before ++ [c]) = width before + charWidth c := by simp
      obtain ⟨front, d, behind, split, mem, bounds⟩ := inner next (by omega) (by omega)
      exact ⟨front, d, behind, split, by simpa using Or.inr (of_decide_eq_true mem), bounds⟩

theorem not_lineFeed_of_taken {taken before after : List Char} (split : text = before ++ (taken ++ after))
    (plain : '\n' ∉ taken) (begins : width before ≤ position) (ends : position < width before + width taken) :
    (encodeChars text)[position]? ≠ some lineFeed := by
  obtain ⟨c, byte, mem, found, same⟩ := (inCharacter_of_taken split begins ends).byte
  rw [found]
  rintro ⟨⟩
  rcases same with same | ⟨-, high⟩
  · obtain rfl : c = '\n' := Char.toNat_inj.mp same.symm
    exact plain (of_decide_eq_true mem)
  · exact absurd high (by decide)

/-- A comment begins with a slash, and it ends with one or with the line. -/
theorem closed_comment {before : List Char} (split : text = before ++ rest) (some_ : commentLength rest ≠ 0) :
    BeginsToken text (width before) ∧
      Closed text (width before) (width before + width (rest.take (commentLength rest))) := by
  unfold commentLength at some_ ⊢
  split at some_
  · next rest =>
    refine ⟨⟨before, '/', '/' :: rest, split, rfl, by decide, by decide⟩, ?_⟩
    have taken : ('/' :: '/' :: rest).take ((rest.takeWhile fun c => !isLineEnd c).length + 2) =
        '/' :: '/' :: rest.takeWhile fun c => !isLineEnd c := by
      rw [List.take_succ_cons, List.take_succ_cons, ← List.prefix_iff_eq_take.mp (List.takeWhile_prefix _)]
    have parts : text = before ++ (('/' :: '/' :: rest.takeWhile fun c => !isLineEnd c) ++
        rest.dropWhile fun c => !isLineEnd c) := by
      rw [split, List.cons_append, List.cons_append, List.takeWhile_append_dropWhile]
    rw [taken]
    have whole : text = (before ++ '/' :: '/' :: rest.takeWhile fun c => !isLineEnd c) ++
        rest.dropWhile fun c => !isLineEnd c := by rw [List.append_assoc, parts]
    refine .line whole (by rw [width_append]) ?_ ?_
    · intro position begins ends
      refine not_lineFeed_of_taken parts (fun mem => ?_) begins ends
      simp only [List.mem_cons, Char.reduceEq, false_or] at mem
      have plain := List.all_eq_true.mp List.all_takeWhile _ mem
      exact absurd plain (by decide)
    · intro c mem
      have stops := List.head?_dropWhile_not (fun c => !isLineEnd c) rest
      rw [Option.mem_def.mp mem] at stops
      simpa using stops
  · split at some_
    · next rest _ length found =>
      exact ⟨⟨before, '/', '*' :: rest, split, rfl, by decide, by decide⟩,
        .of_endsInInk split (((endsInInk_blockCommentTail rest found).cons '*').cons '/')⟩
    · exact absurd rfl some_
  · exact absurd rfl some_

/-! ## The rules of the language -/

/-- Comments, string literals and template literals. -/
def Kind.isPassage (kind : Kind) : Bool := kind = .comment || kind = .string || kind = .templateString

/-- Clauses and enumerations, which begin with ink. -/
def Kind.isInked (kind : Kind) : Bool := kind = .importClause || kind = .implementsClause || kind = .enumDeclaration

/-- What is known of where a tree begins and ends. -/
structure Tree.Edged (text : List Char) (tree : Tree) : Prop where
  start : IsBoundary text tree.start
  stop : IsBoundary text tree.stop
  closes : tree.kind.isPassage = true → tree.Sealed text
  begins : tree.kind.isInked = true → BeginsToken text tree.start

namespace Shape

/-- Whether a rule begins with one quotation mark and ends with another one. -/
def isQuoted : Shape → Bool
  | .seq (.leaf _ _) (.seq (.many _) (.glued _ closing)) => closing.isSealed
  | _ => false

/-- Whether the tokens that a rule yields itself are as their kinds say. -/
def seals : Shape → Bool
  | .leaf kind terminal | .glued kind terminal => !kind.isInked && (!kind.isPassage || terminal.isSealed)
  | .seq first second | .alt first second => seals first && seals second
  | .many body | .items body | .role _ body | .only _ body => seals body
  | .grow base _ _ => seals base
  | .empty | .never | .ending _ | .call _ | .node _ _ | .without _ => true

/-- What is asked of the constructs: a clause or an enumeration begins with ink, and a template is quoted. -/
def sealsConstruct (kind : Kind) (body : Shape) : Bool :=
  (!kind.isPassage || isQuoted body) && (!kind.isPassage && !kind.isInked || isFront body) && seals body

def sealsTail (kind : Kind) (body : Shape) : Bool := !kind.isPassage && !kind.isInked && seals body

/-- What is asked of a rule. -/
def sealsAll (shape : Shape) : Bool := passes sealsConstruct sealsTail shape && seals shape

end Shape

theorem sealsAll_rule (dialect : Dialect) (symbol : Symbol) : sealsAll (dialect.rule symbol) = true := by
  cases symbol with
  | expression place binding assertions =>
    change ((true && passAll _ _ _) && true) = true
    simp only [passAll_append, operatorTails, binaryOperators, List.flatMap_cons, List.flatMap_nil, Bool.and_eq_true,
      true_and, and_true]
    and_intros <;> first | rfl | exact passAll_ite rfl
  | declarators first => cases first <;> rfl
  | destructuring assigned => cases assigned <;> rfl
  | operand place =>
    obtain ⟨openEnded, typedArrows⟩ := place
    cases openEnded <;> cases typedArrows <;> rfl
  | type place =>
    obtain ⟨ending, functions, inCall, shortNames⟩ := place
    cases functions <;> cases inCall <;> rfl
  | simpleType place =>
    obtain ⟨ending, functions, inCall, shortNames⟩ := place
    cases inCall <;> cases shortNames <;> rfl
  | typeArguments inCall => cases inCall <;> rfl
  | angled place => cases dialect <;> rfl
  | _ => rfl

variable {dialect : Dialect} {shape : Shape} {at_ next : Cursor} {trees : List Tree} {tree : Tree}

theorem everywhere_of_childless {holds : Tree → Prop} (childless : tree.children = []) (own : holds tree) :
    tree.Everywhere holds := by
  refine Tree.everywhere_iff.mpr ⟨own, fun child mem => ?_⟩
  rw [childless] at mem
  cases mem

theorem closed_of_glued {kind : Kind} {terminal : Terminal} (inside : at_.In text)
    (found : readGlued kind terminal at_ = some (trees, next)) (isSealed : terminal.isSealed = true) :
    ∃ tree, trees = [tree] ∧ ∀ start, Closed text start tree.stop := by
  obtain ⟨before, split, offset⟩ := inside
  unfold readGlued at found
  split at found
  · cases found
  · next some_ =>
    cases found
    refine ⟨_, rfl, fun start => ?_⟩
    have closed : Closed text start _ := .of_endsInInk split (terminal.isSealed_spec isSealed (by simpa using some_)).2
    rw [← offset] at closed
    exact closed

/-- What is quoted ends with its closing mark. -/
theorem closed_of_isQuoted (derived : (dialect.grammar false).Derives shape at_ trees next) (inside : at_.In text)
    (quoted : isQuoted shape = true) : ∃ front tree, trees = front ++ [tree] ∧ ∀ start, Closed text start tree.stop := by
  unfold isQuoted at quoted
  split at quoted
  · cases derived with
    | seq opening rest =>
      cases rest with
      | @seq _ _ _ _ _ inner _ items closing =>
        cases closing with
        | glued found =>
          obtain ⟨tree, rfl, closed⟩ := closed_of_glued (items.span (opening.span inside).2).2 found quoted
          exact ⟨_, tree, (List.append_assoc _ _ _).symm, closed⟩
  · cases quoted

theorem edged_comment {before rest : List Char} (split : text = before ++ rest) (some_ : commentLength rest ≠ 0) :
    (Tree.node .comment none (width before) (width before + width (rest.take (commentLength rest))) []).Everywhere
      (Tree.Edged text) := by
  obtain ⟨begins, closed⟩ := closed_comment split some_
  refine everywhere_of_childless rfl ⟨⟨before, rest, split, rfl⟩, ?_, fun _ => ⟨begins, closed⟩, nofun⟩
  refine ⟨before ++ rest.take (commentLength rest), rest.drop (commentLength rest), ?_, by rw [width_append]; rfl⟩
  rw [List.append_assoc, List.take_append_drop, split]

theorem edged_glued {kind : Kind} {terminal : Terminal} (inside : at_.In text)
    (found : readGlued kind terminal at_ = some (trees, next)) (check : seals (.glued kind terminal) = true) :
    ∀ tree ∈ trees, tree.Everywhere (Tree.Edged text) := by
  obtain ⟨notInked, check⟩ := (Bool.and_eq_true _ _).mp check
  obtain ⟨before, split, offset⟩ := inside
  have read := found
  unfold readGlued at found
  split at found
  · cases found
  · next some_ =>
    cases found
    intro tree mem
    obtain rfl := List.mem_singleton.mp mem
    refine everywhere_of_childless rfl ⟨⟨before, at_.rest, split, offset⟩, ?_, fun isPassage => ?_, fun isInked => ?_⟩
    · refine ⟨before ++ at_.rest.take (terminal.length at_.rest), at_.rest.drop (terminal.length at_.rest), ?_, ?_⟩
      · rw [List.append_assoc, List.take_append_drop, split]
      · rw [width_append, ← offset]
        rfl
    · rw [show kind.isPassage = true from isPassage, Bool.not_true, Bool.false_or] at check
      obtain ⟨⟨c, more, eq, ink, other⟩, -⟩ := terminal.isSealed_spec check (by simpa using some_)
      refine ⟨⟨before, c, more, by rw [split, eq], offset, ink, other⟩, ?_⟩
      obtain ⟨tree, same, closed⟩ := closed_of_glued ⟨before, split, offset⟩ read check
      cases same
      exact closed _
    · rw [show kind.isInked = true from isInked] at notInked
      cases notInked

theorem edged_leaf {kind : Kind} {terminal : Terminal} (inside : at_.In text)
    (found : readLeaf kind terminal at_ = some (trees, next)) (check : seals (.leaf kind terminal) = true) :
    ∀ tree ∈ trees, tree.Everywhere (Tree.Edged text) := by
  unfold readLeaf at found
  dsimp only at found
  split at found
  · cases found
  · next glued =>
    cases found
    intro tree mem
    rcases List.mem_append.mp mem with mem | mem
    · obtain ⟨before, split, offset⟩ := inside
      refine forall_triviaFrom (fun before rest => edged_comment) before 0 at_.rest split tree ?_
      rw [← offset]
      exact mem
    · exact edged_glued inside.trivia.2 glued check tree mem

theorem Tree.Edged.recast (edged : tree.Edged text) (role : Option Role) : (tree.recast role).Edged text :=
  ⟨edged.start, edged.stop, fun isPassage => ⟨(edged.closes isPassage).begins, (edged.closes isPassage).closed⟩, edged.begins⟩

theorem edged_of_derives (derived : (dialect.grammar false).Derives shape at_ trees next) (inside : at_.In text)
    (frames : passes framesStatements framesTails shape = true) (check : sealsAll shape = true) :
    ∀ tree ∈ trees, tree.Everywhere (Tree.Edged text) := by
  induction derived with
  | empty | manyNone | itemsNone | without => exact nofun
  | itemsError tolerant => cases tolerant
  | leaf found => exact edged_leaf inside found check
  | glued found => exact edged_glued inside found check
  | @ending _ at_ _ _ found =>
    obtain ⟨before, split, offset⟩ := inside
    rw [offset] at found
    exact forall_readEnding (fun before rest => edged_comment) before true 0 at_.rest split found
  | call _ edged => exact edged inside (passes_frames dialect _) (sealsAll_rule dialect _)
  | seq frontDerived _ first second =>
    obtain ⟨framesFront, framesBack⟩ := (Bool.and_eq_true _ _).mp frames
    simp only [sealsAll, passes, seals, Bool.and_eq_true] at check
    intro tree mem
    rcases List.mem_append.mp mem with mem | mem
    · exact first inside framesFront (by simp [sealsAll, check]) tree mem
    · exact second (frontDerived.span inside).2 framesBack (by simp [sealsAll, check]) tree mem
  | first _ edged | second _ edged =>
    simp only [sealsAll, passes, seals, Bool.and_eq_true] at check frames
    exact edged inside (by simp [frames]) (by simp [sealsAll, check])
  | manyMore frontDerived _ first second | itemsMore frontDerived _ first second =>
    intro tree mem
    rcases List.mem_append.mp mem with mem | mem
    · exact first inside frames check tree mem
    · exact second (frontDerived.span inside).2 frames check tree mem
  | @node kind body _ _ trees bodyDerived edged =>
    obtain ⟨-, framesBody⟩ := (Bool.and_eq_true _ _).mp frames
    simp only [sealsAll, passes, seals, Bool.and_eq_true, and_true] at check
    obtain ⟨own, checkBody⟩ := check
    simp only [sealsConstruct, Bool.and_eq_true, Bool.or_eq_true, Bool.not_eq_true'] at own
    have inner := edged inside framesBody (by simp [sealsAll, checkBody, own])
    intro tree mem
    rcases exists_of_mem_gather mem with ⟨mem, -⟩ | ⟨first, others, eq, rfl⟩
    · exact inner tree mem
    · have kept {other : Tree} (mem : other ∈ first :: others) : other.Everywhere (Tree.Edged text) :=
        inner other ((List.dropWhile_sublist _).subset (eq ▸ mem))
      obtain ⟨comments, split, comment, plain⟩ := exists_comments_of_dropWhile eq
      have begins (known : ¬ (kind.isPassage = false ∧ kind.isInked = false)) : BeginsToken text first.start := by
        have fronted := fronted_of_isFront bodyDerived inside framesBody (own.1.2.resolve_left known)
        exact fronted comments first others split comment plain
      refine Tree.everywhere_iff.mpr ⟨⟨?_, ?_, fun isPassage => ?_, fun isInked => ?_⟩, fun child mem => kept mem⟩
      · exact (Tree.everywhere_iff.mp (kept List.mem_cons_self)).1.start
      · exact (Tree.everywhere_iff.mp (kept (List.getLast_mem _))).1.stop
      · change kind.isPassage = true at isPassage
        obtain ⟨front, last, whole, closed⟩ :=
          closed_of_isQuoted bodyDerived inside (own.1.1.resolve_left (by rw [isPassage]; exact nofun))
        have same := congrArg List.getLast? (split.symm.trans whole)
        rw [List.getLast?_append, List.getLast?_eq_some_getLast (List.cons_ne_nil first others), List.getLast?_append] at same
        refine ⟨begins (by rw [isPassage]; exact nofun), ?_⟩
        change Closed text first.start ((first :: others).getLast (List.cons_ne_nil _ _)).stop
        rw [show (first :: others).getLast (List.cons_ne_nil _ _) = last from Option.some.inj same]
        exact closed _
      · change kind.isInked = true at isInked
        exact begins (by rw [isInked]; exact nofun)
  | @role role _ _ _ _ _ edged =>
    intro tree mem
    obtain ⟨original, member, rfl⟩ := List.mem_map.mp mem
    exact (edged inside frames check original member).withRole (fun tree role edged => edged.recast role) role
  | only _ _ _ edged => exact edged inside frames check
  | base _ edged =>
    simp only [sealsAll, passes, seals, Bool.and_eq_true] at check frames
    exact edged inside frames.1 (by simp [sealsAll, check])
  | @grown base guard tails _ _ _ before trees tree _ kind role body smallerDerived mem _ _ smaller behind =>
    have inner := smaller inside frames check
    obtain ⟨-, framesBody⟩ := passes_of_mem ((Bool.and_eq_true _ _).mp frames).2 mem
    simp only [sealsAll, passes, seals, Bool.and_eq_true] at check
    obtain ⟨own, passBody⟩ := passes_of_mem check.1.2 mem
    simp only [sealsTail, Bool.and_eq_true, Bool.not_eq_true'] at own
    have later := behind (smallerDerived.span inside).2 framesBody (by simp [sealsAll, passBody, own])
    have below := inner tree (by simp)
    intro other member
    rcases List.mem_append.mp member with member | member
    · exact inner other (List.mem_append_left _ member)
    · obtain rfl := List.mem_singleton.mp member
      obtain ⟨role, eq⟩ := Tree.extended_eq kind role tree trees
      rw [eq]
      refine Tree.everywhere_iff.mpr ⟨⟨(Tree.everywhere_iff.mp below).1.start, ?_, fun isPassage => ?_, fun isInked => ?_⟩, ?_⟩
      · cases last : trees.getLast? with
        | none => exact (Tree.everywhere_iff.mp below).1.stop
        | some final => exact (Tree.everywhere_iff.mp (later final (List.mem_of_getLast? last))).1.stop
      · rw [show kind.isPassage = true from isPassage] at own
        cases own.1.1
      · rw [show kind.isInked = true from isInked] at own
        cases own.1.2
      · intro child mem
        rcases List.mem_cons.mp mem with rfl | mem
        · exact below.recast (fun tree role edged => edged.recast role) role
        · exact later child mem

/-- The trees of a file begin and end as their kinds say. -/
theorem edged_of_parse {root : Tree} (parsed : dialect.parse (encodeChars text) = .ok root) (mem : tree ∈ root.preorder) :
    tree.Edged text := by
  obtain ⟨trees, stop, rfl, derived⟩ := Dialect.exists_reading_of_parse parsed
  have start : Cursor.In text ⟨0, text⟩ := ⟨[], rfl, rfl⟩
  rcases Tree.mem_preorder_iff.mp mem with rfl | ⟨child, member, mem⟩
  · refine ⟨⟨[], text, rfl, rfl⟩, ⟨text, [], by simp, length_encodeChars text⟩, ?_, ?_⟩ <;> exact nofun
  · rcases List.mem_append.mp member with member | member
    · exact edged_of_derives derived start rfl rfl child member tree mem
    · obtain ⟨before, split, offset⟩ := (derived.span start).2
      refine forall_triviaFrom (fun before rest => edged_comment) before 0 stop.rest split child ?_ tree mem
      rw [← offset]
      exact member

end Scaffold.Syntax
