import Scaffold.Proofs.Syntax.Bodies
import Scaffold.Proofs.Syntax.Elements
import Scaffold.Proofs.Syntax.Pairs

/-! # Objects in a file

Every object of a file is derived from where it stands. It may take another entry in front of the others, or another value in
one of its pairs, and is an object again, in any place where one may be read.
-/

namespace Scaffold.Syntax

open Scaffold.Text

/-- The opening brace of an object. -/
def Tree.brace (start : Nat) : Tree := .node (.token "\x7b") none start (start + 1) []

/-- An object that stands in a text, between what is in front of it and what is behind it. -/
structure Tree.ObjectIn (dialect : Dialect) (before inside behind : List Char) (object : Tree) (inner : List Tree) : Prop where
  kind_eq : object.kind = .object
  start_eq : object.start = width before
  children_eq : object.children = Tree.brace (width before) :: inner
  stop_eq : object.stop = width before + 1 + width inside
  derived : (dialect.grammar false).Derives Shape.properties ⟨width before + 1, inside ++ behind⟩ inner
    ⟨object.stop, behind⟩

theorem givesOnly_object (dialect : Dialect) (symbol : Symbol) :
    Shape.givesOnly .object (.seq (Rule.sign "\x7b") Shape.properties) (dialect.rule symbol) = true := by
  cases symbol with
  | expression place binding assertions =>
    change (true && Shape.passAll _ _ _) = true
    simp only [Shape.passAll_append, Shape.operatorTails, Shape.binaryOperators, List.flatMap_cons, List.flatMap_nil,
      Bool.and_eq_true, true_and]
    and_intros <;> first | rfl | exact Shape.passAll_ite rfl
  | declarators first => cases first <;> rfl
  | destructuring assigned => cases assigned <;> rfl
  | operand place =>
    obtain ⟨openEnded, typedArrows⟩ := place
    cases openEnded <;> cases typedArrows <;> rfl
  | type place =>
    obtain ⟨ending, functions, inCall, shortNames⟩ := place
    cases functions <;> cases inCall <;> rfl
  | simpleType place =>
    obtain ⟨ending, functions, inCall, shortNames⟩ := place
    cases inCall <;> cases shortNames <;> rfl
  | typeArguments inCall => cases inCall <;> rfl
  | angled place => cases dialect <;> rfl
  | _ => rfl

variable {dialect : Dialect} {text : List Char} {at_ next : Cursor} {trees : List Tree} {tree : Tree}
variable {before inside behind : List Char} {root object : Tree} {inner : List Tree}

theorem Dialect.isLeafOf_of_parse (parsed : dialect.parse (encodeChars text) = .ok root) (mem : tree ∈ root.preorder)
    (other : tree.kind ≠ .program) : tree.IsLeafOf (· ≠ .object) := by
  obtain ⟨trees, comments, next, rfl, derived, areComments⟩ := Dialect.exists_derivation_of_parse parsed
  rcases Tree.mem_preorder_iff.mp mem with rfl | ⟨child, member, mem⟩
  · exact absurd rfl other
  · rcases List.mem_append.mp member with member | member
    · exact derived.leavesOf rfl rfl (leavesOf_rule dialect) rfl child member tree mem
    · obtain ⟨comment, childless⟩ := areComments child member
      rcases Tree.mem_preorder_iff.mp mem with rfl | ⟨below, found, -⟩
      · intro _
        rw [of_decide_eq_true comment]
        rfl
      · rw [childless] at found
        cases found

/-- Every object of a file stands in its text. -/
theorem Dialect.exists_objectIn (parsed : dialect.parse (encodeChars text) = .ok root) (mem : object ∈ root.preorder)
    (isObject : object.kind = .object) :
    ∃ before inside behind inner, text = before ++ '\x7b' :: (inside ++ behind) ∧
      object.ObjectIn dialect before inside behind inner := by
  have children : object.children ≠ [] := fun none_ => by
    have leaf := Dialect.isLeafOf_of_parse parsed mem (by rw [isObject]; exact nofun) none_
    rw [isObject] at leaf
    cases leaf
  obtain ⟨at_, trees, next, first, others, within, derived, left, eq⟩ :=
    Dialect.isDerived_of_parse parsed (givesOnly_object dialect) nofun mem isObject children
  have ends := derived.ends rfl
  obtain ⟨opening, between, inner, rfl, sign, properties⟩ := derived.exists_of_seq
  obtain ⟨gap, -, trivia, rfl, offset⟩ := exists_of_sign rfl sign
  obtain ⟨inside, split, stop_eq⟩ := properties.exists_taken rfl (sign.span within).2
  obtain ⟨before, whole, start_eq⟩ := within.trivia.2
  have mark : width "\x7b".toList = 1 := rfl
  rw [trivia] at whole start_eq
  simp only at start_eq
  have between_eq : between = ⟨width before + 1, inside ++ next.rest⟩ := by
    rw [← split, ← start_eq, ← mark, ← offset]
  rw [List.append_assoc, List.dropWhile_append_of_pos (isComment_trivia at_), List.singleton_append,
    List.dropWhile_cons_of_neg (by simp [Tree.isComment, Tree.kind])] at left
  obtain ⟨rfl, rfl⟩ := List.cons.inj left
  have last : object.stop = next.offset := by
    rcases ends with ⟨none_, -⟩ | last
    · simp at none_
    · rw [List.append_assoc, List.getLast?_append, List.singleton_append,
        List.getLast?_eq_some_getLast (List.cons_ne_nil _ _)] at last
      rw [eq]
      exact Option.some.inj last
  refine ⟨before, inside, next.rest, inner, by rw [whole, split]; rfl, isObject, ?_, ?_, ?_, ?_⟩
  · rw [eq, ← start_eq]
    rfl
  · rw [eq, Tree.children, Tree.brace, ← start_eq, ← mark, ← offset]
  · rw [last, stop_eq, between_eq]
  · rw [last, ← between_eq]
    exact properties

/-- Properties in braces are an object. -/
theorem derives_braces {cursor : Cursor} {place stop : Nat} {rest : List Char}
    (trivia : cursor.trivia.2 = ⟨place, '\x7b' :: rest⟩)
    (derived : (dialect.grammar false).Derives Shape.properties ⟨place + 1, rest⟩ inner ⟨stop, behind⟩) :
    (dialect.grammar false).Derives (.call .object) cursor
      (cursor.trivia.1 ++ [.node .object none place stop (Tree.brace place :: inner)]) ⟨stop, behind⟩ := by
  have read := @readLeaf_of_length _ _ _ (.token "\x7b") (.mark "\x7b" []) _ (by decide : ['\x7b'] ≠ []) trivia rfl
  have whole := @Grammar.Derives.node _ (dialect.grammar false) .object _ _ _ _ (.seq (.leaf read) derived)
  have brace_ : Tree.node (.token "\x7b") none place (place + width ['\x7b']) [] = Tree.brace place := rfl
  have last : ((Tree.brace place :: inner).getLast (List.cons_ne_nil _ _)).stop = stop := by
    rcases derived.ends rfl with ⟨rfl, here⟩ | last
    · exact (congrArg Cursor.offset here).symm
    · obtain ⟨tree, eq, stop_eq⟩ := Option.map_eq_some_iff.mp last
      obtain ⟨front, rfl⟩ := List.getLast?_eq_some_iff.mp eq
      simp only [← List.cons_append, List.getLast_concat]
      exact stop_eq
  rw [brace_, List.append_assoc, List.singleton_append, gather_eq (isComment_trivia cursor) rfl, last] at whole
  exact .call whole

/-- An object is a value. -/
theorem derives_expression {cursor : Cursor} (derived : (dialect.grammar false).Derives (.call .object) cursor trees next) :
    (dialect.grammar false).Derives (Shape.expression .enclosed) cursor trees next := by
  have alone := Grammar.Derives.seq derived (@Grammar.Derives.without _ _ Shape.assign next)
  rw [List.append_nil] at alone
  refine .call (.base (.call ?_))
  iterate 11 refine .second ?_
  exact .first alone

/-! ## Properties -/

/-- The trees that are neither tokens nor comments. -/
def partsOf (trees : List Tree) : List Tree := trees.filter fun child => child.isNamed && !child.isComment

theorem mem_of_mem_partsOf (mem : tree ∈ partsOf trees) : tree ∈ trees := (List.mem_filter.mp mem).1

theorem partsOf_append (trees more : List Tree) : partsOf (trees ++ more) = partsOf trees ++ partsOf more :=
  List.filter_append _ _

theorem partsOf_moved (trees : List Tree) {source target : Nat} :
    partsOf (trees.map (Tree.moved source target)) = (partsOf trees).map (Tree.moved source target) := by
  rw [partsOf, List.filter_map]
  simp only [Function.comp_def, Tree.isNamed, Tree.isComment, Tree.kind_moved]
  rfl

theorem partsOf_comments (comments : ∀ tree ∈ trees, tree.isComment = true) : partsOf trees = [] :=
  List.filter_eq_nil_iff.mpr fun tree mem => by simp [comments tree mem]

theorem partsOf_token {mark : String} (token : tree.kind = .token mark) (trees : List Tree) :
    partsOf (tree :: trees) = partsOf trees :=
  List.filter_cons_of_neg (by simp [Tree.isNamed, token, Kind.isNamed])

theorem partsOf_pair (isPair : tree.kind = .pair) (trees : List Tree) : partsOf (tree :: trees) = tree :: partsOf trees :=
  List.filter_cons_of_pos (by rw [Tree.isNamed, Tree.isComment, isPair]; rfl)

theorem partsOf_around {comments front back : List Tree} (areComments : ∀ tree ∈ comments, tree.isComment = true)
    (isPair : tree.kind = .pair) : partsOf (front ++ (comments ++ tree :: back)) = partsOf front ++ tree :: partsOf back := by
  rw [partsOf_append, partsOf_append, partsOf_comments areComments, partsOf_pair isPair, List.nil_append]

/-- Behind a brace one is in the text. -/
theorem in_braces (before rest : List Char) : Cursor.In (before ++ '\x7b' :: rest) ⟨width before + 1, rest⟩ :=
  ⟨before ++ ['\x7b'], by simp, by rw [width_append]; rfl⟩

theorem width_brace (before front : List Char) : width (before ++ '\x7b' :: front) = width before + 1 + width front := by
  rw [width_append, width_cons, Nat.add_assoc]
  rfl

namespace Tree.ObjectIn

section Whole

variable (isObject : object.ObjectIn dialect before inside behind inner)
include isObject

theorem parts_eq : object.parts = partsOf inner := by
  have brace : (Tree.brace (width before)).kind = .token "\x7b" := rfl
  rw [Tree.parts, isObject.children_eq]
  exact partsOf_token brace inner

theorem placed : Tree.PlacedIn (width before + 1) object.stop inner := (isObject.derived.span (in_braces before (inside ++ behind))).1.placed

theorem nodup_parts : object.parts.Nodup := by
  have sub : partsOf inner = (sifted inner).filter Tree.isNamed := by rw [partsOf, sifted, List.filter_filter]
  rw [isObject.parts_eq, sub]
  exact isObject.placed.nodup_sifted.filter _

end Whole

/-- An object in a text is read from wherever its brace is the next token. -/
theorem derives_object {cursor : Cursor} (isObject : object.ObjectIn dialect before inside behind inner)
    (trivia : cursor.trivia.2 = ⟨width before, '\x7b' :: (inside ++ behind)⟩) :
    (dialect.grammar false).Derives (.call .object) cursor (cursor.trivia.1 ++ [object.recast none]) ⟨object.stop, behind⟩ := by
  have same : object.recast none = .node .object none (width before) object.stop (Tree.brace (width before) :: inner) := by
    rw [Tree.recast, isObject.kind_eq, isObject.start_eq, isObject.children_eq]
  rw [same]
  exact derives_braces trivia isObject.derived

/-- An entry may be put in front of the properties of an object. -/
theorem insert {lead entry tail : List Char} (isObject : object.ObjectIn dialect before inside behind inner)
    (leadBlank : ∀ c ∈ lead, isSeparator c = true) (tailBlank : ∀ c ∈ tail, isSeparator c = true) (solid : entry ≠ [])
    (inky : Inky entry) (reads : ∀ (cursor : Cursor) (rest : List Char),
      cursor.trivia.2 = ⟨width before + 1 + width lead, entry ++ ',' :: rest⟩ →
        (dialect.grammar false).Derives Shape.property cursor (cursor.trivia.1 ++ [tree])
          ⟨width before + 1 + width lead + width entry, ',' :: rest⟩) :
    ∃ object' comma : Tree, comma.kind = .token "," ∧
      object'.ObjectIn dialect before (lead ++ (entry ++ ',' :: (tail ++ inside))) behind (tree :: comma :: inner.map
        (Tree.moved (width before + 1) (width before + 1 + width (lead ++ (entry ++ ',' :: tail))))) := by
  have opening : Cursor.trivia ⟨width before + 1, lead ++ (entry ++ ',' :: (tail ++ (inside ++ behind)))⟩ =
      ([], ⟨width before + 1 + width lead, entry ++ ',' :: (tail ++ (inside ++ behind))⟩) := by
    rw [Cursor.trivia, triviaFrom_blank leadBlank, triviaFrom_of_inky (inky_append solid inky)]
  have first := reads _ _ (congrArg Prod.snd opening)
  rw [opening, List.nil_append] at first
  have comma := @derives_sign dialect "," ⟨width before + 1 + width lead + width entry, ',' :: (tail ++ (inside ++ behind))⟩ _ _
    (by decide) (trivia_of_inky (by rintro c ⟨⟩; decide) _)
  -- What was behind the brace is read behind the comma, at another offset and behind other white space.
  have sizes : width (lead ++ (entry ++ ',' :: tail)) = width lead + width entry + width ",".toList + width tail := by
    simp only [width_append, width_cons, show width ",".toList = charWidth ',' from rfl]
    omega
  have shifts : Cursor.Shifts (width before + 1) (width before + 1 + width (lead ++ (entry ++ ',' :: tail)))
      ⟨width before + 1, inside ++ behind⟩
        ⟨width before + 1 + width (lead ++ (entry ++ ',' :: tail)), inside ++ behind⟩ := ⟨Nat.add_comm _ _, rfl⟩
  obtain ⟨⟨stop, rest⟩, ⟨stop_eq, same⟩, moved⟩ := isObject.derived.shift rfl shifts
  obtain rfl : behind = rest := Eq.symm same
  obtain ⟨head, later, eq, begins⟩ := Dialect.exists_begins moved (Shape.all_object admits_notComment).2.2 rfl
  have gap : Cursor.trivia ⟨width before + 1 + width lead + width entry + width ",".toList, tail ++ (inside ++ behind)⟩ =
      Cursor.trivia ⟨width before + 1 + width (lead ++ (entry ++ ',' :: tail)), inside ++ behind⟩ := by
    rw [Cursor.trivia, triviaFrom_blank tailBlank, sizes]
    simp only [Nat.add_assoc, Cursor.trivia]
  have others := begins.anywhere _ (congrArg Prod.snd gap)
  rw [gap, ← eq] at others
  obtain ⟨list, _, closing, split, holed, sign⟩ := others.exists_of_seq
  obtain ⟨optional, _, more, rfl, optionalDerived, many⟩ := holed.exists_of_seq
  have derived : (dialect.grammar false).Derives Shape.properties _ _ _ :=
    .seq (.seq (.first first) (.manyMore (.seq comma optionalDerived) many)) sign
  refine ⟨.node .object none (width before) stop (Tree.brace (width before) :: tree ::
      .node (.token ",") none (width before + 1 + width lead + width entry)
        (width before + 1 + width lead + width entry + width ",".toList) [] :: inner.map _),
    _, rfl, rfl, rfl, rfl, ?_, ?_⟩
  · have place : object.stop + (width before + 1 + width (lead ++ (entry ++ ',' :: tail))) = stop + (width before + 1) := stop_eq
    change stop = width before + 1 + width (lead ++ (entry ++ ',' :: (tail ++ inside)))
    rw [isObject.stop_eq] at place
    simp only [width_append, width_cons] at place ⊢
    omega
  · change (dialect.grammar false).Derives _ _ _ ⟨stop, behind⟩
    rw [split]
    simpa using derived

variable {pair value : Tree} {front gap old new back : List Char}

/-- The value of a pair of an object may be another one. -/
theorem replace (isObject : object.ObjectIn dialect before inside behind inner)
    (taken : PairAt dialect ⟨width before + 1, inside ++ behind⟩ inner ⟨object.stop, behind⟩ pair)
    (isText : taken.IsText front gap old) (split : taken.behind.rest = back ++ behind) (lines : LinesEnd (inside ++ behind))
    (solid : new ≠ []) (inky : Inky new)
    (may : MayReplace (gap ++ (old ++ taken.behind.rest)) (gap ++ (new ++ taken.behind.rest)))
    (reads : ∀ cursor : Cursor, cursor.trivia.2 = ⟨taken.value.start, new ++ taken.behind.rest⟩ →
      (dialect.grammar false).Derives (Shape.expression .enclosed) cursor (cursor.trivia.1 ++ [value])
        ⟨taken.value.start + width new, taken.behind.rest⟩) :
    ∃ object' : Tree, object'.ObjectIn dialect before (front ++ ':' :: (gap ++ (new ++ back))) behind
      (taken.front ++ (taken.place.trivia.1 ++ taken.withValue (value.withRole .value) ::
        taken.back.map (Tree.moved taken.value.stop (taken.value.start + width new)))) := by
  obtain ⟨⟨stop, rest⟩, ⟨stop_eq, same⟩, derived⟩ := taken.replace isText lines solid inky may reads
  obtain rfl : behind = rest := Eq.symm same
  refine ⟨.node .object none (width before) stop (Tree.brace (width before) :: _), rfl, rfl, rfl, ?_, ?_⟩
  · have place : object.stop + (taken.value.start + width new) = stop + taken.value.stop := stop_eq
    have whole := congrArg width isText.rest_eq
    have ends := isText.stop_eq
    have own := isObject.stop_eq
    change stop = width before + 1 + width (front ++ ':' :: (gap ++ (new ++ back)))
    simp only [split, width_append, width_cons] at whole ⊢
    omega
  · change (dialect.grammar false).Derives _ _ _ ⟨stop, behind⟩
    have texts : front ++ ':' :: (gap ++ (new ++ back)) ++ behind = front ++ ':' :: (gap ++ (new ++ taken.behind.rest)) := by
      simp [split]
    rw [texts]
    exact derived

end Tree.ObjectIn

end Scaffold.Syntax
