import Scaffold.Proofs.Syntax.Beginnings
import Scaffold.Proofs.Syntax.Lists

/-! # Pairs of objects

A pair of an object is taken apart around its value. What is in front of the colon is read in the same way whatever the
value is, and what is behind the value, too. So the object is one with another value in the place.
-/

namespace Scaffold.Syntax

open Scaffold.Text

/-! ## Roles -/

/-- Whether a rule gives no role to what it yields. -/
def Rule.isBare {σ : Type} (known : σ → Bool) : Rule σ → Bool
  | .role _ _ => false
  | .call symbol => known symbol
  | .seq first second | .alt first second => isBare known first && isBare known second
  | .many body | .items body | .only _ body | .grow body _ _ => isBare known body
  | .empty | .never | .leaf _ _ | .glued _ _ | .ending _ | .without _ | .node _ _ => true

def Symbol.isBare : Symbol → Bool
  | .expression _ _ _ | .operand _ | .array | .object | .template | .propertyName _ | .angled _ => true
  | _ => false

theorem Dialect.isBare_rule (dialect : Dialect) (symbol : Symbol) (bare : symbol.isBare = true) :
    (dialect.rule symbol).isBare Symbol.isBare = true := by
  cases symbol with
  | operand place =>
    obtain ⟨openEnded, typedArrows⟩ := place
    cases openEnded <;> cases typedArrows <;> rfl
  | angled place => cases dialect <;> rfl
  | expression | array | object | template | propertyName => rfl
  | _ => cases bare


/-- What a rule yields without roles is in no role. -/
theorem Grammar.Derives.role_eq_none {σ : Type} {grammar : Grammar σ} {rule : Rule σ} {known : σ → Bool} {at_ next : Cursor}
    {trees : List Tree} (strict : grammar.tolerant = false)
    (knows : ∀ symbol, known symbol = true → (grammar.rule symbol).isBare known = true)
    (derived : grammar.Derives rule at_ trees next) (bare : rule.isBare known = true) : ∀ tree ∈ trees, tree.role = none := by
  induction derived with
  | empty | manyNone | itemsNone | without => simp
  | leaf found =>
    obtain ⟨comments, start, stop, rfl, areComments⟩ := exists_of_readLeaf found
    intro tree mem
    rcases List.mem_append.mp mem with mem | mem
    · obtain ⟨_, _, rfl⟩ := areComments tree mem
      rfl
    · rw [List.mem_singleton.mp mem]
      rfl
  | glued found =>
    obtain ⟨start, stop, rfl⟩ := exists_of_readGlued found
    simp [Tree.role]
  | ending found =>
    intro tree mem
    obtain ⟨_, _, rfl⟩ := readEnding_comments _ _ _ _ found tree mem
    rfl
  | itemsError tolerant => rw [strict] at tolerant; cases tolerant
  | call _ inner => exact inner (knows _ bare)
  | first _ inner => exact inner ((Bool.and_eq_true _ _).mp bare).1
  | second _ inner => exact inner ((Bool.and_eq_true _ _).mp bare).2
  | only _ _ _ inner | base _ inner => exact inner bare
  | seq _ _ front back =>
    intro tree mem
    exact (List.mem_append.mp mem).elim (front ((Bool.and_eq_true _ _).mp bare).1 tree) (back ((Bool.and_eq_true _ _).mp bare).2 tree)
  | manyMore _ _ front back | itemsMore _ _ front back =>
    intro tree mem
    exact (List.mem_append.mp mem).elim (front bare tree) (back bare tree)
  | node inner =>
    intro tree mem
    rcases exists_of_mem_gather mem with ⟨member, comment⟩ | ⟨_, _, -, rfl⟩
    · exact inner.role_of_isComment tree member comment
    · rfl
  | role => cases bare
  | grown _ _ _ _ smaller _ =>
    intro tree mem
    rcases List.mem_append.mp mem with mem | mem
    · exact smaller bare tree (List.mem_append_left _ mem)
    · rw [List.mem_singleton.mp mem]
      rfl

theorem Tree.withRole_of_none {tree : Tree} (role : Role) (none_ : tree.role = none) (plain : tree.isComment = false) :
    (tree.withRole role).role = some role := by
  obtain ⟨kind, own, start, stop, children⟩ := tree
  obtain rfl : own = none := none_
  have other : kind ≠ .comment := of_decide_eq_false plain
  rw [withRole, if_neg other]
  rfl

theorem Tree.role_withRole {tree : Tree} {role other : Role} (none_ : tree.role = none) (different : role ≠ other) :
    (tree.withRole role).role ≠ some other := by
  obtain ⟨own, eq, same | ⟨same, -⟩⟩ := tree.withRole_eq_recast role
  · rw [eq, same, none_]
    exact nofun
  · rw [eq, same]
    exact fun same => different (Option.some.inj same)

/-! ## Pairs -/

namespace Shape

/-- A property with a value. -/
def pair : Shape := .node .pair
  (Rule.seqs [.role .key (.call (.propertyName [])), Rule.sign ":", .role .value (expression .enclosed)])

/-- A property of an object. -/
def property : Shape := Rule.alts [methodDefinition Rule.word [], pair, spread, Rule.name .shorthandPropertyIdentifier []]

/-- What is behind the opening brace of an object. -/
def properties : Shape := .seq (Rule.holed property) (Rule.sign "\x7d")

end Shape

variable {dialect : Dialect} {text : List Char} {at_ next : Cursor} {trees : List Tree} {tree : Tree}

theorem pair_of_property (derived : (dialect.grammar false).Derives Shape.property at_ trees next) (mem : tree ∈ trees)
    (isPair : tree.kind = .pair) : (dialect.grammar false).Derives Shape.pair at_ trees next := by
  have other {kind : Kind} {body : Shape} (derived : (dialect.grammar false).Derives (.node kind body) at_ trees next)
      (different : kind ≠ .pair) : False := by
    cases derived with
    | node inner =>
      rcases exists_of_mem_gather mem with ⟨-, comment⟩ | ⟨_, _, -, rfl⟩
      · rw [Tree.isComment, isPair] at comment
        cases comment
      · exact different isPair
  cases derived with
  | first method => exact absurd (other method (by decide)) id
  | second others =>
    cases others with
    | first pair => exact pair
    | second others =>
      cases others with
      | first spread => exact absurd (other spread (by decide)) id
      | second shorthand =>
        cases shorthand with
        | leaf found =>
          obtain ⟨comments, start, stop, rfl, areComments⟩ := exists_of_readLeaf found
          rcases List.mem_append.mp mem with mem | mem
          · obtain ⟨_, _, rfl⟩ := areComments tree mem
            cases isPair
          · rw [List.mem_singleton.mp mem] at isPair
            cases isPair

/-- A pair in an object, taken apart. -/
structure PairAt (dialect : Dialect) (at_ : Cursor) (trees : List Tree) (next : Cursor) (pair : Tree) where
  front : List Tree
  place : Cursor
  key : Tree
  others : List Tree
  behindKey : Cursor
  colon : List Tree
  behindColon : Cursor
  value : Tree
  behind : Cursor
  back : List Tree
  trees_eq : trees = front ++ (place.trivia.1 ++ pair :: back)
  pair_eq : pair = .node .pair none key.start value.stop (key :: (others ++ (colon ++ (behindColon.trivia.1 ++ [value]))))
  earlier : (dialect.grammar false).Derives (Rule.earlier Shape.property) at_ front place
  keyDerived : (dialect.grammar false).Derives (.role .key (.call (.propertyName []))) place
    (place.trivia.1 ++ key :: others) behindKey
  colonDerived : (dialect.grammar false).Derives (Rule.sign ":") behindKey colon behindColon
  valueDerived : (dialect.grammar false).Derives (.role .value (Shape.expression .enclosed)) behindColon
    (behindColon.trivia.1 ++ [value]) behind
  further : (dialect.grammar false).Derives (.seq (Rule.further Shape.property) (Rule.sign "\x7d")) behind back next
  key_plain : key.isComment = false
  key_role : key.role = some .key
  others_role : ∀ tree ∈ others, tree.role ≠ some .value
  value_plain : value.isComment = false
  value_role : value.role = some .value
  value_start : value.start = behindColon.trivia.2.offset
  value_stop : value.stop = behind.offset

theorem gather_concat {kind : Kind} {comments middle : List Tree} {first last : Tree}
    (comment : ∀ tree ∈ comments, tree.isComment = true) (plain : first.isComment = false) :
    gather kind (comments ++ first :: (middle ++ [last])) =
      comments ++ [.node kind none first.start last.stop (first :: (middle ++ [last]))] := by
  rw [gather_eq comment plain]
  simp only [← List.cons_append, List.getLast_concat]

/-- Every pair among the properties of an object can be taken apart. -/
theorem exists_pairAt (inside : at_.In text) (derived : (dialect.grammar false).Derives Shape.properties at_ trees next)
    (mem : tree ∈ trees) (isPair : tree.kind = .pair) : Nonempty (PairAt dialect at_ trees next tree) := by
  have plain : tree.isComment = false := by rw [Tree.isComment, isPair]; rfl
  obtain ⟨list, beforeClosing, closing, rfl, holed, sign⟩ := derived.exists_of_seq
  rw [List.mem_append, or_iff_left (Grammar.not_mem_of_sign sign plain (by rw [isPair]; decide))] at mem
  obtain ⟨split, mem, earlier, own, further⟩ := holed.around mem plain (by rw [isPair]; decide)
  rename_i front middle back between behind
  have insideOwn := (earlier.span inside).2
  cases pair_of_property own mem isPair with
  | node body =>
    obtain ⟨keys, behindKey, rest, rfl, keyDerived, body⟩ := body.exists_of_seq
    obtain ⟨colon, behindColon, values, rfl, colonDerived, valueDerived⟩ := body.exists_of_seq
    have insideValue := (colonDerived.span (keyDerived.span insideOwn).2).2
    obtain ⟨key, others, rfl, keyInner, keyBegins⟩ := Dialect.exists_begins_of_role rfl keyDerived
    obtain ⟨value, none_, rfl, valueInner, valueBegins⟩ := Dialect.exists_begins_of_role rfl valueDerived
    have keyRoles := keyInner.role_eq_none rfl dialect.isBare_rule rfl
    have valueRoles := valueInner.role_eq_none rfl dialect.isBare_rule rfl
    obtain rfl : none_ = [] := by
      obtain ⟨comments, item, same, areComments, isItem⟩ := Dialect.yieldsItem_expression _ _ _ insideValue valueInner
      have left := congrArg (List.dropWhile Tree.isComment) same
      rw [List.dropWhile_append_of_pos (isComment_trivia behindColon), List.dropWhile_append_of_pos areComments,
        List.dropWhile_cons_of_neg (by simp [valueBegins.plain]), List.dropWhile_cons_of_neg (by simp [isItem.notComment])] at left
      exact (List.cons.inj left).2
    have keyPlain : (key.withRole .key).isComment = false := by rw [Tree.isComment_withRole, keyBegins.plain]
    have valuePlain : (value.withRole .value).isComment = false := by rw [Tree.isComment_withRole, valueBegins.plain]
    have stop_eq : (value.withRole .value).stop = behind.offset := by
      rcases valueDerived.ends rfl with ⟨none_, -⟩ | last
      · simp at none_
      · simpa using last
    have order : between.trivia.1 ++ key.withRole .key :: others.map (Tree.withRole .key) ++
        (colon ++ (behindColon.trivia.1 ++ value.withRole .value :: [].map (Tree.withRole .value))) =
          between.trivia.1 ++ key.withRole .key :: (others.map (Tree.withRole .key) ++ (colon ++ behindColon.trivia.1) ++
            [value.withRole .value]) := by simp
    rw [order, gather_concat (isComment_trivia between) keyPlain] at mem split
    have pair_eq := List.mem_singleton.mp ((List.mem_append.mp mem).resolve_left fun mem => by
      rw [isComment_trivia between tree mem] at plain
      cases plain)
    refine ⟨{
      front, place := between, key := key.withRole .key, others := others.map (Tree.withRole .key), behindKey, colon,
      behindColon, value := value.withRole .value, behind, back := back ++ closing,
      trees_eq := by rw [split, pair_eq]; simp
      pair_eq := by rw [pair_eq]; simp only [List.append_assoc]
      earlier, keyDerived, colonDerived, valueDerived
      further := .seq further sign
      key_plain := keyPlain
      key_role := Tree.withRole_of_none _ (keyRoles key (by simp)) keyBegins.plain
      others_role := ?_
      value_plain := valuePlain
      value_role := Tree.withRole_of_none _ (valueRoles value (by simp)) valueBegins.plain
      value_start := by rw [Tree.start_withRole, valueBegins.start_eq]
      value_stop := stop_eq }⟩
    intro tree mem
    obtain ⟨own, member, rfl⟩ := List.mem_map.mp mem
    exact Tree.role_withRole (keyRoles own (by simp [member])) (by decide)

/-- The text between two places. -/
theorem exists_between {before before' rest rest' : List Char} (same : before ++ rest = before' ++ rest')
    (lt : width before < width before') :
    ∃ value, value ≠ [] ∧ rest = value ++ rest' ∧ width before' = width before + width value := by
  rcases List.append_eq_append_iff.mp same with ⟨value, rfl, rfl⟩ | ⟨value, rfl, -⟩
  · refine ⟨value, ?_, rfl, width_append _ _⟩
    rintro rfl
    simp at lt
  · rw [width_append] at lt
    omega

namespace PairAt

variable {pair value : Tree} (taken : PairAt dialect at_ trees next pair)

/-- The pair with another value. -/
def withValue (value : Tree) : Tree :=
  .node .pair none taken.key.start value.stop
    (taken.key :: (taken.others ++ (taken.colon ++ (taken.behindColon.trivia.1 ++ [value]))))

theorem eq_withValue : pair = taken.withValue taken.value := taken.pair_eq

theorem child?_key (value : Tree) : (taken.withValue value).child? .key = some taken.key :=
  List.find?_cons_of_pos (by simp [taken.key_role])

theorem child?_value (role : value.role = some .value) : (taken.withValue value).child? .value = some value := by
  have colonRoles := taken.colonDerived.role_eq_none rfl dialect.isBare_rule rfl
  have gapRoles : ∀ tree ∈ taken.behindColon.trivia.1, tree.role = none := fun tree mem =>
    taken.valueDerived.role_of_isComment tree (List.mem_append_left _ mem) (isComment_trivia _ tree mem)
  have order : taken.key :: (taken.others ++ (taken.colon ++ (taken.behindColon.trivia.1 ++ [value]))) =
      (taken.key :: (taken.others ++ (taken.colon ++ taken.behindColon.trivia.1))) ++ [value] := by simp
  have none_ : (taken.key :: (taken.others ++ (taken.colon ++ taken.behindColon.trivia.1))).find?
      (fun child => child.role = some .value) = none := by
    refine List.find?_eq_none.mpr fun tree mem own => ?_
    have own := of_decide_eq_true own
    simp only [List.mem_cons, List.mem_append] at mem
    rcases mem with rfl | mem | mem | mem
    · rw [taken.key_role] at own
      cases own
    · exact taken.others_role tree mem own
    · rw [colonRoles tree mem] at own
      cases own
    · rw [gapRoles tree mem] at own
      cases own
  rw [withValue, Tree.child?, Tree.children, order, List.find?_append, none_, Option.none_or,
    List.find?_cons_of_pos (by simp [role])]

/-- What is around the value of a pair stands in front of it and behind it. -/
theorem order {start stop : Nat} (placed : Tree.PlacedIn start stop trees) :
    (∀ tree ∈ taken.front, tree.Placed ∧ tree.start < tree.stop ∧ tree.stop ≤ taken.value.start) ∧
      (∀ tree ∈ taken.back, tree.Placed ∧ tree.start < tree.stop ∧ taken.value.stop ≤ tree.start ∧ tree.stop ≤ stop) ∧
        taken.key.start < taken.key.stop ∧ taken.key.stop ≤ taken.value.start := by
  rw [taken.trees_eq] at placed
  have order := placed.pairwise
  have own := placed.placed (List.mem_append_right _ (List.mem_append_right _ List.mem_cons_self))
  have stop_eq : pair.stop = taken.value.stop := (congrArg Tree.stop taken.pair_eq :)
  have children : pair.children =
      taken.key :: (taken.others ++ (taken.colon ++ (taken.behindColon.trivia.1 ++ [taken.value]))) := by
    conv_lhs => rw [taken.pair_eq]
    rfl
  have inner := own.children
  rw [children] at inner
  have valueMem : taken.value ∈ taken.others ++ (taken.colon ++ (taken.behindColon.trivia.1 ++ [taken.value])) := by simp
  have value := inner.bounds (List.mem_cons_of_mem _ valueMem)
  have key := inner.bounds List.mem_cons_self
  have before := (List.pairwise_cons.mp inner.pairwise).1 _ valueMem
  obtain ⟨-, rest, apart⟩ := List.pairwise_append.mp order
  obtain ⟨-, pairOrder, -⟩ := List.pairwise_append.mp rest
  refine ⟨fun tree mem => ?_, fun tree mem => ?_, key.2.1, before⟩
  · have bounds := placed.bounds (List.mem_append_left _ mem)
    have ordered := apart tree mem pair (List.mem_append_right _ List.mem_cons_self)
    exact ⟨placed.placed (List.mem_append_left _ mem), bounds.2.1, by omega⟩
  · have member : tree ∈ taken.front ++ (taken.place.trivia.1 ++ pair :: taken.back) :=
      List.mem_append_right _ (List.mem_append_right _ (List.mem_cons_of_mem _ mem))
    have bounds := placed.bounds member
    have ordered := (List.pairwise_cons.mp pairOrder).1 tree mem
    exact ⟨placed.placed member, bounds.2.1, by omega, bounds.2.2⟩

/-- The text around the value: what is in front of the colon, what is between the colon and the value, and the value. -/
structure IsText (front gap old : List Char) : Prop where
  rest_eq : at_.rest = front ++ ':' :: (gap ++ (old ++ taken.behind.rest))
  lands : taken.behindKey.trivia.2.rest = ':' :: (gap ++ (old ++ taken.behind.rest))
  before : taken.behindKey.Before (gap ++ (old ++ taken.behind.rest))
  behindColon_eq : taken.behindColon = ⟨at_.offset + width front + 1, gap ++ (old ++ taken.behind.rest)⟩
  trivia_eq : taken.behindColon.trivia.2 = ⟨taken.value.start, old ++ taken.behind.rest⟩
  start_eq : taken.value.start = at_.offset + width front + 1 + width gap
  stop_eq : taken.value.stop = taken.value.start + width old
  solid : old ≠ []

theorem exists_isText (inside : at_.In text) : ∃ front gap old, taken.IsText front gap old := by
  obtain ⟨earlier, splitEarlier, offsetEarlier⟩ := taken.earlier.exists_taken rfl inside
  have inside := (taken.earlier.span inside).2
  obtain ⟨name, splitName, offsetName⟩ := taken.keyDerived.exists_taken rfl inside
  have inside := (taken.keyDerived.span inside).2
  obtain ⟨space, splitSpace, trivia, -, offsetColon⟩ := exists_of_sign rfl taken.colonDerived
  have inside := (taken.colonDerived.span inside).2
  obtain ⟨gap, splitGap, offsetGap⟩ := exists_gap taken.behindColon.offset 0 taken.behindColon.rest
  obtain ⟨value, solid, splitValue, offsetValue⟩ : ∃ value, value ≠ [] ∧
      taken.behindColon.trivia.2.rest = value ++ taken.behind.rest ∧ taken.value.stop = taken.value.start + width value := by
    have filled := ((taken.valueDerived.span inside).1.placed.bounds (List.mem_append_right _ (List.mem_singleton.mpr rfl))).2.1
    obtain ⟨before, split, offset⟩ := inside.trivia.2
    obtain ⟨before', split', offset'⟩ := (taken.valueDerived.span inside).2
    obtain ⟨value, solid, rest_eq, stop_eq⟩ := @exists_between before before' _ _ (split.symm.trans split') (by
      rw [← offset, ← offset', ← taken.value_start, ← taken.value_stop]
      exact filled)
    exact ⟨value, solid, rest_eq, by rw [taken.value_stop, taken.value_start, offset', offset, stop_eq]⟩
  have afterColon : taken.behindColon.rest = gap ++ (value ++ taken.behind.rest) := by rw [← splitValue]; exact splitGap
  rw [afterColon] at splitSpace trivia
  have mark : ":".toList = [':'] := rfl
  rw [mark, List.singleton_append] at splitSpace trivia
  have frontWidth : width (earlier ++ (name ++ space)) = width earlier + (width name + width space) := by
    rw [width_append, width_append]
  have colonWidth : width ":".toList = 1 := rfl
  have place_eq : taken.behindColon.offset = at_.offset + width (earlier ++ (name ++ space)) + 1 := by omega
  refine ⟨earlier ++ (name ++ space), gap, value, ?_, congrArg Cursor.rest trivia, ⟨space, splitSpace⟩, ?_, ?_, ?_, offsetValue, solid⟩
  · rw [splitEarlier, splitName, splitSpace]
    simp
  · rw [← place_eq, ← afterColon]
  · rw [taken.value_start, ← splitValue]
  · rw [taken.value_start, ← place_eq]
    exact offsetGap

/-- Behind the value of a pair no name goes on. -/
theorem quiet : nameTailLength 0 taken.behind.rest = 0 := by
  obtain ⟨commas, between, closing, -, further, sign⟩ := taken.further.exists_of_seq
  cases further with
  | manyNone => exact quiet_of_sign rfl rfl (by decide) (by decide) sign
  | manyMore first _ =>
    obtain ⟨_, _, _, -, comma, -⟩ := first.exists_of_seq
    exact quiet_of_sign rfl rfl (by decide) (by decide) comma

variable {front gap old new : List Char}

/-- Another value may stand in the place of the old one. -/
theorem replace (isText : taken.IsText front gap old) (lines : LinesEnd at_.rest) (solid : new ≠ []) (inky : Inky new)
    (may : MayReplace (gap ++ (old ++ taken.behind.rest)) (gap ++ (new ++ taken.behind.rest)))
    (reads : ∀ cursor : Cursor, cursor.trivia.2 = ⟨taken.value.start, new ++ taken.behind.rest⟩ →
      (dialect.grammar false).Derives (Shape.expression .enclosed) cursor (cursor.trivia.1 ++ [value])
        ⟨taken.value.start + width new, taken.behind.rest⟩) :
    ∃ next', next.Shifts taken.value.stop (taken.value.start + width new) next' ∧
      (dialect.grammar false).Derives Shape.properties ⟨at_.offset, front ++ ':' :: (gap ++ (new ++ taken.behind.rest))⟩
        (taken.front ++ (taken.place.trivia.1 ++ taken.withValue (value.withRole .value) ::
          taken.back.map (Tree.moved taken.value.stop (taken.value.start + width new)))) next' := by
  have joins := dialect.joins
  have suffixFront := taken.earlier.suffix rfl
  have beforePlace := isText.before.of_suffix (taken.keyDerived.suffix rfl)
  -- What is in front of the colon is read as before.
  have first := (taken.earlier.reaches joins may rfl lines beforePlace).swapped (.inl rfl)
  have second := (taken.keyDerived.reaches joins may rfl (lines.of_suffix suffixFront) isText.before).swapped
    (.inr ⟨[], isText.lands⟩)
  rw [Cursor.swapped_eq isText.rest_eq] at first
  -- The colon
  have colon : (dialect.grammar false).Derives (Rule.sign ":")
      (taken.behindKey.swapped (gap ++ (old ++ taken.behind.rest)) (gap ++ (new ++ taken.behind.rest))) taken.colon
        ⟨at_.offset + width front + 1, gap ++ (new ++ taken.behind.rest)⟩ := by
    have place : taken.behindColon.offset = at_.offset + width front + 1 := congrArg Cursor.offset isText.behindColon_eq
    obtain ⟨space, -, trivia, eq, stop_eq⟩ := exists_of_sign rfl taken.colonDerived
    obtain ⟨space', split⟩ := isText.before
    have swap := @triviaFrom_colon _ [] _ _ 0 taken.behindKey.offset may (by rw [← split]; exact isText.lands)
    have here : (taken.behindKey.swapped (gap ++ (old ++ taken.behind.rest)) (gap ++ (new ++ taken.behind.rest))).trivia =
        (taken.behindKey.trivia.1, ⟨taken.behindKey.offset + width space, ":".toList ++ (gap ++ (new ++ taken.behind.rest))⟩) := by
      rw [Cursor.swapped_eq split, Cursor.trivia, swap, ← split]
      exact congrArg (_, Cursor.mk · _) (congrArg Cursor.offset trivia)
    have read := @readLeaf_of_length _ _ _ (.token ":") (.mark ":" []) _ (by decide) (congrArg Prod.snd here) rfl
    rw [here] at read
    rw [eq, ← place, stop_eq]
    exact .leaf read
  -- The value
  have value_ : (dialect.grammar false).Derives (.role .value (Shape.expression .enclosed))
      ⟨at_.offset + width front + 1, gap ++ (new ++ taken.behind.rest)⟩
        (taken.behindColon.trivia.1 ++ [value.withRole .value]) ⟨taken.value.start + width new, taken.behind.rest⟩ := by
    have trivia := isText.trivia_eq
    rw [isText.behindColon_eq] at trivia ⊢
    have swap := @triviaFrom_swap (at_.offset + width front + 1) gap (old ++ taken.behind.rest) (new ++ taken.behind.rest)
      (congrArg Cursor.rest trivia) (by simp [isText.solid]) (inky_append solid inky)
    have derived := @Grammar.Derives.role _ _ .value _ _ _ _ (reads ⟨at_.offset + width front + 1, gap ++ (new ++ taken.behind.rest)⟩ (by
      rw [Cursor.trivia, swap, isText.start_eq]))
    rw [List.map_append, map_withRole_trivia, Cursor.trivia, swap] at derived
    exact derived
  have pair_ : (dialect.grammar false).Derives Shape.pair
      (taken.place.swapped (gap ++ (old ++ taken.behind.rest)) (gap ++ (new ++ taken.behind.rest)))
        (taken.place.trivia.1 ++ [taken.withValue (value.withRole .value)])
          ⟨taken.value.start + width new, taken.behind.rest⟩ := by
    have derived := @Grammar.Derives.node _ _ .pair _ _ _ _ (.seq second (.seq colon value_))
    have order : taken.place.trivia.1 ++ taken.key :: taken.others ++ (taken.colon ++ (taken.behindColon.trivia.1 ++
        [value.withRole .value])) = taken.place.trivia.1 ++ taken.key :: (taken.others ++ (taken.colon ++
          taken.behindColon.trivia.1) ++ [value.withRole .value]) := by simp
    rw [order, gather_concat (isComment_trivia _) taken.key_plain] at derived
    simp only [List.append_assoc] at derived
    exact derived
  -- What is behind the value is read as before, at another offset.
  have shifts : taken.behind.Shifts taken.value.stop (taken.value.start + width new)
      ⟨taken.value.start + width new, taken.behind.rest⟩ := ⟨by rw [taken.value_stop, Nat.add_comm], rfl⟩
  obtain ⟨next', shifts, behind⟩ := taken.further.shift rfl shifts
  obtain ⟨further, _, closing, eq, further_, sign⟩ := behind.exists_of_seq
  refine ⟨next', shifts, ?_⟩
  have derived := Grammar.Derives.seq (first.holed (.first (.second (.first pair_))) further_) sign
  have order : taken.front ++ (taken.place.trivia.1 ++ [taken.withValue (value.withRole .value)] ++ further) ++ closing =
      taken.front ++ (taken.place.trivia.1 ++ taken.withValue (value.withRole .value) :: (further ++ closing)) := by simp
  rwa [order, ← eq] at derived

end PairAt

end Scaffold.Syntax
