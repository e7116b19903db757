import Scaffold.Proofs.Syntax.Openings

/-! # The tree of a source file

The tree that is read from a text is well placed and well shaped, and the text consists of its leaves and
of the separators between them.
-/

namespace Scaffold.Syntax

open Scaffold.Text

/-- Only constructs have children, and the body of a method has room for its braces. -/
structure Tree.WellShaped (tree : Tree) : Prop where
  isComposite : tree.children ≠ [] → tree.kind.isComposite = true
  roomy : tree.kind = .methodDefinition → ∀ body ∈ tree.children, body.role = some .body → body.start + 1 < body.stop

/-- A token, a comment and the name of a value have no children. -/
theorem Tree.WellShaped.children_eq_nil {tree : Tree} (shaped : tree.WellShaped)
    (simple : tree.kind.isComposite = false) : tree.children = [] := by
  by_cases childless : tree.children = []
  · exact childless
  · rw [shaped.isComposite childless] at simple
    cases simple

/-- An array is a list of items in brackets. -/
def Tree.IsBracketed (text : List Char) (tree : Tree) : Prop :=
  tree.kind = .array → tree.children ≠ [] → Bracketed text tree.children

namespace Grammar

variable {σ : Type} {grammar : Grammar σ} {text : List Char} {holds : Tree → Prop} {first second body : Rule σ}

/-- Comments play no part in their parents. -/
theorem Derives.role_of_isComment {rule : Rule σ} {at_ next : Cursor} {trees : List Tree}
    (derived : grammar.Derives rule at_ trees next) : ∀ tree ∈ trees, tree.isComment = true → tree.role = none := by
  induction derived with
  | empty | manyNone | itemsNone | without => simp
  | leaf found =>
    obtain ⟨comments, start, stop, rfl, comment⟩ := exists_of_readLeaf found
    intro tree mem _
    rcases List.mem_append.mp mem with mem | mem
    · obtain ⟨start, stop, rfl⟩ := comment tree mem
      rfl
    · rw [List.mem_singleton.mp mem]
      rfl
  | glued found =>
    obtain ⟨start, stop, rfl⟩ := exists_of_readGlued found
    intro tree mem _
    rw [List.mem_singleton.mp mem]
    rfl
  | ending found =>
    intro tree mem _
    obtain ⟨start, stop, rfl⟩ := readEnding_comments _ _ _ _ found tree mem
    rfl
  | itemsError _ found =>
    intro tree mem _
    obtain ⟨kind, start, stop, rfl⟩ := exists_of_readError found tree mem
    rfl
  | call _ inner | first _ inner | second _ inner | only _ _ _ inner | base _ inner => exact inner
  | seq _ _ front back | manyMore _ _ front back | itemsMore _ _ front back =>
    intro tree mem comment
    rcases List.mem_append.mp mem with mem | mem
    · exact front tree mem comment
    · exact back tree mem comment
  | node _ inner =>
    intro tree mem comment
    rcases mem_gather mem with ⟨mem, -⟩ | ⟨start, stop, rfl, -⟩
    · exact inner tree mem comment
    · rfl
  | @role role _ _ _ _ _ inner =>
    intro tree mem comment
    obtain ⟨original, member, rfl⟩ := List.mem_map.mp mem
    obtain ⟨own, eq, rfl | ⟨-, notComment⟩⟩ := original.withRole_eq_recast role
    · rw [eq] at comment ⊢
      exact inner original member comment
    · rw [eq] at comment
      rw [show original.isComment = true from comment] at notComment
      cases notComment
  | grown _ _ _ _ smaller behind =>
    intro tree mem comment
    rcases List.mem_append.mp mem with mem | mem
    · exact smaller tree (List.mem_append_left _ mem) comment
    · rw [List.mem_singleton.mp mem]
      rfl

/-- A property of the trees that a rule yields as a body. -/
def Bodied (grammar : Grammar σ) (text : List Char) (holds : Tree → Prop) (rule : Rule σ) : Prop :=
  ∀ at_ trees next, Cursor.In text at_ → grammar.Derives rule at_ trees next →
    ∀ tree ∈ trees, tree.role = some .body → holds tree

theorem bodied_empty : grammar.Bodied text holds .empty := by
  intro at_ trees next _ derived tree mem
  cases derived
  cases mem

theorem bodied_leaf {kind : Kind} {terminal : Terminal} : grammar.Bodied text holds (.leaf kind terminal) := by
  intro at_ trees next _ derived tree mem isBody
  cases derived with
  | leaf found =>
    obtain ⟨comments, start, stop, rfl, comment⟩ := exists_of_readLeaf found
    rcases List.mem_append.mp mem with mem | mem
    · obtain ⟨start, stop, rfl⟩ := comment tree mem
      cases isBody
    · rw [List.mem_singleton.mp mem] at isBody
      cases isBody

theorem bodied_without : grammar.Bodied text holds (.without body) := by
  intro at_ trees next _ derived tree mem
  cases derived
  cases mem

theorem bodied_seq (front : grammar.Bodied text holds first) (back : grammar.Bodied text holds second) :
    grammar.Bodied text holds (.seq first second) := by
  intro at_ trees next inside derived tree mem
  cases derived with
  | seq frontDerived backDerived =>
    rcases List.mem_append.mp mem with mem | mem
    · exact front _ _ _ inside frontDerived tree mem
    · exact back _ _ _ (frontDerived.span inside).2 backDerived tree mem

theorem bodied_alt (left : grammar.Bodied text holds first) (right : grammar.Bodied text holds second) :
    grammar.Bodied text holds (.alt first second) := by
  intro at_ trees next inside derived
  cases derived with
  | first taken => exact left _ _ _ inside taken
  | second taken => exact right _ _ _ inside taken

theorem bodied_call {symbol : σ} (rule : grammar.Bodied text holds (grammar.rule symbol)) : grammar.Bodied text holds (.call symbol) := by
  intro at_ trees next inside derived
  cases derived with
  | call inner => exact rule _ _ _ inside inner

theorem bodied_node {kind : Kind} : grammar.Bodied text holds (.node kind body) := by
  intro at_ trees next inside derived tree mem isBody
  cases derived with
  | node inner =>
    rcases mem_gather mem with ⟨mem, comment⟩ | ⟨start, stop, rfl, -⟩
    · rw [inner.role_of_isComment tree mem comment] at isBody
      cases isBody
    · cases isBody

theorem bodied_opt (rule : grammar.Bodied text holds body) : grammar.Bodied text holds (Rule.opt body) := bodied_alt rule bodied_empty

theorem bodied_seqs {rules : List (Rule σ)} (all : ∀ rule ∈ rules, grammar.Bodied text holds rule) :
    grammar.Bodied text holds (Rule.seqs rules) := by
  induction rules with
  | nil => exact bodied_empty
  | cons head later bodied =>
    cases later with
    | nil => exact all head List.mem_cons_self
    | cons next others => exact bodied_seq (all head List.mem_cons_self) (bodied fun rule mem => all rule (List.mem_cons_of_mem _ mem))

theorem bodied_alts {rules : List (Rule σ)} (all : ∀ rule ∈ rules, grammar.Bodied text holds rule) :
    grammar.Bodied text holds (Rule.alts rules) := by
  induction rules with
  | nil =>
    intro at_ trees next _ derived
    cases derived
  | cons head later bodied =>
    cases later with
    | nil => exact all head List.mem_cons_self
    | cons next others => exact bodied_alt (all head List.mem_cons_self) (bodied fun rule mem => all rule (List.mem_cons_of_mem _ mem))

theorem bodied_modified {modifiers : List (Rule σ)} (all : ∀ rule ∈ modifiers, grammar.Bodied text holds rule)
    (rule : grammar.Bodied text holds body) : grammar.Bodied text holds (Rule.modified modifiers body) := by
  induction modifiers with
  | nil => exact rule
  | cons head later bodied =>
    have rest := bodied fun rule mem => all rule (List.mem_cons_of_mem _ mem)
    exact bodied_alt (bodied_seq (all head List.mem_cons_self) rest) rest

theorem bodied_role {role : Role} (other : role ≠ .body) (rule : grammar.Bodied text holds body) :
    grammar.Bodied text holds (.role role body) := by
  intro at_ trees next inside derived tree mem isBody
  cases derived with
  | role inner =>
    obtain ⟨original, member, rfl⟩ := List.mem_map.mp mem
    obtain ⟨own, eq, rfl | ⟨rfl, -⟩⟩ := original.withRole_eq_recast role
    · have same : original.recast original.role = original := by
        cases original
        rfl
      rw [eq, same] at isBody ⊢
      exact rule _ _ _ inside inner original member isBody
    · rw [eq] at isBody
      exact absurd (Option.some.inj isBody) other

end Grammar

/-! ## Blocks and methods -/

namespace Dialect

open Grammar

variable {dialect : Dialect} {tolerant : Bool} {text : List Char} {holds : Tree → Prop}

/-- Between a tree and one behind it in a list there is room for both. -/
private theorem room {start stop : Nat} {first second : Tree} {between after : List Tree}
    (placed : Tree.PlacedIn start stop (first :: (between ++ second :: after))) : start + 1 < stop := by
  have front := placed.bounds List.mem_cons_self
  have back := placed.bounds (show second ∈ _ by simp)
  have apart : first.stop ≤ second.start := (List.pairwise_cons.mp placed.pairwise).1 second (by simp)
  omega

/-- A mark is read as a leaf behind comments. -/
private theorem exists_of_derives_sign {σ : Type} {grammar : Grammar σ} {mark : String} {at_ next : Cursor}
    {trees : List Tree} (derived : grammar.Derives (Rule.sign mark) at_ trees next) :
    ∃ comments start stop, trees = comments ++ [.node (.token mark) none start stop []] ∧
      ∀ tree ∈ comments, tree.isComment = true := by
  cases derived with
  | leaf found =>
    obtain ⟨comments, start, stop, eq, comment⟩ := exists_of_readLeaf found
    refine ⟨comments, start, stop, eq, fun tree mem => ?_⟩
    obtain ⟨start, stop, rfl⟩ := comment tree mem
    rfl

/-- A block holds its two braces. -/
theorem roomy_block :
    (dialect.grammar tolerant).Bodied text (fun tree => tree.start + 1 < tree.stop) (.role .body Shape.block) := by
  intro at_ trees next inside derived tree mem isBody
  cases derived with
  | role derived =>
    obtain ⟨original, member, rfl⟩ := List.mem_map.mp mem
    obtain ⟨own, eq, taken⟩ := original.withRole_eq_recast .body
    rw [eq] at isBody ⊢
    cases derived with
    | call derived =>
      cases derived with
      | node derived =>
        rcases mem_gather member with ⟨member, comment⟩ | ⟨start, stop, same, -⟩
        · rcases taken with rfl | ⟨-, notComment⟩
          · have none_ := derived.role_of_isComment original member comment
            rw [show (original.recast original.role).role = original.role from rfl, none_] at isBody
            cases isBody
          · rw [comment] at notComment
            cases notComment
        · have placed := ((derived.span inside).1.gather .statementBlock).placed.placed member
          rw [same] at placed ⊢
          cases derived with
          | seq opening rest =>
            cases rest with
            | seq items rest =>
              cases rest with
              | seq closing ending =>
                obtain ⟨comments, _, _, rfl, comment⟩ := exists_of_derives_sign opening
                obtain ⟨others, _, _, rfl, -⟩ := exists_of_derives_sign closing
                have inner := placed.children
                simp only [Tree.children, List.append_assoc] at inner
                rw [List.dropWhile_append_of_pos comment, List.singleton_append,
                  List.dropWhile_cons_of_neg (by simp [Tree.isComment, Tree.kind]), ← List.append_assoc] at inner
                exact room inner

theorem bodied_signature {place : TypePlace} :
    (dialect.grammar tolerant).Bodied text holds (.call (.signature place)) := by
  have parameters : (dialect.grammar tolerant).Bodied text holds (.call .parameters) := bodied_call bodied_node
  have typeParameters : (dialect.grammar tolerant).Bodied text holds (.call .typeParameters) := bodied_call bodied_node
  refine bodied_call (bodied_seqs ?_)
  intro rule mem
  simp only [List.mem_cons, List.not_mem_nil, or_false] at mem
  rcases mem with rfl | rfl | rfl
  · exact bodied_opt typeParameters
  · exact bodied_role (by decide) parameters
  · refine bodied_opt (bodied_alts ?_)
    intro rule mem
    simp only [List.mem_cons, List.not_mem_nil, or_false] at mem
    rcases mem with rfl | rfl | rfl <;> exact bodied_node

theorem bodied_propertyName {reserved : List String} :
    (dialect.grammar tolerant).Bodied text holds (.call (.propertyName reserved)) := by
  refine bodied_call (bodied_alts ?_)
  intro rule mem
  simp only [List.mem_cons, List.not_mem_nil, or_false] at mem
  rcases mem with rfl | rfl | rfl | rfl | rfl
  · exact bodied_leaf
  · exact bodied_leaf
  · exact bodied_leaf
  · exact bodied_leaf
  · exact bodied_node

/-- What the language asks of its constructs: a kind that may have children, in a method a block as its body, and in an
array brackets around items. -/
structure Forms (dialect : Dialect) (tolerant : Bool) (kind : Kind) (body : Shape) : Prop where
  isComposite : kind.isComposite = true
  bodied : kind = .methodDefinition → ∀ text holds,
    (dialect.grammar tolerant).Bodied text holds (.role .body Shape.block) → (dialect.grammar tolerant).Bodied text holds body
  bracketed : kind = .array → ∀ text at_ trees next, Cursor.In text at_ →
    (dialect.grammar tolerant).Derives body at_ trees next → Bracketed text trees

/-- What the language asks of its tails. -/
structure TailKind (kind : Kind) : Prop where
  isComposite : kind.isComposite = true
  notMethod : kind ≠ .methodDefinition
  notArray : kind ≠ .array

theorem admits : Admits (dialect.Forms tolerant) TailKind where
  construct kind body composite notMethod notArray :=
    ⟨composite, fun same => absurd same notMethod, fun same => absurd same notArray⟩
  tail kind composite notMethod notArray := ⟨composite, notMethod, notArray⟩
  array := by
    refine ⟨⟨rfl, nofun, fun _ text at_ trees next inside derived => bracketed_of_array inside derived⟩, ?_⟩
    have spread : dialect.Forms tolerant .spreadElement (.seq (Rule.sign "...") (Shape.expression .enclosed)) :=
      ⟨rfl, nofun, nofun⟩
    simp [Shape.spread, spread]
  method modifier reserved plain := by
    have word (text : List Char) (holds : Tree → Prop) (word : String) :
        (dialect.grammar tolerant).Bodied text holds (modifier word) := by
      rcases plain with rfl | rfl
      · exact bodied_leaf
      · exact bodied_seq bodied_leaf bodied_without
    have all (word : String) : (modifier word).All (dialect.Forms tolerant) TailKind := by
      rcases plain with rfl | rfl
      · exact all_word
      · exact Shape.all_modifier
    have composite {kind : Kind} {body : Shape} (composite : kind.isComposite = true) (notMethod : kind ≠ .methodDefinition)
        (notArray : kind ≠ .array) : dialect.Forms tolerant kind body :=
      ⟨composite, fun same => absurd same notMethod, fun same => absurd same notArray⟩
    refine ⟨⟨rfl, fun _ text holds block => ?_, nofun⟩, ?_⟩
    · refine bodied_modified ?_ (bodied_seqs ?_)
      · intro rule mem
        simp only [List.mem_cons, List.not_mem_nil, or_false] at mem
        rcases mem with rfl | rfl | rfl | rfl | rfl | rfl
        · exact bodied_node
        · exact word text holds "static"
        · exact bodied_node
        · exact word text holds "readonly"
        · exact word text holds "async"
        · apply bodied_alts
          intro rule mem
          simp only [List.mem_cons, List.not_mem_nil, or_false] at mem
          rcases mem with rfl | rfl | rfl
          · exact word text holds "get"
          · exact word text holds "set"
          · exact bodied_leaf
      · intro rule mem
        simp only [List.mem_cons, List.not_mem_nil, or_false] at mem
        rcases mem with rfl | rfl | rfl | rfl
        · exact bodied_role (by decide) bodied_propertyName
        · exact bodied_opt bodied_leaf
        · exact bodied_signature
        · exact block
    · simp [all, composite]

/-- Every tree in what is read is well shaped. -/
theorem wellShaped {shape : Shape} {at_ next : Cursor} {trees : List Tree}
    (derived : (dialect.grammar tolerant).Derives shape at_ trees next) (inside : at_.In text)
    (all : shape.All (dialect.Forms tolerant) TailKind) : ∀ tree ∈ trees, tree.Everywhere Tree.WellShaped := by
  refine derived.everywhere (Shape.all_rule admits dialect) ?_ ?_ ?_ ?_ inside all
  · intro kind start stop
    exact ⟨fun inner => absurd rfl inner, fun _ body mem => nomatch mem⟩
  · intro tree role shaped
    exact ⟨shaped.isComposite, shaped.roomy⟩
  · intro kind body at_ trees next first others form inside derived eq
    refine ⟨fun _ => form.isComposite, fun same child mem isBody => ?_⟩
    rw [Tree.children, ← eq] at mem
    exact form.bodied same text _ roomy_block at_ trees next inside derived child ((List.dropWhile_sublist _).subset mem) isBody
  · intro kind start stop children form
    exact ⟨fun _ => form.isComposite, fun same => absurd same form.notMethod⟩

/-- Every array in what is read is a list of items in brackets. -/
theorem bracketed {shape : Shape} {at_ next : Cursor} {trees : List Tree}
    (derived : (dialect.grammar tolerant).Derives shape at_ trees next) (inside : at_.In text)
    (all : shape.All (dialect.Forms tolerant) TailKind) : ∀ tree ∈ trees, tree.Everywhere (Tree.IsBracketed text) := by
  refine derived.everywhere (Shape.all_rule admits dialect) ?_ ?_ ?_ ?_ inside all
  · intro kind start stop _ inner
    exact absurd rfl inner
  · intro tree role bracketed
    exact bracketed
  · intro kind body at_ trees next first others form inside derived eq array _
    rw [Tree.children, ← eq]
    exact (form.bracketed array text at_ trees next inside derived).dropWhile
  · intro kind start stop children form array
    exact absurd array form.notArray

end Dialect

/-! ## Files -/

/-- A tree describes a text: it is well placed and well shaped, its arrays are lists of items, and beside its
leaves the text holds separators only. -/
structure Tree.Describes (text : List Char) (tree : Tree) : Prop where
  kind_eq : tree.kind = .program
  start_eq : tree.start = 0
  stop_eq : tree.stop = width text
  placed : tree.Placed
  shaped : tree.Everywhere WellShaped
  bracketed : tree.Everywhere (IsBracketed text)
  filled : ∀ position < width text,
    (∃ leaf ∈ tree.leaves, leaf.Covers position) ∨ InCharacter isSeparator text position

theorem Tree.Describes.stop_le {text : List Char} {tree : Tree} (describes : tree.Describes text) :
    tree.stop ≤ (encodeChars text).length :=
  Nat.le_of_eq (by rw [describes.stop_eq, length_encodeChars])

/-- Every tree in the tree of a file is that tree, or has a byte at least. -/
theorem Tree.Describes.eq_or_start_lt_stop {text : List Char} {root tree : Tree} (describes : root.Describes text)
    (inside : tree ∈ root.preorder) : tree = root ∨ tree.start < tree.stop ∧ tree.stop ≤ (encodeChars text).length := by
  have le := describes.stop_le
  rcases Tree.eq_or_exists_parent inside with rfl | ⟨parent, member, mem⟩
  · exact .inl rfl
  · have bounds := describes.placed.child member mem
    exact .inr ⟨bounds.2.1, by omega⟩

/-- The tree that is read from a text describes it. -/
theorem Dialect.describes_of_parse {dialect : Dialect} {text : List Char} {tree : Tree}
    (parsed : dialect.parse (encodeChars text) = .ok tree) : tree.Describes text := by
  obtain ⟨trees, stop, read, span, inside, shaped, bracketed_⟩ : ∃ trees stop,
      dialect.statements false (encodeChars text) = (trees, stop) ∧ Tree.Span text 0 trees stop.offset ∧
        stop.In text ∧ (∀ tree ∈ trees, tree.Everywhere Tree.WellShaped) ∧
        ∀ tree ∈ trees, tree.Everywhere (Tree.IsBracketed text) := by
    have start : Cursor.In text ⟨0, text⟩ := ⟨[], rfl, rfl⟩
    unfold statements
    rw [decodeLossy_encodeChars]
    dsimp only
    split
    · next found found_eq =>
      obtain ⟨trees, stop⟩ := found
      have derived := Grammar.derives_of_read found_eq
      obtain ⟨span, inside⟩ := derived.span start
      have all : (Rule.seq (Rule.opt (.glued .hashBang .hashBang)) (.items Shape.statement)).All
          (dialect.Forms false) TailKind := by
        simp [Shape.statement, Rule.opt]
      exact ⟨trees, stop, rfl, span, inside, wellShaped derived start all, bracketed derived start all⟩
    · exact ⟨[], ⟨0, text⟩, rfl, .nil text 0, start, fun tree mem => absurd mem List.not_mem_nil,
        fun tree mem => absurd mem List.not_mem_nil⟩
  obtain ⟨trailing, after⟩ := inside.trivia
  have comments : ∀ tree ∈ stop.trivia.1, tree.Everywhere Tree.WellShaped ∧ tree.Everywhere (Tree.IsBracketed text) := by
    intro tree mem
    obtain ⟨start, stop, rfl⟩ := triviaFrom_comments _ 0 _ tree mem
    have notMethod : Kind.comment ≠ .methodDefinition := by decide
    exact ⟨Tree.everywhere_iff.mpr ⟨⟨fun inner => absurd rfl inner, fun same => absurd same notMethod⟩,
      fun child mem => absurd mem List.not_mem_nil⟩,
      Tree.everywhere_iff.mpr ⟨fun _ inner => absurd rfl inner, fun child mem => absurd mem List.not_mem_nil⟩⟩
  unfold parse at parsed
  rw [read] at parsed
  dsimp only at parsed
  split at parsed
  · next atEnd =>
    cases parsed
    obtain ⟨before, split, offset⟩ := after
    rw [List.isEmpty_iff.mp atEnd, List.append_nil] at split
    rw [← split] at offset
    have whole := span.append trailing
    rw [offset] at whole
    rw [length_encodeChars]
    have notMethod : Kind.program ≠ .methodDefinition := by decide
    have notArray : Kind.program ≠ .array := by decide
    refine ⟨rfl, rfl, rfl, Tree.placed_iff.mpr whole.placed,
      Tree.everywhere_iff.mpr ⟨⟨fun _ => rfl, fun same => absurd same notMethod⟩, ?_⟩,
      Tree.everywhere_iff.mpr ⟨fun same => absurd same notArray, ?_⟩, ?_⟩
    · intro child mem
      rcases List.mem_append.mp mem with mem | mem
      · exact shaped child mem
      · exact (comments child mem).1
    · intro child mem
      rcases List.mem_append.mp mem with mem | mem
      · exact bracketed_ child mem
      · exact (comments child mem).2
    · intro position lt
      rcases whole.filled position (Nat.zero_le _) lt with ⟨leaf, mem, covers⟩ | separator
      · obtain ⟨child, member, -⟩ := Tree.mem_leavesAll_iff.mp mem
        left
        rw [Tree.leaves_of_children_ne_nil (List.ne_nil_of_mem member)]
        exact ⟨leaf, mem, covers⟩
      · exact .inr separator
  · split at parsed <;> cases parsed

end Scaffold.Syntax
