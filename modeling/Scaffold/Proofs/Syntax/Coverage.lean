import Scaffold.Proofs.Syntax.Derivation
import Scaffold.Proofs.Syntax.Placement
import Scaffold.Proofs.Text.Utf8

/-! # What the trees of a source file cover

The trees that a rule yields follow each other from the cursor where it begins to the one where it
stops, and what they leave out are characters that separate tokens. So a file consists of the leaves of
its tree and of separators.
-/

namespace Scaffold.Syntax

open Scaffold.Text

/-- A cursor stands at a character of a text, and its offset counts the bytes before it. -/
def Cursor.In (text : List Char) (at_ : Cursor) : Prop :=
  ∃ before, text = before ++ at_.rest ∧ at_.offset = width before

namespace Tree

/-- A tree covers a position of the source. -/
def Covers (tree : Tree) (position : Nat) : Prop := tree.start ≤ position ∧ position < tree.stop

instance (tree : Tree) (position : Nat) : Decidable (tree.Covers position) :=
  inferInstanceAs (Decidable (_ ∧ _))

/-- Trees follow each other from `start` up to `stop` with nothing but separators beside their leaves. -/
structure Span (text : List Char) (start : Nat) (trees : List Tree) (stop : Nat) : Prop where
  placed : PlacedIn start stop trees
  filled : ∀ position, start ≤ position → position < stop →
    (∃ leaf ∈ leavesAll trees, leaf.Covers position) ∨ InCharacter isSeparator text position

variable {text : List Char} {start between stop : Nat} {trees more : List Tree} {tree : Tree}

theorem leavesAll_append (trees more : List Tree) : leavesAll (trees ++ more) = leavesAll trees ++ leavesAll more := by
  induction trees with
  | nil => rfl
  | cons head later eq => simp only [List.cons_append, leavesAll, eq, List.append_assoc]

theorem Span.nil (text : List Char) (start : Nat) : Span text start [] start :=
  ⟨Nat.le_refl _, fun position after before => by omega⟩

theorem Span.append (first : Span text start trees between) (second : Span text between more stop) :
    Span text start (trees ++ more) stop := by
  refine ⟨placedIn_append_iff.mpr ⟨between, first.placed, second.placed⟩, fun position after before => ?_⟩
  rw [leavesAll_append]
  rcases Nat.lt_or_ge position between with lt | ge
  · rcases first.filled position after lt with ⟨leaf, mem, covers⟩ | separator
    · exact .inl ⟨leaf, List.mem_append_left _ mem, covers⟩
    · exact .inr separator
  · rcases second.filled position ge before with ⟨leaf, mem, covers⟩ | separator
    · exact .inl ⟨leaf, List.mem_append_right _ mem, covers⟩
    · exact .inr separator

/-- A tree without children spans its own range. -/
theorem Span.leaf {kind : Kind} {role : Option Role} (lt : start < stop) :
    Span text start [.node kind role start stop []] stop := by
  refine ⟨⟨⟨Nat.le_refl _, lt⟩, Nat.le_of_lt lt, Nat.le_refl _⟩, fun position after before => .inl ?_⟩
  exact ⟨_, List.mem_singleton_self _, after, before⟩

theorem Span.cons {kind : Kind} {role : Option Role} (lt : start < between) (later : Span text between more stop) :
    Span text start (.node kind role start between [] :: more) stop :=
  Span.append (.leaf lt) later

/-- A stretch of separators is spanned by no tree at all. -/
theorem Span.gap (le : start ≤ stop)
    (separators : ∀ position, start ≤ position → position < stop → InCharacter isSeparator text position) :
    Span text start [] stop :=
  ⟨le, fun position after before => .inr (separators position after before)⟩

/-! ## Terminals and comments -/

end Tree

open Scaffold.Syntax.Tree

variable {text : List Char}

namespace Terminal

variable {shape : String} {continuations reserved : List String}

/-- A mark is recognised where it stands in front and goes on as none of its continuations. -/
theorem length_mark (front : shape.toList <+: text)
    (alone : ∀ longer ∈ continuations, ¬ longer.toList <+: text.drop shape.length) :
    (mark shape continuations).length text = shape.length := by
  have none_ : ¬ (continuations.any fun longer => longer.toList.isPrefixOf (text.drop shape.length)) = true := by
    intro any
    obtain ⟨longer, mem, found⟩ := List.any_eq_true.mp any
    exact alone longer mem (List.isPrefixOf_iff_prefix.mp found)
  simp only [length]
  rw [if_pos (List.isPrefixOf_iff_prefix.mpr front), if_neg none_]

theorem of_length_mark (some_ : (mark shape continuations).length text ≠ 0) :
    shape.toList <+: text ∧ (∀ longer ∈ continuations, ¬ longer.toList <+: text.drop shape.length) ∧
      (mark shape continuations).length text = shape.length := by
  simp only [length] at some_
  split at some_
  · next isPrefix =>
    have front := List.isPrefixOf_iff_prefix.mp isPrefix
    split at some_
    · exact absurd rfl some_
    · next none_ =>
      have alone : ∀ longer ∈ continuations, ¬ longer.toList <+: text.drop shape.length := fun longer mem found =>
        none_ (List.any_eq_true.mpr ⟨longer, mem, List.isPrefixOf_iff_prefix.mpr found⟩)
      exact ⟨front, alone, length_mark front alone⟩
  · exact absurd rfl some_

theorem length_word (same : frontName text = shape) : (word shape).length text = shape.length := if_pos same

theorem of_length_word (some_ : (word shape).length text ≠ 0) :
    frontName text = shape ∧ (word shape).length text = shape.length := by
  by_cases same : frontName text = shape
  · exact ⟨same, if_pos same⟩
  · exact absurd (if_neg same) some_

theorem length_name (free : frontName text ∉ reserved) : (name reserved).length text = nameLength text := by
  simp only [length]
  split
  · next none_ => exact none_.symm
  · split
    · next taken => exact absurd taken free
    · rfl

theorem of_length_name (some_ : (name reserved).length text ≠ 0) :
    frontName text ∉ reserved ∧ nameLength text ≠ 0 ∧ (name reserved).length text = nameLength text := by
  simp only [length] at some_
  split at some_
  · exact absurd rfl some_
  · next solid =>
    split at some_
    · exact absurd rfl some_
    · next free => exact ⟨free, solid, length_name free⟩

theorem length_nil (terminal : Terminal) : terminal.length [] = 0 := by
  cases terminal with
  | mark shape continuations =>
    refine Decidable.of_not_not fun some_ => ?_
    obtain ⟨front, -, eq⟩ := of_length_mark some_
    obtain rfl : shape = "" := String.toList_eq_nil_iff.mp (List.prefix_nil.mp front)
    exact some_ eq
  | word shape =>
    refine Decidable.of_not_not fun some_ => ?_
    obtain ⟨rfl, eq⟩ := of_length_word some_
    exact some_ eq
  | _ => rfl

end Terminal

theorem Cursor.In.advance {at_ : Cursor} (inside : at_.In text) (length : Nat) : (at_.advance length).In text := by
  obtain ⟨before, split, offset⟩ := inside
  refine ⟨before ++ at_.rest.take length, ?_, ?_⟩
  · rw [Cursor.advance, List.append_assoc, List.take_append_drop, split]
  · rw [Cursor.advance, width_append, offset]

theorem Cursor.offset_lt_advance {at_ : Cursor} {length : Nat} (some_ : length ≠ 0) (inner : at_.rest ≠ []) :
    at_.offset < (at_.advance length).offset := by
  obtain ⟨c, rest, split⟩ := List.exists_cons_of_ne_nil inner
  obtain ⟨length, rfl⟩ := Nat.exists_eq_succ_of_ne_zero some_
  have := charWidth_pos c
  rw [Cursor.advance, split, List.take_succ_cons, width_cons]
  dsimp only
  omega

/-- A separator at a cursor is one of the text. -/
private theorem separator_at {before : List Char} {c : Char} {rest : List Char} (split : text = before ++ c :: rest)
    (separator : isSeparator c = true) :
    Span text (width before) [] (width (before ++ [c])) := by
  rw [width_append, width_cons, width_nil, Nat.add_zero]
  exact .gap (Nat.le_add_right _ _) fun position after lt => ⟨before, c, rest, split, separator, after, lt⟩

private theorem span_triviaFrom (before : List Char) (skip : Nat) (rest : List Char) (split : text = before ++ rest) :
    Span text (width before + width (rest.take skip)) (triviaFrom (width before) skip rest).1
        (triviaFrom (width before) skip rest).2.offset ∧
      (triviaFrom (width before) skip rest).2.In text := by
  induction rest generalizing before skip with
  | nil =>
    cases skip <;> exact ⟨.nil text (width before), before, split, rfl⟩
  | cons c rest span =>
    have next := split.trans (List.append_cons before c rest)
    have step : width (before ++ [c]) = width before + charWidth c := by
      rw [width_append, width_cons, width_nil, Nat.add_zero]
    cases skip with
    | succ skip =>
      have later := span (before ++ [c]) skip next
      rw [step] at later
      rw [List.take_succ_cons, width_cons, ← Nat.add_assoc]
      exact later
    | zero =>
      rw [List.take_zero, width_nil, Nat.add_zero]
      unfold triviaFrom
      split
      · next separator =>
        have later := span (before ++ [c]) 0 next
        rw [List.take_zero, width_nil, Nat.add_zero] at later
        have gap := separator_at split separator
        rw [step] at later gap
        exact ⟨gap.append later.1, later.2⟩
      · split
        · exact ⟨.nil text _, before, split, rfl⟩
        · next skip _ =>
          have later := span (before ++ [c]) skip next
          rw [step] at later
          have := charWidth_pos c
          rw [List.take_succ_cons, width_cons, ← Nat.add_assoc]
          exact ⟨.cons (by omega) later.1, later.2⟩

theorem Cursor.In.trivia {at_ : Cursor} (inside : at_.In text) :
    Span text at_.offset at_.trivia.1 at_.trivia.2.offset ∧ at_.trivia.2.In text := by
  obtain ⟨before, split, offset⟩ := inside
  have span := span_triviaFrom before 0 at_.rest split
  rw [List.take_zero, width_nil, Nat.add_zero, ← offset] at span
  exact span

theorem span_readGlued {kind : Kind} {terminal : Terminal} {at_ next : Cursor} {trees : List Tree}
    (inside : at_.In text) (found : readGlued kind terminal at_ = some (trees, next)) :
    Span text at_.offset trees next.offset ∧ next.In text := by
  unfold readGlued at found
  split at found
  · cases found
  · next _ some_ =>
    cases found
    have inner : at_.rest ≠ [] := by
      intro empty
      rw [empty, Terminal.length_nil] at some_
      exact some_ rfl
    exact ⟨.leaf (Cursor.offset_lt_advance some_ inner), inside.advance _⟩

theorem span_readLeaf {kind : Kind} {terminal : Terminal} {at_ next : Cursor} {trees : List Tree}
    (inside : at_.In text) (found : readLeaf kind terminal at_ = some (trees, next)) :
    Span text at_.offset trees next.offset ∧ next.In text := by
  obtain ⟨front, here⟩ := inside.trivia
  unfold readLeaf at found
  dsimp only at found
  split at found
  · cases found
  · next glued_found =>
    cases found
    obtain ⟨back, after⟩ := span_readGlued here glued_found
    exact ⟨front.append back, after⟩

private theorem span_readEnding {ending : StatementEnd} (before : List Char) (fresh : Bool) (skip : Nat)
    (rest : List Char) {trees : List Tree} {next : Cursor} (split : text = before ++ rest)
    (found : readEnding ending (width before) fresh skip rest = some (trees, next)) :
    Span text (width before + width (rest.take skip)) trees next.offset ∧ next.In text := by
  induction rest generalizing before fresh skip trees next with
  | nil =>
    cases skip <;>
      (simp only [readEnding] at found
       split at found
       · cases found
         exact ⟨.nil text (width before), before, split, rfl⟩
       · cases found)
  | cons c rest span =>
    have following := split.trans (List.append_cons before c rest)
    have step : width (before ++ [c]) = width before + charWidth c := by
      rw [width_append, width_cons, width_nil, Nat.add_zero]
    cases skip with
    | succ skip =>
      rw [readEnding, ← step] at found
      have later := span (before ++ [c]) _ skip following found
      rw [step] at later
      rw [List.take_succ_cons, width_cons, ← Nat.add_assoc]
      exact later
    | zero =>
      rw [List.take_zero, width_nil, Nat.add_zero]
      rw [readEnding, ← step] at found
      split at found
      · cases found
        exact ⟨.nil text _, before, split, rfl⟩
      · split at found
        · next separator =>
          have later := span (before ++ [c]) _ 0 following found
          rw [List.take_zero, width_nil, Nat.add_zero] at later
          exact ⟨(separator_at split separator).append later.1, later.2⟩
        · split at found
          · cases found
          · next skip _ =>
            dsimp only at found
            split at found
            · cases found
            · next later_found =>
              cases found
              have later := span (before ++ [c]) _ skip following later_found
              have := charWidth_pos c
              rw [step] at later
              rw [List.take_succ_cons, width_cons, ← Nat.add_assoc]
              exact ⟨.cons (by omega) later.1, later.2⟩

private theorem toClosingBrace_nil (depth : Nat) : toClosingBrace depth [] = none := by
  cases depth <;> rfl

theorem span_readError {at_ next : Cursor} {trees : List Tree} (inside : at_.In text)
    (found : readError at_ = some (trees, next)) : Span text at_.offset trees next.offset ∧ next.In text := by
  obtain ⟨front, here⟩ := inside.trivia
  unfold readError at found
  dsimp only at found
  split at found
  · cases found
  · cases found
  · next length some_ brace =>
    cases found
    have inner : at_.trivia.2.rest ≠ [] := by
      intro empty
      rw [empty, toClosingBrace_nil] at brace
      cases brace
    refine ⟨front.append (.leaf (Cursor.offset_lt_advance ?_ inner)), here.advance length⟩
    rintro rfl
    exact some_ rfl

/-! ## Constructs -/

namespace Tree

variable {start between stop : Nat} {trees more : List Tree} {tree : Tree}

theorem PlacedIn.loosen {newStart newStop : Nat} (placed : PlacedIn start stop trees) (front : newStart ≤ start)
    (back : stop ≤ newStop) : PlacedIn newStart newStop trees := by
  induction trees generalizing start newStart with
  | nil => exact Nat.le_trans front (Nat.le_trans placed back)
  | cons head later loosen =>
    obtain ⟨bounds, own, rest⟩ := placed
    exact ⟨⟨Nat.le_trans front bounds.1, bounds.2⟩, own, loosen rest (Nat.le_refl _)⟩

/-- A list that is not empty fits between the start of its first tree and the end of its last. -/
theorem PlacedIn.tighten (placed : PlacedIn start stop (tree :: trees)) :
    PlacedIn tree.start ((tree :: trees).getLast (List.cons_ne_nil _ _)).stop (tree :: trees) := by
  induction trees generalizing start tree with
  | nil =>
    obtain ⟨bounds, own, -⟩ := placed
    exact ⟨⟨Nat.le_refl _, bounds.2⟩, own, Nat.le_refl _⟩
  | cons next later tighten =>
    obtain ⟨bounds, own, rest⟩ := placed
    rw [List.getLast_cons (List.cons_ne_nil _ _)]
    exact ⟨⟨Nat.le_refl _, bounds.2⟩, own, (tighten rest).loosen rest.1.1 (Nat.le_refl _)⟩

/-- Trees that move under a new tree span what they did. -/
theorem Span.gather (span : Span text start trees stop) (kind : Kind) :
    Span text start (gather kind trees) stop := by
  rcases comments_or_split trees with comments | ⟨comments, first, later, rfl, comment, plain⟩
  · rwa [gather_of_comments comments]
  · rw [gather_eq comment plain]
    obtain ⟨between, front, back⟩ := placedIn_append_iff.mp span.placed
    have tight := back.tighten
    have last := back.bounds (List.getLast_mem (List.cons_ne_nil first later))
    have head := back.1
    have inner := tight.bounds List.mem_cons_self
    refine ⟨placedIn_append_iff.mpr ⟨between, front, ⟨head.1, ?_⟩, tight, ?_⟩, fun position after before => ?_⟩
    · change first.start < ((first :: later).getLast (List.cons_ne_nil _ _)).stop
      omega
    · exact last.2.2
    · have same : leavesAll (comments ++ [.node kind none first.start
          ((first :: later).getLast (List.cons_ne_nil _ _)).stop (first :: later)]) = leavesAll (comments ++ first :: later) := by
        rw [leavesAll_append, leavesAll, leavesAll, List.append_nil, leaves, leavesAll_append]
      rw [same]
      exact span.filled position after before

theorem placed_iff : tree.Placed ↔ PlacedIn tree.start tree.stop tree.children := by
  cases tree with
  | node kind role start stop children =>
    unfold Placed
    rfl

theorem Placed.recast (placed : tree.Placed) (role : Option Role) : (tree.recast role).Placed :=
  placed_iff.mpr placed.children

/-- The leaves of a tree stay where they are when it takes another role. -/
theorem exists_leaf_recast {position : Nat} (role : Option Role)
    (covered : ∃ leaf ∈ tree.leaves, leaf.Covers position) : ∃ leaf ∈ (tree.recast role).leaves, leaf.Covers position := by
  obtain ⟨leaf, mem, covers⟩ := covered
  by_cases childless : tree.children = []
  · rw [leaves_of_children_eq_nil childless, List.mem_singleton] at mem
    subst mem
    have alone : (leaf.recast role).leaves = [leaf.recast role] := leaves_of_children_eq_nil childless
    exact ⟨leaf.recast role, alone ▸ List.mem_singleton_self _, covers⟩
  · have same : (tree.recast role).leaves = leavesAll tree.children := leaves_of_children_ne_nil childless
    rw [leaves_of_children_ne_nil childless] at mem
    exact ⟨leaf, same ▸ mem, covers⟩

theorem PlacedIn.withRole (placed : PlacedIn start stop trees) (role : Role) :
    PlacedIn start stop (trees.map (Tree.withRole role)) := by
  induction trees generalizing start with
  | nil => exact placed
  | cons head later withRole =>
    obtain ⟨bounds, own, rest⟩ := placed
    obtain ⟨other, eq, -⟩ := head.withRole_eq_recast role
    rw [List.map_cons, eq]
    exact ⟨bounds, own.recast other, withRole rest⟩

theorem Span.withRole (span : Span text start trees stop) (role : Role) :
    Span text start (trees.map (Tree.withRole role)) stop := by
  refine ⟨span.placed.withRole role, fun position after before => ?_⟩
  rcases span.filled position after before with ⟨leaf, mem, covers⟩ | separator
  · obtain ⟨tree, member, mem⟩ := mem_leavesAll_iff.mp mem
    obtain ⟨own, eq, -⟩ := tree.withRole_eq_recast role
    obtain ⟨leaf, mem, covers⟩ := exists_leaf_recast own ⟨leaf, mem, covers⟩
    exact .inl ⟨leaf, mem_leavesAll_iff.mpr ⟨_, List.mem_map_of_mem member, eq ▸ mem⟩, covers⟩
  · exact .inr separator

/-- The end of a list that is read, or else of the tree before it. -/
private theorem stop_bounds (placed : PlacedIn between stop trees) (before : tree.stop ≤ between) :
    tree.stop ≤ (trees.getLast?.map Tree.stop).getD tree.stop ∧
      (trees.getLast?.map Tree.stop).getD tree.stop ≤ stop ∧
      PlacedIn tree.stop ((trees.getLast?.map Tree.stop).getD tree.stop) trees := by
  cases trees with
  | nil =>
    have := placed.le
    exact ⟨Nat.le_refl _, by change tree.stop ≤ stop; omega, Nat.le_refl _⟩
  | cons head later =>
    have last := placed.bounds (List.getLast_mem (List.cons_ne_nil head later))
    rw [List.getLast?_eq_some_getLast (List.cons_ne_nil head later)]
    exact ⟨by change tree.stop ≤ Tree.stop _; omega, last.2.2,
      placed.tighten.loosen (Nat.le_trans before placed.1.1) (Nat.le_refl _)⟩

/-- A tree that is extended by the trees behind it spans their stretch too. -/
theorem Span.extended {before : List Tree} (span : Span text start (before ++ [tree]) between)
    (behind : Span text between trees stop) (kind : Kind) (role : Option Role) :
    Span text start (before ++ [tree.extended kind role trees]) stop := by
  obtain ⟨middle, front, bounds, own, le⟩ := placedIn_append_iff.mp span.placed
  obtain ⟨after, inside, inner⟩ := stop_bounds behind.placed le
  obtain ⟨other, eq⟩ := Tree.extended_eq kind role tree trees
  rw [eq]
  refine ⟨placedIn_append_iff.mpr ⟨middle, front, ?_, ?_, inside⟩, fun position lower upper => ?_⟩
  · exact ⟨bounds.1, Nat.lt_of_lt_of_le bounds.2 after⟩
  · exact ⟨⟨Nat.le_refl _, bounds.2⟩, own.recast other, inner⟩
  · rcases (span.append behind).filled position lower upper with ⟨leaf, mem, covers⟩ | separator
    · left
      simp only [leavesAll_append, leavesAll, leaves, List.append_nil, List.mem_append] at mem ⊢
      rcases mem with (mem | mem) | mem
      · exact ⟨leaf, .inl mem, covers⟩
      · obtain ⟨leaf, mem, covers⟩ := exists_leaf_recast other ⟨leaf, mem, covers⟩
        exact ⟨leaf, .inr (.inl mem), covers⟩
      · exact ⟨leaf, .inr (.inr mem), covers⟩
    · exact .inr separator

end Tree

/-! ## Derivations -/

/-- The trees of a derivation follow each other from the cursor where it begins to the one where it stops. -/
theorem Grammar.Derives.span {σ : Type} {grammar : Grammar σ} {rule : Rule σ} {at_ next : Cursor} {trees : List Tree}
    (derived : grammar.Derives rule at_ trees next) (inside : at_.In text) :
    Span text at_.offset trees next.offset ∧ next.In text := by
  induction derived with
  | empty | manyNone | itemsNone | without => exact ⟨.nil text _, inside⟩
  | leaf found => exact span_readLeaf inside found
  | glued found => exact span_readGlued inside found
  | @ending _ at_ _ _ found =>
    obtain ⟨before, split, offset⟩ := inside
    rw [offset] at found
    have span := span_readEnding before true 0 at_.rest split found
    rwa [List.take_zero, width_nil, Nat.add_zero, ← offset] at span
  | call _ span | first _ span | second _ span | only _ _ _ span | base _ span => exact span inside
  | seq _ _ front back | manyMore _ _ front back | itemsMore _ _ front back =>
    obtain ⟨frontSpan, between⟩ := front inside
    obtain ⟨backSpan, after⟩ := back between
    exact ⟨frontSpan.append backSpan, after⟩
  | itemsError _ found => exact span_readError inside found
  | node _ inner =>
    obtain ⟨span, after⟩ := inner inside
    exact ⟨span.gather _, after⟩
  | role _ inner =>
    obtain ⟨span, after⟩ := inner inside
    exact ⟨span.withRole _, after⟩
  | grown _ _ _ _ smaller behind =>
    obtain ⟨span, between⟩ := smaller inside
    obtain ⟨more, after⟩ := behind between
    exact ⟨span.extended more _ _, after⟩

end Scaffold.Syntax
