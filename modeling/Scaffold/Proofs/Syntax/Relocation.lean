import Scaffold.Proofs.Syntax.Constructs
import Scaffold.Proofs.Syntax.Locality

/-! # The same text in another place

A construct that is made of words, names, strings and marks is read in the same way wherever its text stands, whatever
stands in front of it and behind it, if a token halts there. Its tree is moved, and nothing else changes in it.
-/

namespace Scaffold.Syntax

open Scaffold.Text

variable {text token taken behind other more front : List Char} {c : Char} {length skip : Nat}

namespace Tree

mutual

/-- A tree whose text has moved from one place to another. -/
def moved (source target : Nat) : Tree → Tree
  | .node kind role start stop children =>
    .node kind role (start + target - source) (stop + target - source) (movedAll source target children)

def movedAll (source target : Nat) : List Tree → List Tree
  | [] => []
  | tree :: later => moved source target tree :: movedAll source target later

end

variable {source target : Nat}

theorem movedAll_eq (trees : List Tree) : movedAll source target trees = trees.map (moved source target) := by
  induction trees with
  | nil => rfl
  | cons tree later eq => rw [movedAll, eq, List.map_cons]

@[simp]
theorem kind_moved (tree : Tree) : (tree.moved source target).kind = tree.kind := by
  cases tree
  rfl

@[simp]
theorem role_moved (tree : Tree) : (tree.moved source target).role = tree.role := by
  cases tree
  rfl

@[simp]
theorem start_moved (tree : Tree) : (tree.moved source target).start = tree.start + target - source := by
  cases tree
  rfl

@[simp]
theorem stop_moved (tree : Tree) : (tree.moved source target).stop = tree.stop + target - source := by
  cases tree
  rfl

@[simp]
theorem children_moved (tree : Tree) : (tree.moved source target).children = tree.children.map (moved source target) := by
  obtain ⟨kind, role, start, stop, children⟩ := tree
  exact movedAll_eq children

@[simp]
theorem isComment_moved (tree : Tree) : (tree.moved source target).isComment = tree.isComment := by
  rw [isComment, kind_moved, isComment]

theorem moved_withRole (tree : Tree) (role : Role) :
    (tree.withRole role).moved source target = (tree.moved source target).withRole role := by
  obtain ⟨kind, own, start, stop, children⟩ := tree
  cases own with
  | some own => rfl
  | none =>
    by_cases comment : kind = .comment
    · rw [withRole, if_pos comment, moved, withRole, if_pos comment]
    · rw [withRole, if_neg comment, moved, moved, withRole, if_neg comment]

end Tree

/-! ## Comments in front of a token -/

theorem triviaFrom_of_inky (inky : Inky text) (offset : Nat) : triviaFrom offset 0 text = ([], ⟨offset, text⟩) := by
  cases text with
  | nil => rfl
  | cons c rest =>
    obtain ⟨ink, slash⟩ := inky c rfl
    have none_ : commentLength (c :: rest) = 0 := by
      unfold commentLength
      split <;> simp_all
    rw [triviaFrom, ink, none_]
    rfl

theorem length_triviaFrom_le (offset skip : Nat) (text : List Char) :
    (triviaFrom offset skip text).2.rest.length ≤ text.length - skip := by
  induction text generalizing offset skip with
  | nil => cases skip <;> exact Nat.zero_le _
  | cons c rest le =>
    cases skip with
    | succ skip => exact Nat.le_trans (le _ skip) (by simp)
    | zero =>
      unfold triviaFrom
      split
      · exact Nat.le_trans (le _ 0) (by simp)
      · split
        · exact Nat.le_refl _
        · exact Nat.le_trans (le _ _) (by simp; omega)

/-- No comment stands where a token begins. -/
theorem triviaFrom_eq_nil {offset : Nat} (stops : (triviaFrom offset 0 behind).2.rest = behind) :
    (triviaFrom offset 0 behind).1 = [] := by
  cases behind with
  | nil => rfl
  | cons c rest =>
    have shorter (offset skip : Nat) : (triviaFrom offset skip rest).2.rest ≠ c :: rest := fun same => by
      have le := length_triviaFrom_le offset skip rest
      rw [same, List.length_cons] at le
      omega
    simp only [triviaFrom] at stops ⊢
    split at stops
    · exact absurd stops (shorter _ _)
    · next plain =>
      rw [if_neg plain]
      split at stops
      · rfl
      · exact absurd stops (shorter _ _)

/-- The comments in front of a token are the same wherever it stands, and in front of another token, too. -/
theorem triviaFrom_append {gap : List Char} {offset place source target : Nat}
    (stops : (triviaFrom offset skip (gap ++ behind)).2.rest = behind) (fits : skip ≤ gap.length)
    (inked : ∀ c ∈ behind.head?, isSeparator c = false) (solid : behind ≠ []) (inky : Inky other)
    (at_ : offset + target = place + source) :
    triviaFrom place skip (gap ++ other) =
      ((triviaFrom offset skip (gap ++ behind)).1.map (Tree.moved source target), ⟨place + width gap, other⟩) := by
  induction gap generalizing offset place skip with
  | nil =>
    obtain rfl : skip = 0 := Nat.le_zero.mp fits
    rw [List.nil_append] at stops
    rw [List.nil_append, List.nil_append, triviaFrom_of_inky inky, triviaFrom_eq_nil stops]
    rfl
  | cons c gap later =>
    have next : offset + charWidth c + target = place + charWidth c + source := by omega
    cases skip with
    | succ skip =>
      simp only [List.cons_append, triviaFrom] at stops ⊢
      rw [later stops (Nat.le_of_succ_le_succ fits) next, width_cons, Nat.add_assoc]
    | zero =>
      simp only [List.cons_append, triviaFrom] at stops ⊢
      split at stops
      · next separator =>
        rw [if_pos separator, if_pos separator, later stops (Nat.zero_le _) next, width_cons, Nat.add_assoc]
      · next plain =>
        rw [if_neg plain, if_neg plain]
        split at stops
        · have lengths := congrArg List.length stops
          simp at lengths
          omega
        · next skip comment =>
          have inner : (triviaFrom (offset + charWidth c) skip (gap ++ behind)).2.rest = behind := stops
          have least := length_triviaFrom_le (offset + charWidth c) skip (gap ++ behind)
          have some_ := List.length_pos_iff.mpr solid
          rw [inner, List.length_append] at least
          have within : skip ≤ gap.length := by omega
          have kept : commentLength (c :: (gap ++ other)) = skip + 1 := by
            refine Eq.trans ?_ comment
            refine @commentLength_append (c :: gap) _ _ ?_ ?_ inked fun none_ => absurd none_ solid
            · rw [List.cons_append, comment]
              exact Nat.succ_le_succ within
            · rw [List.cons_append, comment]
              exact Nat.succ_ne_zero skip
          have stretch (more : List Char) : (c :: (gap ++ more)).take (skip + 1) = c :: gap.take skip := by
            rw [List.take_succ_cons, List.take_append_of_le_length within]
          rw [kept]
          simp only [later inner within next, stretch, width_cons, List.map_cons, Tree.moved, Tree.movedAll, Nat.add_assoc]
          refine congrArg (·, _) (congrArg (· :: _) ?_)
          congr 1 <;> omega

theorem exists_gap (offset skip : Nat) (text : List Char) :
    ∃ gap, text = gap ++ (triviaFrom offset skip text).2.rest ∧
      (triviaFrom offset skip text).2.offset = offset + width gap := by
  induction text generalizing offset skip with
  | nil => cases skip <;> exact ⟨[], rfl, rfl⟩
  | cons c rest later =>
    have longer {skip : Nat} : ∃ gap, c :: rest = gap ++ (triviaFrom (offset + charWidth c) skip rest).2.rest ∧
        (triviaFrom (offset + charWidth c) skip rest).2.offset = offset + width gap := by
      obtain ⟨gap, split, moves⟩ := later (offset + charWidth c) skip
      exact ⟨c :: gap, by rw [List.cons_append, ← split], by rw [moves, width_cons, Nat.add_assoc]⟩
    cases skip with
    | succ skip => exact longer
    | zero =>
      unfold triviaFrom
      split
      · exact longer
      · split
        · exact ⟨[], rfl, rfl⟩
        · exact longer


theorem Tree.moved_add (source target more : Nat) : Tree.moved (source + more) (target + more) = Tree.moved source target := by
  funext tree
  induction tree using Tree.induction_on_children with
  | step tree same =>
    obtain ⟨kind, role, start, stop, children⟩ := tree
    have inner := List.map_congr_left same
    simp only [Tree.children] at inner
    rw [Tree.moved, Tree.moved, Tree.movedAll_eq, Tree.movedAll_eq, inner]
    congr 1 <;> omega

/-! ## Constructs -/

section Constructs

variable {σ : Type} {grammar : Grammar σ} {rule : Rule σ} {at_ next : Cursor} {trees comments later : List Tree} {first : Tree}

/-- The rules that read words, names, strings and marks in a fixed number. -/
def Rule.isFlat : Rule σ → Bool
  | .empty | .without _ => true
  | .leaf kind terminal => kind ≠ .comment && terminal.isLocal
  | .seq first second | .alt first second => isFlat first && isFlat second
  | .role _ body => isFlat body
  | .node kind body => kind ≠ .comment && isFlat body
  | _ => false

/-- A rule that takes nothing here, and may do so anywhere. -/
structure Grammar.ReadsNothing (grammar : Grammar σ) (rule : Rule σ) (at_ : Cursor) (trees : List Tree) (next : Cursor) :
    Prop where
  trees_eq : trees = []
  next_eq : next = at_
  anywhere : ∀ cursor, grammar.Derives rule cursor [] cursor

/-- What a rule takes of a text behind a gap, and what it makes of it there and in other places. -/
structure Grammar.ReadsText (grammar : Grammar σ) (rule : Rule σ) (at_ : Cursor) (gap taken : List Char) (first : Tree)
    (later : List Tree) (next : Cursor) : Prop where
  split : at_.rest = gap ++ (taken ++ next.rest)
  trivia : at_.trivia.2 = ⟨at_.offset + width gap, taken ++ next.rest⟩
  offset : next.offset = at_.offset + width gap + width taken
  solid : taken ≠ []
  inky : Inky taken
  notComment : first.isComment = false
  start_eq : first.start = at_.offset + width gap
  stop_eq : ((first :: later).getLast (List.cons_ne_nil _ _)).stop = next.offset
  elsewhere : ∀ cursor other target, Alike next.rest other → cursor.trivia.2 = ⟨target, taken ++ other⟩ →
    grammar.Derives rule cursor
      (cursor.trivia.1 ++ (first :: later).map (Tree.moved (at_.offset + width gap) target)) ⟨target + width taken, other⟩

theorem isComment_trivia (at_ : Cursor) : ∀ tree ∈ at_.trivia.1, tree.isComment = true := by
  intro tree mem
  obtain ⟨start, stop, rfl⟩ := triviaFrom_comments _ 0 _ tree mem
  rfl

theorem map_withRole_trivia (at_ : Cursor) (role : Role) : at_.trivia.1.map (Tree.withRole role) = at_.trivia.1 := by
  refine (List.map_congr_left fun tree mem => ?_).trans (List.map_id _)
  obtain ⟨start, stop, rfl⟩ := triviaFrom_comments _ 0 _ tree mem
  rfl

theorem readGlued_of_length {kind : Kind} {terminal : Terminal} {target : Nat} (solid : taken ≠ [])
    (length : terminal.length (taken ++ behind) = taken.length) :
    readGlued kind terminal ⟨target, taken ++ behind⟩ =
      some ([.node kind none target (target + width taken) []], ⟨target + width taken, behind⟩) := by
  have moves : Cursor.advance ⟨target, taken ++ behind⟩ taken.length = ⟨target + width taken, behind⟩ := by
    rw [Cursor.advance, List.take_left, List.drop_left]
  unfold readGlued
  rw [length]
  split
  · next none_ => exact absurd (List.length_eq_zero_iff.mp none_) solid
  · rw [moves]

/-- A leaf that is read at a token of its terminal. -/
theorem readLeaf_of_length {kind : Kind} {terminal : Terminal} {target : Nat} (solid : taken ≠ [])
    (trivia : at_.trivia.2 = ⟨target, taken ++ behind⟩) (length : terminal.length (taken ++ behind) = taken.length) :
    readLeaf kind terminal at_ =
      some (at_.trivia.1 ++ [.node kind none target (target + width taken) []], ⟨target + width taken, behind⟩) := by
  unfold readLeaf
  simp only [trivia, readGlued_of_length solid length]

theorem exists_token_of_leaf {kind : Kind} {terminal : Terminal} (isLocal : terminal.isLocal = true)
    (found : readLeaf kind terminal at_ = some (trees, next)) :
    ∃ gap taken behind, at_.rest = gap ++ (taken ++ behind) ∧
      at_.trivia.2 = ⟨at_.offset + width gap, taken ++ behind⟩ ∧ terminal.IsToken taken behind ∧
        trees = at_.trivia.1 ++ [.node kind none (at_.offset + width gap) (at_.offset + width gap + width taken) []] ∧
          next = ⟨at_.offset + width gap + width taken, behind⟩ := by
  obtain ⟨gap, split, moves⟩ := exists_gap at_.offset 0 at_.rest
  have some_ : terminal.length at_.trivia.2.rest ≠ 0 := by
    intro none_
    have nothing : readGlued kind terminal at_.trivia.2 = none := by
      rw [readGlued, none_]
      rfl
    simp only [readLeaf, nothing] at found
    cases found
  obtain ⟨taken, behind, inner, -, token⟩ := Terminal.exists_token isLocal some_
  have here : at_.trivia.2 = ⟨at_.offset + width gap, taken ++ behind⟩ := by
    rw [← inner, ← moves]
    rfl
  rw [readLeaf_of_length token.solid here (token.length_eq behind id)] at found
  cases found
  exact ⟨gap, taken, behind, split.trans (congrArg (gap ++ ·) inner), here, token, rfl, rfl⟩

theorem readsText_of_leaf {kind : Kind} {terminal : Terminal} (flat : (Rule.leaf kind terminal : Rule σ).isFlat = true)
    (found : readLeaf kind terminal at_ = some (trees, next)) :
    ∃ gap taken first, trees = at_.trivia.1 ++ [first] ∧ grammar.ReadsText (.leaf kind terminal) at_ gap taken first [] next := by
  obtain ⟨notComment, isLocal⟩ := (Bool.and_eq_true _ _).mp flat
  obtain ⟨gap, taken, behind, split, here, token, rfl, rfl⟩ := exists_token_of_leaf isLocal found
  refine ⟨gap, taken, _, rfl, split, here, rfl, token.solid, token.inky, decide_eq_false (of_decide_eq_true notComment),
    rfl, rfl, fun cursor other target alike trivia => .leaf ?_⟩
  rw [readLeaf_of_length token.solid trivia (token.length_eq other alike.quiet)]
  simp only [List.map_cons, List.map_nil, Tree.moved, Tree.movedAll]
  congr 5 <;> omega

namespace Grammar.ReadsText

variable {gap taken gap' taken' : List Char} {first head' : Tree} {later later' : List Tree} {rule second : Rule σ}
variable {at_ between next : Cursor}

theorem role (reads : grammar.ReadsText rule at_ gap taken first later next) (role : Role) :
    grammar.ReadsText (.role role rule) at_ gap taken (first.withRole role) (later.map (Tree.withRole role)) next := by
  refine { reads with
    notComment := (first.isComment_withRole role).trans reads.notComment
    start_eq := (first.start_withRole role).trans reads.start_eq
    stop_eq := ?_
    elsewhere := fun cursor other target alike trivia => ?_ }
  · have last : (first.withRole role :: later.map (Tree.withRole role)).getLast (List.cons_ne_nil _ _) =
        ((first :: later).getLast (List.cons_ne_nil _ _)).withRole role := by
      simp only [← List.map_cons, List.getLast_map]
    rw [last, Tree.stop_withRole, reads.stop_eq]
  · have inner := @Grammar.Derives.role _ _ role _ _ _ _ (reads.elsewhere cursor other target alike trivia)
    rw [List.map_append, map_withRole_trivia, List.map_map] at inner
    rw [← List.map_cons, List.map_map]
    have swaps : Tree.moved (at_.offset + width gap) target ∘ Tree.withRole role =
        Tree.withRole role ∘ Tree.moved (at_.offset + width gap) target :=
      funext fun tree => Tree.moved_withRole tree role
    rwa [swaps]

theorem node (reads : grammar.ReadsText rule at_ gap taken first later next) {kind : Kind} (notComment : kind ≠ .comment) :
    grammar.ReadsText (.node kind rule) at_ gap taken
      (.node kind none first.start ((first :: later).getLast (List.cons_ne_nil _ _)).stop (first :: later)) [] next := by
  refine { reads with
    notComment := decide_eq_false notComment
    start_eq := reads.start_eq
    stop_eq := reads.stop_eq
    elsewhere := fun cursor other target alike trivia => ?_ }
  have inner := @Grammar.Derives.node _ _ kind _ _ _ _ (reads.elsewhere cursor other target alike trivia)
  have plain : (first.moved (at_.offset + width gap) target).isComment = false := by
    rw [Tree.isComment_moved, reads.notComment]
  rw [List.map_cons, gather_eq (isComment_trivia cursor) plain] at inner
  rw [List.map_cons, List.map_nil, Tree.moved, Tree.movedAll_eq]
  simp only [← List.map_cons, List.getLast_map, Tree.start_moved, Tree.stop_moved] at inner ⊢
  exact inner

theorem seq (front : grammar.ReadsText rule at_ gap taken first later between)
    (back : grammar.ReadsText second between gap' taken' head' later' next) :
    grammar.ReadsText (.seq rule second) at_ gap (taken ++ (gap' ++ taken')) first
      (later ++ (between.trivia.1 ++ head' :: later')) next where
  split := by rw [front.split, back.split]; simp only [List.append_assoc]
  trivia := by rw [front.trivia, back.split]; simp only [List.append_assoc]
  offset := by
    rw [back.offset, front.offset]
    simp only [width_append]
    omega
  solid := by simp [front.solid]
  inky := by
    obtain ⟨c, rest, rfl⟩ := List.exists_cons_of_ne_nil front.solid
    exact front.inky
  notComment := front.notComment
  start_eq := front.start_eq
  stop_eq := by
    have shape : first :: (later ++ (between.trivia.1 ++ head' :: later')) =
        first :: later ++ between.trivia.1 ++ head' :: later' := by simp
    simp only [shape, List.getLast_append_of_ne_nil _ (List.cons_ne_nil head' later')]
    exact back.stop_eq
  elsewhere cursor other target alike trivia := by
    have ahead : Alike between.rest (gap' ++ taken' ++ other) := by
      rw [back.split, ← List.append_assoc]
      exact alike.append _
    have frontThere := front.elsewhere cursor _ target ahead (by rw [trivia]; simp only [List.append_assoc])
    have comments : triviaFrom (target + width taken) 0 (gap' ++ (taken' ++ other)) =
        (between.trivia.1.map (Tree.moved (at_.offset + width gap) target),
          ⟨target + width taken + width gap', taken' ++ other⟩) := by
      obtain ⟨c, rest, token⟩ := List.exists_cons_of_ne_nil back.solid
      have here := congrArg Cursor.rest back.trivia
      rw [Cursor.trivia, back.split] at here ⊢
      have inky (behind : List Char) : Inky (taken' ++ behind) := by
        have own := back.inky
        rw [token] at own ⊢
        exact own
      refine triviaFrom_append here (Nat.zero_le _) (fun d mem => (inky _ d mem).1) ?_ (inky _) ?_
      · simp [token]
      · rw [front.offset]
        omega
    have backThere := back.elsewhere ⟨target + width taken, gap' ++ taken' ++ other⟩ other _ alike
      (by rw [Cursor.trivia, List.append_assoc, comments])
    have base : Tree.moved (between.offset + width gap') (target + width taken + width gap') =
        Tree.moved (at_.offset + width gap) target := by
      rw [front.offset, Nat.add_assoc _ (width taken), Nat.add_assoc target, Tree.moved_add]
    rw [base, Cursor.trivia, List.append_assoc, comments] at backThere
    have both := Grammar.Derives.seq frontThere (List.append_assoc gap' taken' other ▸ backThere)
    simp only [width_append, List.map_cons, List.map_append, List.cons_append, List.append_assoc, ← Nat.add_assoc] at both ⊢
    exact both

end Grammar.ReadsText

/-- What a flat rule takes is read in the same way wherever it stands. -/
theorem Grammar.Derives.readsText (derived : grammar.Derives rule at_ trees next) (flat : rule.isFlat = true) :
    grammar.ReadsNothing rule at_ trees next ∨ ∃ gap taken first later, trees = at_.trivia.1 ++ first :: later ∧
      grammar.ReadsText rule at_ gap taken first later next := by
  induction derived with
  | empty => exact .inl ⟨rfl, rfl, fun _ => .empty⟩
  | without => exact .inl ⟨rfl, rfl, fun _ => .without⟩
  | leaf found =>
    obtain ⟨gap, taken, first, eq, reads⟩ := readsText_of_leaf flat found
    exact .inr ⟨gap, taken, first, [], eq, reads⟩
  | first _ inner =>
    rcases inner ((Bool.and_eq_true _ _).mp flat).1 with nothing | ⟨gap, taken, head, later, eq, reads⟩
    · exact .inl ⟨nothing.trees_eq, nothing.next_eq, fun cursor => .first (nothing.anywhere cursor)⟩
    · exact .inr ⟨gap, taken, head, later, eq, { reads with
        elsewhere := fun cursor other target alike trivia => .first (reads.elsewhere cursor other target alike trivia) }⟩
  | second _ inner =>
    rcases inner ((Bool.and_eq_true _ _).mp flat).2 with nothing | ⟨gap, taken, head, later, eq, reads⟩
    · exact .inl ⟨nothing.trees_eq, nothing.next_eq, fun cursor => .second (nothing.anywhere cursor)⟩
    · exact .inr ⟨gap, taken, head, later, eq, { reads with
        elsewhere := fun cursor other target alike trivia => .second (reads.elsewhere cursor other target alike trivia) }⟩
  | role _ inner =>
    rcases inner flat with nothing | ⟨gap, taken, head, later, eq, reads⟩
    · exact .inl ⟨by rw [nothing.trees_eq, List.map_nil], nothing.next_eq, fun cursor => .role (nothing.anywhere cursor)⟩
    · exact .inr ⟨gap, taken, _, _, by rw [eq, List.map_append, map_withRole_trivia, List.map_cons], reads.role _⟩
  | node _ inner =>
    obtain ⟨notComment, body⟩ := (Bool.and_eq_true _ _).mp flat
    rcases inner body with nothing | ⟨gap, taken, head, later, eq, reads⟩
    · refine .inl ⟨by rw [nothing.trees_eq]; rfl, nothing.next_eq, fun cursor => ?_⟩
      exact .node (nothing.anywhere cursor)
    · refine .inr ⟨gap, taken, _, [], by rw [eq, gather_eq (isComment_trivia _) reads.notComment], reads.node ?_⟩
      exact of_decide_eq_true notComment
  | seq _ _ front back =>
    obtain ⟨flatFront, flatBack⟩ := (Bool.and_eq_true _ _).mp flat
    rcases front flatFront with nothing | ⟨gap, taken, head, later, eq, reads⟩
    · obtain ⟨rfl, rfl, anywhere⟩ := nothing
      rcases back flatBack with nothing | ⟨gap, taken, head, later, eq, reads⟩
      · exact .inl ⟨nothing.trees_eq, nothing.next_eq, fun cursor => .seq (anywhere cursor) (nothing.anywhere cursor)⟩
      · refine .inr ⟨gap, taken, head, later, eq, { reads with elsewhere := ?_ }⟩
        intro cursor other target alike trivia
        exact @Grammar.Derives.seq _ _ _ _ _ _ _ [] _ (anywhere cursor) (reads.elsewhere cursor other target alike trivia)
    · rcases back flatBack with nothing | ⟨gap', taken', head', later', eq', reads'⟩
      · obtain ⟨rfl, rfl, anywhere⟩ := nothing
        refine .inr ⟨gap, taken, head, later, by rw [eq, List.append_nil], { reads with elsewhere := ?_ }⟩
        intro cursor other target alike trivia
        have both := Grammar.Derives.seq (reads.elsewhere cursor other target alike trivia) (anywhere _)
        rwa [List.append_nil] at both
      · refine .inr ⟨gap, _, head, _, by rw [eq, eq', List.append_assoc]; rfl, reads.seq reads'⟩
  | _ => cases flat

/-- The rules that begin and end with tokens, where they read anything. -/
def Rule.isDelimited : Rule σ → Bool
  | .empty | .without _ => true
  | .leaf kind _ => kind ≠ .comment
  | .seq first second | .alt first second => isDelimited first && isDelimited second
  | .many body | .role _ body => isDelimited body
  | .node kind body => kind ≠ .comment && isDelimited body
  | _ => false

/-- Trees behind comments, from a place between two characters of a text up to an offset. -/
inductive Delimited (text : List Char) (stop : Nat) : List Tree → Prop
  | mk (comments : List Tree) (first : Tree) (later : List Tree) (comment : ∀ tree ∈ comments, tree.isComment = true)
      (plain : first.isComment = false) (starts : ∃ before rest, text = before ++ rest ∧ first.start = width before)
      (stops : ((first :: later).getLast (List.cons_ne_nil _ _)).stop = stop) : Delimited text stop (comments ++ first :: later)

theorem Delimited.append {stop : Nat} {more : List Tree} (front : Delimited text stop trees) {other : Nat}
    (back : Delimited text other more) : Delimited text other (trees ++ more) := by
  obtain ⟨comments, first, later, comment, plain, starts, -⟩ := front
  obtain ⟨gap, next, rest, -, -, -, stops⟩ := back
  rw [List.append_assoc, List.cons_append]
  refine .mk comments first _ comment plain starts ?_
  have shape : first :: (later ++ (gap ++ next :: rest)) = first :: later ++ gap ++ next :: rest := by simp
  simp only [shape, List.getLast_append_of_ne_nil _ (List.cons_ne_nil next rest), stops]

theorem delimited_of_leaf {kind : Kind} {terminal : Terminal} (notComment : kind ≠ .comment) (inside : at_.In text)
    (found : readLeaf kind terminal at_ = some (trees, next)) : Delimited text next.offset trees := by
  obtain ⟨before, split, offset⟩ := inside.trivia.2
  unfold readLeaf readGlued at found
  dsimp only at found
  split at found
  · cases found
  · next glued =>
    split at glued
    · cases glued
    · cases glued
      cases found
      exact .mk _ _ [] (isComment_trivia at_) (decide_eq_false notComment) ⟨before, _, split, offset⟩ rfl

/-- Where trees are read in a text, from the first token up to the end of the last one. -/
theorem Grammar.Derives.delimited (derived : grammar.Derives rule at_ trees next) (delimited : rule.isDelimited = true)
    (inside : at_.In text) : trees = [] ∧ next = at_ ∨ Delimited text next.offset trees := by
  induction derived with
  | empty | without | manyNone => exact .inl ⟨rfl, rfl⟩
  | leaf found => exact .inr (delimited_of_leaf (of_decide_eq_true delimited) inside found)
  | first _ inner => exact inner ((Bool.and_eq_true _ _).mp delimited).1 inside
  | second _ inner => exact inner ((Bool.and_eq_true _ _).mp delimited).2 inside
  | seq frontDerived _ front back =>
    obtain ⟨delimitedFront, delimitedBack⟩ := (Bool.and_eq_true _ _).mp delimited
    rcases front delimitedFront inside with ⟨rfl, rfl⟩ | front
    · exact back delimitedBack inside
    · rcases back delimitedBack (frontDerived.span inside).2 with ⟨rfl, rfl⟩ | back
      · rw [List.append_nil]
        exact .inr front
      · exact .inr (front.append back)
  | manyMore frontDerived _ front back =>
    rcases front delimited inside with ⟨rfl, rfl⟩ | front
    · exact back delimited inside
    · rcases back delimited (frontDerived.span inside).2 with ⟨rfl, rfl⟩ | back
      · rw [List.append_nil]
        exact .inr front
      · exact .inr (front.append back)
  | node _ inner =>
    obtain ⟨notComment, body⟩ := (Bool.and_eq_true _ _).mp delimited
    rcases inner body inside with ⟨rfl, rfl⟩ | ⟨comments, first, later, comment, plain, starts, stops⟩
    · exact .inl ⟨rfl, rfl⟩
    · rw [gather_eq comment plain]
      exact .inr (.mk _ _ [] comment (decide_eq_false (of_decide_eq_true notComment)) starts stops)
  | @role role _ _ _ _ _ inner =>
    rcases inner delimited inside with ⟨rfl, rfl⟩ | ⟨comments, first, later, comment, plain, starts, stops⟩
    · exact .inl ⟨rfl, rfl⟩
    · rw [List.map_append, List.map_cons]
      refine .inr (.mk _ _ _ ?_ ?_ ?_ ?_)
      · simpa [Tree.isComment_withRole] using comment
      · rw [Tree.isComment_withRole, plain]
      · rw [Tree.start_withRole]
        exact starts
      · simp only [← List.map_cons, List.getLast_map, Tree.stop_withRole, stops]
  | _ => cases delimited

end Constructs

variable {dialect : Dialect} {text final before taken behind other : List Char} {rule : Shape} {allowed : List Char → Prop}
variable {tree : Tree} {at_ cursor : Cursor} {target : Nat}

/-! ## Trees that may stand elsewhere -/

/-- The characters of a tree. -/
def Tree.chars (text : List Char) (tree : Tree) : List Char := (tree.text (encodeChars text)).toList

/-- A tree is read in the same way wherever its text stands, if what is behind it there is allowed. -/
structure Tree.Portable (dialect : Dialect) (text : List Char) (rule : Shape) (allowed : List Char → Prop) (tree : Tree) :
    Prop where
  placed : tree.Placed
  inside : ∃ before behind, text = before ++ (tree.chars text ++ behind) ∧ tree.start = width before
  stop_eq : tree.stop = tree.start + width (tree.chars text)
  solid : tree.chars text ≠ []
  inky : Inky (tree.chars text)
  elsewhere : ∀ cursor other target, allowed other → cursor.trivia = ([], ⟨target, tree.chars text ++ other⟩) →
    (dialect.grammar false).Derives rule cursor [tree.moved tree.start target] ⟨target + width (tree.chars text), other⟩

theorem slice_middle (front middle back : Bytes) {start stop : Nat} (le : stop ≤ middle.length) (ordered : start ≤ stop) :
    slice (front ++ (middle ++ back)) (front.length + start) (front.length + stop) = slice middle start stop := by
  have size : front.length + stop - (front.length + start) = stop - start := by omega
  rw [slice, slice, size, ← List.drop_drop, List.drop_left, List.drop_append_of_le_length (by omega),
    List.take_append_of_le_length (by rw [List.length_drop]; omega)]

theorem sliceText_middle (before taken behind : List Char) :
    sliceText (encodeChars (before ++ (taken ++ behind))) (width before) (width before + width taken) = String.ofList taken := by
  have middle := @slice_middle (encodeChars before) (encodeChars taken) (encodeChars behind) 0
    (encodeChars taken).length (Nat.le_refl _) (Nat.zero_le _)
  rw [length_encodeChars, length_encodeChars, Nat.add_zero] at middle
  have all : slice (encodeChars taken) 0 (width taken) = encodeChars taken := by
    rw [slice, List.drop_zero, Nat.sub_zero, ← length_encodeChars, List.take_length]
  rw [sliceText, encodeChars_append, encodeChars_append, middle, all, decodeLossy_encodeChars]

/-- What a rule reads of a text behind a gap may stand elsewhere. -/
theorem portable_of_located {gap : List Char} (inside : at_.In text) (split : at_.rest = gap ++ (taken ++ behind))
    (placed : tree.Placed) (start_eq : tree.start = at_.offset + width gap)
    (stop_eq : tree.stop = at_.offset + width gap + width taken) (solid : taken ≠ []) (inky : Inky taken)
    (elsewhere : ∀ cursor other target, allowed other → cursor.trivia = ([], ⟨target, taken ++ other⟩) →
      (dialect.grammar false).Derives rule cursor [tree.moved tree.start target] ⟨target + width taken, other⟩) :
    tree.Portable dialect text rule allowed := by
  obtain ⟨before, whole, offset⟩ := inside
  have same : tree.chars text = taken := by
    rw [Tree.chars, Tree.text, start_eq, stop_eq, whole, split, offset, ← width_append, ← List.append_assoc,
      sliceText_middle, String.toList_ofList]
  exact ⟨placed, ⟨before ++ gap, behind, by rw [same, whole, split, List.append_assoc], by rw [start_eq, offset, width_append]⟩,
    by rw [same, stop_eq, start_eq], same ▸ solid, same ▸ inky, same ▸ elsewhere⟩

theorem portable_of_readsText {gap : List Char} {next : Cursor}
    (reads : (dialect.grammar false).ReadsText rule at_ gap taken tree [] next) (inside : at_.In text) (placed : tree.Placed)
    (alike : ∀ other, allowed other → Alike next.rest other) : tree.Portable dialect text rule allowed := by
  refine portable_of_located inside reads.split placed reads.start_eq (reads.stop_eq.trans reads.offset) reads.solid
    reads.inky fun cursor other target ok trivia => ?_
  have there := reads.elsewhere cursor other target (alike other ok) (by rw [trivia])
  rwa [trivia, List.nil_append, ← reads.start_eq] at there

/-- A leaf may stand wherever no name goes on behind it. -/
theorem portable_of_leaf {kind : Kind} {terminal : Terminal} {next : Cursor} {trees : List Tree}
    (isLocal : terminal.isLocal = true) (inside : at_.In text) (found : readLeaf kind terminal at_ = some (trees, next)) :
    ∃ tree, trees = at_.trivia.1 ++ [tree] ∧ tree.kind = kind ∧ tree.role = none ∧
      tree.Portable dialect text (.leaf kind terminal) fun other => nameTailLength 0 other = 0 := by
  obtain ⟨gap, taken, behind, split, -, token, rfl, rfl⟩ := exists_token_of_leaf isLocal found
  refine ⟨_, rfl, rfl, rfl, portable_of_located inside split ?_ rfl rfl token.solid token.inky ?_⟩
  · exact Nat.le_add_right _ _
  · intro cursor other target quiet trivia
    have read := @readLeaf_of_length _ _ _ kind _ _ token.solid (by rw [trivia]) (token.length_eq other fun _ => quiet)
    rw [trivia] at read
    refine .leaf (read.trans ?_)
    simp only [Tree.moved, Tree.movedAll, Tree.start, List.nil_append]
    congr 5 <;> omega

/-- A construct of a fixed number of tokens may stand wherever a token halts behind it, or the same text follows. -/
theorem portable_of_node {kind : Kind} {body : Shape} {next : Cursor} {trees : List Tree} (inside : at_.In text)
    (flat : body.isFlat = true) (notComment : kind ≠ .comment)
    (derived : (dialect.grammar false).Derives (.node kind body) at_ trees next) :
    trees = [] ∨ ∃ tree, trees = at_.trivia.1 ++ [tree] ∧ tree.kind = kind ∧ tree.role = none ∧
      tree.Portable dialect text (.node kind body) (Alike next.rest) := by
  have placed := (derived.span inside).1.placed
  cases derived with
  | node inner =>
    rcases inner.readsText flat with nothing | ⟨gap, taken, first, later, rfl, reads⟩
    · left
      rw [nothing.trees_eq]
      rfl
    · have gathered := @gather_eq kind _ later _ (isComment_trivia at_) reads.notComment
      rw [gathered] at placed ⊢
      exact .inr ⟨_, rfl, rfl, rfl, portable_of_readsText (reads.node notComment) inside
        (placed.placed (List.mem_append_right _ List.mem_cons_self)) fun _ => id⟩

namespace Tree.Portable

variable (portable : tree.Portable dialect text rule allowed)
include portable

/-- The texts in a tree stay the same where it is moved. -/
theorem text_moved (there : Cursor.In final ⟨target, tree.chars text ++ other⟩) {inner : Tree} (mem : inner ∈ tree.preorder) :
    (inner.moved tree.start target).text (encodeChars final) = inner.text (encodeChars text) := by
  obtain ⟨before, behind, split, start_eq⟩ := portable.inside
  obtain ⟨front, split', target_eq⟩ := there
  have target_eq : target = width front := target_eq
  obtain ⟨placed, after, within⟩ := portable.placed.inner mem
  have ordered := placed.start_le_stop
  have fits := portable.stop_eq
  generalize tree.chars text = taken at *
  have slices (front behind : List Char) : slice (encodeChars (front ++ (taken ++ behind)))
      (width front + (inner.start - tree.start)) (width front + (inner.stop - tree.start)) =
        slice (encodeChars taken) (inner.start - tree.start) (inner.stop - tree.start) := by
    have middle := @slice_middle (encodeChars front) (encodeChars taken) (encodeChars behind)
      (inner.start - tree.start) (inner.stop - tree.start) (by rw [length_encodeChars]; omega) (by omega)
    rwa [length_encodeChars, ← encodeChars_append, ← encodeChars_append] at middle
  have here := slices before behind
  have moved := slices front other
  rw [← split, ← start_eq, Nat.add_sub_cancel' after, Nat.add_sub_cancel' (Nat.le_trans after ordered)] at here
  rw [← split', ← target_eq] at moved
  rw [Tree.text, Tree.text, sliceText, sliceText, start_moved, stop_moved, here, ← moved]
  congr 3 <;> omega

theorem mono {narrower : List Char → Prop} (narrow : ∀ other, narrower other → allowed other) :
    tree.Portable dialect text rule narrower :=
  { portable with elsewhere := fun cursor other target ok => portable.elsewhere cursor other target (narrow other ok) }

end Tree.Portable

namespace Tree

variable {source : Nat}

theorem child?_moved (tree : Tree) (role : Role) :
    (tree.moved source target).child? role = (tree.child? role).map (moved source target) := by
  rw [child?, children_moved, List.find?_map]
  simp only [Function.comp_def, role_moved]
  rfl

theorem find?_parts_moved (tree : Tree) (kind : Kind) :
    ((tree.moved source target).parts.find? fun child => child.kind = kind) =
      (tree.parts.find? fun child => child.kind = kind).map (moved source target) := by
  rw [parts, children_moved, List.filter_map, List.find?_map]
  simp only [Function.comp_def, isNamed, isComment, kind_moved]
  rfl

end Tree

/-! ## Gaps and marks -/

theorem trivia_of_inky {rest : List Char} (inky : Inky rest) (target : Nat) :
    Cursor.trivia ⟨target, rest⟩ = ([], ⟨target, rest⟩) := triviaFrom_of_inky inky target

theorem trivia_of_blank {rest : List Char} (inky : Inky rest) (target : Nat) :
    Cursor.trivia ⟨target, ' ' :: rest⟩ = ([], ⟨target + 1, rest⟩) := triviaFrom_of_inky inky (target + 1)

theorem inky_append {front behind : List Char} (solid : front ≠ []) (inky : Inky front) : Inky (front ++ behind) := by
  obtain ⟨c, rest, rfl⟩ := List.exists_cons_of_ne_nil solid
  exact inky

theorem derives_sign {mark : String} {cursor : Cursor} {target : Nat} {other : List Char} (solid : mark.toList ≠ [])
    (trivia : cursor.trivia = ([], ⟨target, mark.toList ++ other⟩)) :
    (dialect.grammar false).Derives (Rule.sign mark) cursor
      [.node (.token mark) none target (target + width mark.toList) []] ⟨target + width mark.toList, other⟩ := by
  have length : (Terminal.mark mark []).length (mark.toList ++ other) = mark.toList.length := by
    rw [Terminal.length_mark (List.prefix_append _ _) (by simp), String.length_toList]
  have read := @readLeaf_of_length _ _ _ (.token mark) _ _ solid (by rw [trivia]) length
  rw [trivia] at read
  exact .leaf read

end Scaffold.Syntax
