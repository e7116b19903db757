import Mathlib.Tactic.ByContra
import Scaffold.Proofs.Syntax.Language
import Scaffold.Proofs.Syntax.Shifting

/-! # Where trees begin and end

Most constructs begin with a token behind white space and comments. What such a rule derives begins at that token, and
only the place of the token matters to it. Whatever a rule derives ends with its last tree.
-/

namespace Scaffold.Syntax

open Scaffold.Text

variable {σ : Type}

/-- What is known of how the text of a rule begins: with a token behind white space and comments, with such a token if
there is any text, or nothing. -/
inductive Opening where
  | surely | perhaps | unknown
  deriving DecidableEq, Repr

/-- What begins as both alternatives do. -/
def Opening.meet : Opening → Opening → Opening
  | .unknown, _ | _, .unknown => .unknown
  | .surely, .surely => .surely
  | _, _ => .perhaps

theorem Opening.meet_ne_unknown {first second : Opening} (some_ : first.meet second ≠ .unknown) :
    first ≠ .unknown ∧ second ≠ .unknown := by
  cases first <;> cases second <;> simp_all [meet]

theorem Opening.meet_eq_perhaps {first second : Opening} (some_ : first.meet second ≠ .unknown)
    (perhaps : first = .perhaps ∨ second = .perhaps) : first.meet second = .perhaps := by
  cases first <;> cases second <;> simp_all [meet]

/-- How the text of a rule begins, where the texts of some symbols are known to begin with a token. -/
def Rule.opening (known : σ → Bool) : Rule σ → Opening
  | .never => .surely
  | .leaf kind _ => if kind = .comment then .unknown else .surely
  | .empty | .without _ => .perhaps
  | .call symbol => if known symbol then .surely else .unknown
  | .seq first second =>
    match opening known first with
    | .surely => .surely
    | .perhaps => opening known second
    | .unknown => .unknown
  | .alt first second => (opening known first).meet (opening known second)
  | .many body | .items body => .meet .perhaps (opening known body)
  | .node _ body | .role _ body | .only _ body | .grow body _ _ => opening known body
  | .glued _ _ | .ending _ => .unknown

namespace Grammar

variable {grammar : Grammar σ} {rule first second : Rule σ} {at_ between next : Cursor} {trees more : List Tree}

/-- Nothing is read here, and nothing may be read anywhere. -/
structure Idles (grammar : Grammar σ) (rule : Rule σ) (at_ : Cursor) (trees : List Tree) (next : Cursor) : Prop where
  trees_eq : trees = []
  next_eq : next = at_
  anywhere : ∀ cursor, grammar.Derives rule cursor [] cursor

/-- What is read begins at the next token, from wherever that is the next one. -/
structure Begins (grammar : Grammar σ) (rule : Rule σ) (at_ : Cursor) (first : Tree) (later : List Tree) (next : Cursor) :
    Prop where
  plain : first.isComment = false
  start_eq : first.start = at_.trivia.2.offset
  anywhere : ∀ cursor : Cursor, cursor.trivia.2 = at_.trivia.2 →
    grammar.Derives rule cursor (cursor.trivia.1 ++ first :: later) next

theorem begins_leaf {kind : Kind} {terminal : Terminal} (notComment : kind ≠ .comment)
    (found : readLeaf kind terminal at_ = some (trees, next)) :
    ∃ first, trees = at_.trivia.1 ++ [first] ∧ grammar.Begins (.leaf kind terminal) at_ first [] next := by
  unfold readLeaf at found
  dsimp only at found
  split at found
  · cases found
  · next glued =>
    have there := glued
    unfold readGlued at glued
    split at glued
    · cases glued
    · cases glued
      cases found
      refine ⟨_, rfl, decide_eq_false notComment, rfl, fun cursor same => .leaf ?_⟩
      unfold readLeaf
      dsimp only
      rw [same, there]

variable {head : Tree} {later : List Tree}

theorem Begins.seq (front : grammar.Begins first at_ head later between) (back : grammar.Derives second between more next) :
    grammar.Begins (.seq first second) at_ head (later ++ more) next where
  plain := front.plain
  start_eq := front.start_eq
  anywhere cursor same := by
    rw [← List.cons_append, ← List.append_assoc]
    exact .seq (front.anywhere cursor same) back

theorem Begins.many (front : grammar.Begins first at_ head later between)
    (back : grammar.Derives (.many first) between more next) : grammar.Begins (.many first) at_ head (later ++ more) next where
  plain := front.plain
  start_eq := front.start_eq
  anywhere cursor same := by
    rw [← List.cons_append, ← List.append_assoc]
    exact .manyMore (front.anywhere cursor same) back

theorem Begins.items (front : grammar.Begins first at_ head later between)
    (back : grammar.Derives (.items first) between more next) : grammar.Begins (.items first) at_ head (later ++ more) next where
  plain := front.plain
  start_eq := front.start_eq
  anywhere cursor same := by
    rw [← List.cons_append, ← List.append_assoc]
    exact .itemsMore (front.anywhere cursor same) back

theorem Begins.node {kind : Kind} (notComment : kind ≠ .comment) (inner : grammar.Begins rule at_ head later next) :
    grammar.Begins (.node kind rule) at_
      (.node kind none head.start ((head :: later).getLast (List.cons_ne_nil _ _)).stop (head :: later)) [] next where
  plain := decide_eq_false notComment
  start_eq := inner.start_eq
  anywhere cursor same := by
    rw [← gather_eq (isComment_trivia cursor) inner.plain]
    exact .node (inner.anywhere cursor same)

theorem Begins.role {role : Role} (inner : grammar.Begins rule at_ head later next) :
    grammar.Begins (.role role rule) at_ (head.withRole role) (later.map (Tree.withRole role)) next where
  plain := by rw [Tree.isComment_withRole, inner.plain]
  start_eq := by rw [Tree.start_withRole, inner.start_eq]
  anywhere cursor same := by
    rw [← map_withRole_trivia cursor role, ← List.map_cons, ← List.map_append]
    exact .role (inner.anywhere cursor same)

theorem Begins.only {accepts : Kind → Bool} {tree : Tree} (inner : grammar.Begins rule at_ head later next)
    (last : (head :: later).getLast? = some tree) (accepted : accepts tree.kind = true) :
    grammar.Begins (.only accepts rule) at_ head later next where
  plain := inner.plain
  start_eq := inner.start_eq
  anywhere cursor same := .only (inner.anywhere cursor same) (by rw [List.getLast?_append, last, Option.some_or]) accepted

theorem Begins.grown {base guard : Rule σ} {tails : List (Tail σ)} {front : List Tree} {tree : Tree} {accepts : Kind → Bool}
    {kind : Kind} {role : Option Role} {body : Rule σ} (smaller : grammar.Begins (.grow base guard tails) at_ head later between)
    (split : front ++ [tree] = at_.trivia.1 ++ head :: later) (tail : .mk accepts kind role body ∈ tails)
    (accepted : accepts tree.kind = true) (notComment : kind ≠ .comment) (behind : grammar.Derives body between trees next) :
    ∃ head later, front ++ [tree.extended kind role trees] = at_.trivia.1 ++ head :: later ∧
      grammar.Begins (.grow base guard tails) at_ head later next := by
  rcases List.eq_nil_or_concat later with rfl | ⟨later, last, rfl⟩
  · obtain ⟨rfl, same⟩ := List.append_inj' split rfl
    obtain rfl := (List.cons.inj same).1
    exact ⟨_, [], rfl, decide_eq_false notComment, smaller.start_eq,
      fun cursor same => .grown (smaller.anywhere cursor same) tail accepted behind⟩
  · rw [List.concat_eq_append] at split smaller
    rw [← List.cons_append, ← List.append_assoc] at split
    obtain ⟨rfl, same⟩ := List.append_inj' split rfl
    obtain rfl := (List.cons.inj same).1
    refine ⟨head, later ++ [tree.extended kind role trees], by simp, smaller.plain, smaller.start_eq, fun cursor same => ?_⟩
    have derived := smaller.anywhere cursor same
    rw [← List.cons_append, ← List.append_assoc] at derived ⊢
    exact .grown derived tail accepted behind

variable {known : σ → Bool}

/-- A rule begins as its form says. -/
theorem Derives.begins (strict : grammar.tolerant = false)
    (all : ∀ symbol, (grammar.rule symbol).All (fun kind _ => kind ≠ .comment) (· ≠ .comment))
    (knows : ∀ symbol, known symbol = true → (grammar.rule symbol).opening known = .surely)
    (derived : grammar.Derives rule at_ trees next) (own : rule.All (fun kind _ => kind ≠ .comment) (· ≠ .comment))
    (opens : rule.opening known ≠ .unknown) :
    (∃ first later, trees = at_.trivia.1 ++ first :: later ∧ grammar.Begins rule at_ first later next) ∨
      rule.opening known = .perhaps ∧ grammar.Idles rule at_ trees next := by
  induction derived with
  | empty => exact .inr ⟨rfl, rfl, rfl, fun _ => .empty⟩
  | without => exact .inr ⟨rfl, rfl, rfl, fun _ => .without⟩
  | @leaf kind terminal _ _ _ found =>
    obtain ⟨first, eq, begins⟩ := begins_leaf (fun comment => opens (if_pos comment)) found
    exact .inl ⟨first, [], eq, begins⟩
  | glued | ending => exact absurd rfl opens
  | @call symbol _ _ _ _ inner =>
    have surely : known symbol = true := by
      by_contra none_
      exact opens (if_neg none_)
    rcases inner (all symbol) (by rw [knows symbol surely]; decide) with ⟨first, later, eq, begins⟩ | ⟨perhaps, -⟩
    · exact .inl ⟨first, later, eq, begins.plain, begins.start_eq, fun cursor same => .call (begins.anywhere cursor same)⟩
    · rw [knows symbol surely] at perhaps
      cases perhaps
  | @seq first second _ _ _ _ more _ backDerived front back =>
    simp only [Rule.All] at own
    simp only [Rule.opening] at opens ⊢
    cases way : first.opening known with
    | unknown => rw [way] at opens; exact absurd rfl opens
    | surely =>
      rcases front own.1 (by rw [way]; decide) with ⟨head, later, rfl, begins⟩ | ⟨perhaps, -⟩
      · exact .inl ⟨head, later ++ more, by simp, begins.seq backDerived⟩
      · rw [way] at perhaps
        cases perhaps
    | perhaps =>
      rw [way] at opens
      rcases front own.1 (by rw [way]; decide) with ⟨head, later, rfl, begins⟩ | ⟨-, rfl, rfl, anywhere⟩
      · exact .inl ⟨head, later ++ more, by simp, begins.seq backDerived⟩
      · rcases back own.2 opens with ⟨head, later, eq, begins⟩ | ⟨perhaps, rfl, rfl, anywhere'⟩
        · exact .inl ⟨head, later, eq, begins.plain, begins.start_eq,
            fun cursor same => (Derives.seq (anywhere cursor) (begins.anywhere cursor same) :)⟩
        · exact .inr ⟨perhaps, rfl, rfl, fun cursor => .seq (anywhere cursor) (anywhere' cursor)⟩
  | first _ inner =>
    rcases inner own.1 (Opening.meet_ne_unknown opens).1 with ⟨head, later, eq, begins⟩ | ⟨perhaps, rfl, rfl, anywhere⟩
    · exact .inl ⟨head, later, eq, begins.plain, begins.start_eq, fun cursor same => .first (begins.anywhere cursor same)⟩
    · exact .inr ⟨Opening.meet_eq_perhaps opens (.inl perhaps), rfl, rfl, fun cursor => .first (anywhere cursor)⟩
  | second _ inner =>
    rcases inner own.2 (Opening.meet_ne_unknown opens).2 with ⟨head, later, eq, begins⟩ | ⟨perhaps, rfl, rfl, anywhere⟩
    · exact .inl ⟨head, later, eq, begins.plain, begins.start_eq, fun cursor same => .second (begins.anywhere cursor same)⟩
    · exact .inr ⟨Opening.meet_eq_perhaps opens (.inr perhaps), rfl, rfl, fun cursor => .second (anywhere cursor)⟩
  | manyNone => exact .inr ⟨Opening.meet_eq_perhaps opens (.inl rfl), rfl, rfl, fun _ => .manyNone⟩
  | itemsNone => exact .inr ⟨Opening.meet_eq_perhaps opens (.inl rfl), rfl, rfl, fun _ => .itemsNone⟩
  | @manyMore _ _ _ _ _ more _ backDerived front back =>
    rcases front own (Opening.meet_ne_unknown opens).2 with ⟨head, later, rfl, begins⟩ | ⟨-, rfl, rfl, anywhere⟩
    · exact .inl ⟨head, later ++ more, by simp, begins.many backDerived⟩
    · rcases back own opens with ⟨head, later, eq, begins⟩ | ⟨perhaps, rfl, rfl, anywhere'⟩
      · exact .inl ⟨head, later, eq, begins⟩
      · exact .inr ⟨perhaps, rfl, rfl, anywhere'⟩
  | @itemsMore _ _ _ _ _ more _ backDerived front back =>
    rcases front own (Opening.meet_ne_unknown opens).2 with ⟨head, later, rfl, begins⟩ | ⟨-, rfl, rfl, anywhere⟩
    · exact .inl ⟨head, later ++ more, by simp, begins.items backDerived⟩
    · rcases back own opens with ⟨head, later, eq, begins⟩ | ⟨perhaps, rfl, rfl, anywhere'⟩
      · exact .inl ⟨head, later, eq, begins⟩
      · exact .inr ⟨perhaps, rfl, rfl, anywhere'⟩
  | itemsError tolerant =>
    rw [strict] at tolerant
    cases tolerant
  | node _ inner =>
    rcases inner own.2 opens with ⟨head, later, rfl, begins⟩ | ⟨perhaps, rfl, rfl, anywhere⟩
    · exact .inl ⟨_, [], gather_eq (isComment_trivia _) begins.plain, begins.node own.1⟩
    · exact .inr ⟨perhaps, rfl, rfl, fun cursor => .node (anywhere cursor)⟩
  | @role role _ _ _ _ _ inner =>
    rcases inner own opens with ⟨head, later, rfl, begins⟩ | ⟨perhaps, rfl, rfl, anywhere⟩
    · exact .inl ⟨_, _, by rw [List.map_append, map_withRole_trivia, List.map_cons], begins.role⟩
    · exact .inr ⟨perhaps, rfl, rfl, fun cursor => .role (anywhere cursor)⟩
  | only _ last accepted inner =>
    rcases inner own opens with ⟨head, later, rfl, begins⟩ | ⟨-, rfl, -, -⟩
    · rw [List.getLast?_append, List.getLast?_cons, Option.some_or] at last
      exact .inl ⟨head, later, rfl, begins.only (List.getLast?_cons.trans last) accepted⟩
    · cases last
  | base _ inner =>
    rcases inner own.1 opens with ⟨head, later, eq, begins⟩ | ⟨perhaps, rfl, rfl, anywhere⟩
    · exact .inl ⟨head, later, eq, begins.plain, begins.start_eq, fun cursor same => .base (begins.anywhere cursor same)⟩
    · exact .inr ⟨perhaps, rfl, rfl, fun cursor => .base (anywhere cursor)⟩
  | grown _ tail accepted behind smaller _ =>
    rcases smaller own opens with ⟨head, later, split, begins⟩ | ⟨-, none_, -, -⟩
    · exact .inl (begins.grown split tail accepted (own.2.of_mem tail).1 behind)
    · simp at none_

end Grammar

/-! ## Ends -/

/-- What is read for the end of a statement ends with its last comment. -/
theorem readEnding_stop {ending : StatementEnd} {offset skip : Nat} {fresh : Bool} {trees : List Tree} {next : Cursor}
    (text : List Char) (found : readEnding ending offset fresh skip text = some (trees, next)) :
    (trees = [] ∧ next = ⟨offset + width (text.take skip), text.drop skip⟩ ∧ (skip = 0 → fresh = true)) ∨
      trees.getLast?.map Tree.stop = some next.offset := by
  induction text generalizing offset skip fresh trees with
  | nil => cases skip <;> cases fresh <;> simp only [readEnding] at found <;> cases found <;> exact .inl ⟨rfl, rfl, by simp⟩
  | cons c text stop =>
    cases skip with
    | succ skip =>
      rcases stop found with ⟨rfl, rfl, -⟩ | last
      · refine .inl ⟨rfl, ?_, fun zero => absurd zero (Nat.succ_ne_zero _)⟩
        rw [List.take_succ_cons, List.drop_succ_cons, width_cons, ← Nat.add_assoc]
      · exact .inr last
    | zero =>
      simp only [readEnding] at found
      split at found
      · next stops =>
        cases found
        exact .inl ⟨rfl, rfl, fun _ => ((Bool.and_eq_true _ _).mp stops).1⟩
      · split at found
        · -- White space is passed over on the way to a comment only.
          rcases stop found with ⟨-, -, never⟩ | last
          · cases never rfl
          · exact .inr last
        · split at found
          · cases found
          · split at found
            · cases found
            · next inner =>
              cases found
              refine .inr ?_
              rw [List.getLast?_cons]
              rcases stop inner with ⟨rfl, rfl, -⟩ | last
              · simp [Tree.stop, Nat.add_assoc]
              · cases trees : List.getLast? _ with
                | none => rw [trees] at last; cases last
                | some tree => rw [trees] at last; exact last

variable {grammar : Grammar σ} {rule : Rule σ} {at_ next : Cursor} {trees : List Tree}

theorem readLeaf_stop {kind : Kind} {terminal : Terminal} (found : readLeaf kind terminal at_ = some (trees, next)) :
    trees.getLast?.map Tree.stop = some next.offset := by
  unfold readLeaf readGlued at found
  dsimp only at found
  split at found
  · cases found
  · next glued =>
    split at glued
    · cases glued
    · cases glued
      cases found
      simp [Tree.stop]

/-- Nothing is read between two places, or what is read ends with its last tree. -/
def Ends (at_ : Cursor) (trees : List Tree) (next : Cursor) : Prop :=
  (trees = [] ∧ next = at_) ∨ trees.getLast?.map Tree.stop = some next.offset

theorem Ends.append {between : Cursor} {more : List Tree} (front : Ends at_ trees between) (back : Ends between more next) :
    Ends at_ (trees ++ more) next := by
  rcases back with ⟨rfl, rfl⟩ | last
  · rwa [List.append_nil]
  · obtain ⟨tree, eq, stop_eq⟩ := Option.map_eq_some_iff.mp last
    exact .inr (by rw [List.getLast?_append, eq, Option.some_or, Option.map_some, stop_eq])

/-- What is derived ends with its last tree. -/
theorem Grammar.Derives.ends (strict : grammar.tolerant = false) (derived : grammar.Derives rule at_ trees next) :
    Ends at_ trees next := by
  induction derived with
  | empty | without | manyNone | itemsNone => exact .inl ⟨rfl, rfl⟩
  | leaf found => exact .inr (readLeaf_stop found)
  | glued found =>
    unfold readGlued at found
    split at found
    · cases found
    · cases found
      exact .inr rfl
  | ending found => exact (readEnding_stop _ found).imp_left fun ⟨none_, here, _⟩ => ⟨none_, by simpa using here⟩
  | call _ inner | first _ inner | second _ inner | only _ _ _ inner | base _ inner => exact inner
  | seq _ _ front back | manyMore _ _ front back | itemsMore _ _ front back => exact front.append back
  | itemsError tolerant => rw [strict] at tolerant; cases tolerant
  | node _ inner =>
    rcases inner with ⟨rfl, rfl⟩ | last
    · exact .inl ⟨rfl, rfl⟩
    · exact .inr (by rw [getLast?_gather, last])
  | role _ inner =>
    rcases inner with ⟨rfl, rfl⟩ | last
    · exact .inl ⟨rfl, rfl⟩
    · refine .inr ?_
      rw [List.getLast?_map, Option.map_map, ← last]
      exact congrArg (Option.map · _) (funext fun tree => Tree.stop_withRole tree _)
  | @grown _ _ _ _ between _ _ trees tree _ _ _ _ _ _ _ _ smaller behind =>
    refine .inr ?_
    rw [List.getLast?_concat]
    rcases smaller with ⟨none_, -⟩ | last
    · simp at none_
    · rw [List.getLast?_concat] at last
      rcases behind with ⟨rfl, rfl⟩ | later
      · exact last
      · simp only [Tree.extended, Tree.stop, Option.map_some, later, Option.getD_some]

/-! ## Constructs of the language -/

/-- The constructs that begin with a token behind white space and comments. -/
def Symbol.begins : Symbol → Bool
  | .expression _ _ _ | .operand _ | .array | .object | .template | .destructuring _ | .parameters | .propertyName _
  | .typeArguments _ | .typeParameters | .decorator | .angled _ | .markupElement => true
  | _ => false

theorem Dialect.opening_rule (dialect : Dialect) (symbol : Symbol) (begins : symbol.begins = true) :
    (dialect.rule symbol).opening Symbol.begins = .surely := by
  cases symbol with
  | destructuring assigned => cases assigned <;> rfl
  | operand place =>
    obtain ⟨openEnded, typedArrows⟩ := place
    cases openEnded <;> cases typedArrows <;> rfl
  | typeArguments inCall => cases inCall <;> rfl
  | angled place => cases dialect <;> rfl
  | expression | array | object | template | parameters | propertyName | typeParameters | decorator | markupElement => rfl
  | _ => cases begins

/-- No construct of the language is a comment. -/
theorem admits_notComment : Admits (fun kind _ => kind ≠ .comment) (· ≠ .comment) where
  construct kind _ composite _ _ := by rintro rfl; cases composite
  tail kind composite _ _ := by rintro rfl; cases composite
  method modifier reserved plain := by
    have all (word : String) : (modifier word).All (fun kind _ => kind ≠ .comment) (· ≠ .comment) := by
      rcases plain with rfl | rfl
      · exact all_word
      · exact Shape.all_modifier
    simp [Shape.methodDefinition, all]
  array := by simp [Shape.array, Shape.spread]

variable {dialect : Dialect} {rule : Shape} {at_ next : Cursor} {trees : List Tree}

/-- What surely begins with a token begins at the next one. -/
theorem Dialect.exists_begins (derived : (dialect.grammar false).Derives rule at_ trees next)
    (own : rule.All (fun kind _ => kind ≠ .comment) (· ≠ .comment)) (surely : rule.opening Symbol.begins = .surely) :
    ∃ first later, trees = at_.trivia.1 ++ first :: later ∧ (dialect.grammar false).Begins rule at_ first later next := by
  rcases derived.begins rfl (Shape.all_rule admits_notComment dialect) dialect.opening_rule own (by rw [surely]; decide) with
    begins | ⟨perhaps, -⟩
  · exact begins
  · rw [surely] at perhaps
    cases perhaps

/-- What takes a role begins at the next token. -/
theorem Dialect.exists_begins_of_role {symbol : Symbol} (begins : symbol.begins = true) {role : Role}
    (derived : (dialect.grammar false).Derives (.role role (.call symbol)) at_ trees next) :
    ∃ first later, trees = at_.trivia.1 ++ first.withRole role :: later.map (Tree.withRole role) ∧
      (dialect.grammar false).Derives (.call symbol) at_ (at_.trivia.1 ++ first :: later) next ∧
        (dialect.grammar false).Begins (.call symbol) at_ first later next := by
  cases derived with
  | role inner =>
    obtain ⟨first, later, rfl, own⟩ := Dialect.exists_begins inner trivial (if_pos begins)
    exact ⟨first, later, by rw [List.map_append, map_withRole_trivia, List.map_cons], inner, own⟩

end Scaffold.Syntax
