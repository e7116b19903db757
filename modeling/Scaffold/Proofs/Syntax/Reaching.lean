import Scaffold.Proofs.Syntax.Checks
import Scaffold.Proofs.Syntax.Continuations

/-! # What is derived up to a colon

Whatever stands behind the colon, a derivation that ends in front of it stays one. Where a statement may end without a
semicolon, the look ahead is over white space and comments up to the next token. No rule of the language leaves off
there and goes on with a token that is read without them, so that look ends in front of the colon, too.
-/

namespace Scaffold.Syntax

open Scaffold.Text

variable {σ : Type}

/-! ## Rules -/

namespace Rule

/-- Whether a rule reads a token behind white space and comments for sure. -/
def sure : Rule σ → Bool
  | .never | .leaf _ _ => true
  | .seq first _ => sure first
  | .alt first second => sure first && sure second
  | .role _ body | .node _ body | .only _ body | .grow body _ _ => sure body
  | _ => false

/-- Whether what a rule reads begins behind white space and comments, if it reads anything. -/
def leads : Rule σ → Bool
  | .glued _ _ => false
  | .seq first second => leads first && (sure first || leads second)
  | .alt first second => leads first && leads second
  | .many body | .items body | .role _ body | .node _ body | .only _ body | .grow body _ _ => leads body
  | .empty | .never | .leaf _ _ | .ending _ | .call _ | .without _ => true

/-- Whether a rule ends with a token, if it reads anything. -/
def ends (closing : σ → Bool) : Rule σ → Bool
  | .empty | .never | .leaf _ _ | .glued _ _ | .without _ => true
  | .call symbol => closing symbol
  | .seq first second => ends closing second && (ends closing first || sure second)
  | .alt first second => ends closing first && ends closing second
  | .many body | .items body | .role _ body | .node _ body | .only _ body => ends closing body
  | .ending _ | .grow _ _ _ => false

mutual

/-- Whether behind each omitted semicolon what is read next begins behind white space and comments. -/
def joins (closing : σ → Bool) : Rule σ → Bool
  | .leaf _ terminal | .glued _ terminal => terminal.sparesColon
  | .seq first second => joins closing first && joins closing second && (leads second || ends closing first)
  | .alt first second => joins closing first && joins closing second
  | .many body | .items body => joins closing body && (leads body || ends closing body)
  | .role _ body | .node _ body | .only _ body => joins closing body
  | .grow base _ tails => joins closing base && allJoin closing tails
  | .empty | .never | .ending _ | .call _ | .without _ => true

def allJoin (closing : σ → Bool) : List (Tail σ) → Bool
  | [] => true
  | .mk _ _ _ body :: later => joins closing body && leads body && allJoin closing later

end

variable {closing : σ → Bool}

theorem allJoin_append (front back : List (Tail σ)) :
    allJoin closing (front ++ back) = (allJoin closing front && allJoin closing back) := by
  induction front with
  | nil => rfl
  | cons tail later eq =>
    obtain ⟨accepts, kind, role, body⟩ := tail
    simp only [List.cons_append, allJoin, eq, Bool.and_assoc]

theorem allJoin_ite {condition : Prop} [Decidable condition] {tails : List (Tail σ)} (join : allJoin closing tails = true) :
    allJoin closing (if condition then tails else []) = true := by
  split
  · exact join
  · rfl

theorem joins_of_mem {tails : List (Tail σ)} (join : allJoin closing tails = true) {accepts : Kind → Bool} {kind : Kind}
    {role : Option Role} {body : Rule σ} (mem : .mk accepts kind role body ∈ tails) :
    joins closing body = true ∧ leads body = true := by
  induction tails with
  | nil => cases mem
  | cons tail later found =>
    obtain ⟨accepts', kind', role', body'⟩ := tail
    simp only [allJoin, Bool.and_eq_true] at join
    rcases List.mem_cons.mp mem with same | mem
    · cases same
      exact join.1
    · exact found join.2 mem

end Rule

/-- What is asked of a grammar: it is strict, and what it reads behind each omitted semicolon begins behind white space
and comments. -/
structure Grammar.Joins (grammar : Grammar σ) (closing : σ → Bool) : Prop where
  strict : grammar.tolerant = false
  joins : ∀ symbol, (grammar.rule symbol).joins closing = true
  leads : ∀ symbol, (grammar.rule symbol).leads = true
  ends : ∀ symbol, closing symbol = true → (grammar.rule symbol).ends closing = true

/-- The only construct that is known to end with a token. -/
def Symbol.closes (symbol : Symbol) : Bool := symbol = .markupElement

theorem joins_rule (dialect : Dialect) (symbol : Symbol) :
    ((dialect.rule symbol).joins Symbol.closes && (dialect.rule symbol).leads) = true := by
  cases symbol with
  | expression place binding assertions =>
    change ((true && Rule.allJoin _ _) && true) = true
    simp only [Rule.allJoin_append, Shape.operatorTails, Shape.binaryOperators, List.flatMap_cons, List.flatMap_nil,
      Bool.and_eq_true, true_and, and_true]
    and_intros <;> first | rfl | exact Rule.allJoin_ite rfl
  | declarators first => cases first <;> rfl
  | destructuring assigned => cases assigned <;> rfl
  | operand place =>
    obtain ⟨openEnded, typedArrows⟩ := place
    cases openEnded <;> cases typedArrows <;> rfl
  | type place =>
    obtain ⟨ending, functions, inCall, shortNames⟩ := place
    cases functions <;> cases inCall <;> rfl
  | simpleType place =>
    obtain ⟨ending, functions, inCall, shortNames⟩ := place
    cases inCall <;> cases shortNames <;> rfl
  | typeArguments inCall => cases inCall <;> rfl
  | angled place => cases dialect <;> rfl
  | _ => rfl

theorem Dialect.joins (dialect : Dialect) : (dialect.grammar false).Joins Symbol.closes where
  strict := rfl
  joins symbol := ((Bool.and_eq_true _ _).mp (joins_rule dialect symbol)).1
  leads symbol := ((Bool.and_eq_true _ _).mp (joins_rule dialect symbol)).2
  ends symbol closes := by
    obtain rfl : symbol = .markupElement := of_decide_eq_true closes
    rfl

/-! ## Derivations -/

theorem suffix_triviaFrom (offset skip : Nat) (text : List Char) : (triviaFrom offset skip text).2.rest <:+ text := by
  obtain ⟨gap, split, -⟩ := exists_gap offset skip text
  exact ⟨gap, split.symm⟩

theorem suffix_readGlued {kind : Kind} {terminal : Terminal} {at_ next : Cursor} {trees : List Tree}
    (found : readGlued kind terminal at_ = some (trees, next)) : next.rest <:+ at_.rest := by
  unfold readGlued at found
  split at found
  · cases found
  · cases found
    exact List.drop_suffix _ _

theorem suffix_readLeaf {kind : Kind} {terminal : Terminal} {at_ next : Cursor} {trees : List Tree}
    (found : readLeaf kind terminal at_ = some (trees, next)) : next.rest <:+ at_.rest := by
  unfold readLeaf at found
  dsimp only at found
  split at found
  · cases found
  · next glued =>
    cases found
    exact (suffix_readGlued glued).trans (suffix_triviaFrom _ _ _)

theorem suffix_readEnding {ending : StatementEnd} {fresh : Bool} {offset skip : Nat} {next : Cursor} {trees : List Tree}
    (text : List Char) (found : readEnding ending offset fresh skip text = some (trees, next)) : next.rest <:+ text := by
  induction text generalizing offset fresh skip trees with
  | nil =>
    cases skip <;> cases fresh <;> simp only [readEnding] at found <;> cases found <;> exact List.suffix_refl _
  | cons c text suffix =>
    have later {offset skip : Nat} {fresh : Bool} {trees : List Tree}
        (found : readEnding ending offset fresh skip text = some (trees, next)) : next.rest <:+ c :: text :=
      (suffix found).trans (List.suffix_cons c text)
    cases skip with
    | succ skip => exact later found
    | zero =>
      simp only [readEnding] at found
      split at found
      · cases found
        exact List.suffix_refl _
      · split at found
        · exact later found
        · split at found
          · cases found
          · split at found
            · cases found
            · next inner =>
              cases found
              exact later inner

variable {grammar : Grammar σ} {closing : σ → Bool} {rule : Rule σ} {at_ next : Cursor} {trees : List Tree}

/-- What is left of a text is an end of it. -/
theorem Grammar.Derives.suffix (strict : grammar.tolerant = false) (derived : grammar.Derives rule at_ trees next) :
    next.rest <:+ at_.rest := by
  induction derived with
  | empty | manyNone | itemsNone | without => exact List.suffix_refl _
  | leaf found => exact suffix_readLeaf found
  | glued found => exact suffix_readGlued found
  | ending found => exact suffix_readEnding _ found
  | call _ inner | first _ inner | second _ inner | node _ inner | role _ inner | only _ _ _ inner | base _ inner => exact inner
  | seq _ _ front back | manyMore _ _ front back | itemsMore _ _ front back => exact back.trans front
  | itemsError tolerant => rw [strict] at tolerant; cases tolerant
  | grown _ _ _ _ front back => exact back.trans front

/-- What is taken from a text between two places. -/
theorem Grammar.Derives.exists_taken {text : List Char} (strict : grammar.tolerant = false) (derived : grammar.Derives rule at_ trees next)
    (inside : at_.In text) : ∃ taken, at_.rest = taken ++ next.rest ∧ next.offset = at_.offset + width taken := by
  obtain ⟨taken, split⟩ := derived.suffix strict
  obtain ⟨before, whole, offset⟩ := inside
  obtain ⟨before', whole', offset'⟩ := (derived.span ⟨before, whole, offset⟩).2
  refine ⟨taken, split.symm, ?_⟩
  rw [whole, ← split, ← List.append_assoc] at whole'
  rw [offset', offset, ← width_append, List.append_cancel_right whole']

variable {more other : List Char}

/-- A place in front of a colon with a text behind it. -/
def Cursor.Before (more : List Char) (at_ : Cursor) : Prop := ∃ front, at_.rest = front ++ ':' :: more

/-- A place from where the next token begins in front of the colon, or with it. -/
def Cursor.Lands (more : List Char) (at_ : Cursor) : Prop := ∃ front, at_.trivia.2.rest = front ++ ':' :: more

/-- The same place with another text behind the colon. -/
def Cursor.swapped (more other : List Char) (at_ : Cursor) : Cursor :=
  ⟨at_.offset, at_.rest.take (at_.rest.length - (more.length + 1)) ++ ':' :: other⟩

theorem Cursor.swapped_eq {front : List Char} (split : at_.rest = front ++ ':' :: more) :
    at_.swapped more other = ⟨at_.offset, front ++ ':' :: other⟩ := by
  have size : (front ++ ':' :: more).length - (more.length + 1) = front.length := by simp
  rw [swapped, split, size, List.take_left]

theorem Cursor.Before.of_suffix (before : next.Before more) (suffix : next.rest <:+ at_.rest) : at_.Before more := by
  obtain ⟨front, split⟩ := before
  obtain ⟨gap, eq⟩ := suffix
  exact ⟨gap ++ front, by rw [← eq, split, List.append_assoc]⟩

theorem LinesEnd.of_suffix {text rest : List Char} (lines : LinesEnd text) (suffix : rest <:+ text) : LinesEnd rest := by
  obtain ⟨gap, rfl⟩ := suffix
  exact lines.behind

/-- What is known of a derivation that ends in front of a colon. -/
structure Grammar.Reaches (grammar : Grammar σ) (closing : σ → Bool) (more other : List Char) (rule : Rule σ) (at_ : Cursor)
    (trees : List Tree) (next : Cursor) : Prop where
  sure : rule.sure = true → at_.Lands more
  leads : rule.leads = true → next.Lands more → at_.Lands more
  swapped : rule.ends closing = true ∨ next.Lands more →
    grammar.Derives rule (at_.swapped more other) trees (next.swapped more other)

theorem reaches_leaf {kind : Kind} {terminal : Terminal} (may : MayReplace more other) (spares : terminal.sparesColon = true)
    (found : readLeaf kind terminal at_ = some (trees, next)) (before : next.Before more) :
    grammar.Reaches closing more other (.leaf kind terminal) at_ trees next := by
  obtain ⟨front, split⟩ := before.of_suffix (suffix_readLeaf found)
  obtain ⟨back, behind⟩ := before
  obtain ⟨offset, rest⟩ := at_
  obtain ⟨stop, left⟩ := next
  obtain rfl : rest = _ := split
  obtain rfl : left = _ := behind
  obtain ⟨lands, there⟩ := readLeaf_colon may spares found
  refine ⟨fun _ => lands, fun _ _ => lands, fun _ => ?_⟩
  rw [Cursor.swapped_eq rfl, Cursor.swapped_eq rfl]
  exact .leaf there

theorem reaches_glued {kind : Kind} {terminal : Terminal} (spares : terminal.sparesColon = true)
    (found : readGlued kind terminal at_ = some (trees, next)) (before : next.Before more) :
    grammar.Reaches closing more other (.glued kind terminal) at_ trees next := by
  obtain ⟨front, split⟩ := before.of_suffix (suffix_readGlued found)
  obtain ⟨back, behind⟩ := before
  obtain ⟨offset, rest⟩ := at_
  obtain ⟨stop, left⟩ := next
  obtain rfl : rest = _ := split
  obtain rfl : left = _ := behind
  refine ⟨nofun, nofun, fun _ => ?_⟩
  rw [Cursor.swapped_eq rfl, Cursor.swapped_eq rfl]
  exact .glued (readGlued_colon spares found)

theorem reaches_ending {ending : StatementEnd} (may : MayReplace more other) (lines : LinesEnd at_.rest)
    (found : readEnding ending at_.offset true 0 at_.rest = some (trees, next)) (before : next.Before more) :
    grammar.Reaches closing more other (.ending ending) at_ trees next := by
  obtain ⟨front, split⟩ := before.of_suffix (suffix_readEnding _ found)
  obtain ⟨back, behind⟩ := before
  obtain ⟨offset, rest⟩ := at_
  obtain ⟨stop, left⟩ := next
  obtain rfl : rest = _ := split
  obtain rfl : left = _ := behind
  have same := triviaFrom_of_readEnding _ found
  refine ⟨nofun, fun _ ⟨last, lands⟩ => ⟨last, by rw [← lands, ← same]; rfl⟩, ?_⟩
  rintro (ends | ⟨last, lands⟩)
  · cases ends
  · rw [Cursor.swapped_eq rfl, Cursor.swapped_eq rfl]
    exact .ending (readEnding_colon may lines found lands)

namespace Grammar.Reaches

variable {between : Cursor} {behind : List Tree} {first second : Rule σ}

/-- One rule behind another. -/
theorem seq (front : grammar.Reaches closing more other first at_ trees between)
    (back : grammar.Reaches closing more other second between behind next)
    (joint : second.leads = true ∨ first.ends closing = true) :
    grammar.Reaches closing more other (.seq first second) at_ (trees ++ behind) next where
  sure := front.sure
  leads leads lands := by
    simp only [Rule.leads, Bool.and_eq_true, Bool.or_eq_true] at leads
    rcases leads.2 with sure | leadsBack
    · exact front.sure sure
    · exact front.leads leads.1 (back.leads leadsBack lands)
  swapped ends := by
    rcases ends with ends | lands
    · simp only [Rule.ends, Bool.and_eq_true, Bool.or_eq_true] at ends
      exact .seq (front.swapped (ends.2.imp_right back.sure)) (back.swapped (.inl ends.1))
    · refine .seq (front.swapped ?_) (back.swapped (.inr lands))
      exact joint.symm.imp_right fun leads => back.leads leads lands

end Grammar.Reaches

/-- A derivation that ends in front of a colon does not depend on what is behind it. -/
theorem Grammar.Derives.reaches (joins : grammar.Joins closing) (may : MayReplace more other)
    (derived : grammar.Derives rule at_ trees next) (own : rule.joins closing = true) (lines : LinesEnd at_.rest)
    (before : next.Before more) : grammar.Reaches closing more other rule at_ trees next := by
  induction derived with
  | empty => exact ⟨nofun, fun _ => id, fun _ => .empty⟩
  | without => exact ⟨nofun, fun _ => id, fun _ => .without⟩
  | manyNone => exact ⟨nofun, fun _ => id, fun _ => .manyNone⟩
  | itemsNone => exact ⟨nofun, fun _ => id, fun _ => .itemsNone⟩
  | leaf found => exact reaches_leaf may own found before
  | glued found => exact reaches_glued own found before
  | ending found => exact reaches_ending may lines found before
  | @call symbol _ _ _ _ inner =>
    have inner := inner (joins.joins symbol) lines before
    exact ⟨nofun, fun _ => inner.leads (joins.leads symbol),
      fun ends => .call (inner.swapped (ends.imp_left (joins.ends symbol)))⟩
  | seq frontDerived backDerived front back =>
    simp only [Rule.joins, Bool.and_eq_true, Bool.or_eq_true] at own
    have middle := before.of_suffix (backDerived.suffix joins.strict)
    have lines' := lines.of_suffix (frontDerived.suffix joins.strict)
    exact (front own.1.1 lines middle).seq (back own.1.2 lines' before) own.2
  | first _ inner =>
    simp only [Rule.joins, Bool.and_eq_true] at own
    have inner := inner own.1 lines before
    refine ⟨fun sure => inner.sure ((Bool.and_eq_true _ _).mp sure).1,
      fun leads => inner.leads ((Bool.and_eq_true _ _).mp leads).1,
      fun ends => .first (inner.swapped (ends.imp_left fun ends => ((Bool.and_eq_true _ _).mp ends).1))⟩
  | second _ inner =>
    simp only [Rule.joins, Bool.and_eq_true] at own
    have inner := inner own.2 lines before
    refine ⟨fun sure => inner.sure ((Bool.and_eq_true _ _).mp sure).2,
      fun leads => inner.leads ((Bool.and_eq_true _ _).mp leads).2,
      fun ends => .second (inner.swapped (ends.imp_left fun ends => ((Bool.and_eq_true _ _).mp ends).2))⟩
  | manyMore frontDerived backDerived front back =>
    have parts := own
    simp only [Rule.joins, Bool.and_eq_true, Bool.or_eq_true] at parts
    have middle := before.of_suffix (backDerived.suffix joins.strict)
    have lines' := lines.of_suffix (frontDerived.suffix joins.strict)
    have front := front parts.1 lines middle
    have back := back own lines' before
    refine ⟨nofun, fun leads lands => front.leads leads (back.leads leads lands), ?_⟩
    rintro (ends | lands)
    · exact .manyMore (front.swapped (.inl ends)) (back.swapped (.inl ends))
    · refine .manyMore (front.swapped ?_) (back.swapped (.inr lands))
      exact parts.2.symm.imp_right fun leads => back.leads leads lands
  | itemsMore frontDerived backDerived front back =>
    have parts := own
    simp only [Rule.joins, Bool.and_eq_true, Bool.or_eq_true] at parts
    have middle := before.of_suffix (backDerived.suffix joins.strict)
    have lines' := lines.of_suffix (frontDerived.suffix joins.strict)
    have front := front parts.1 lines middle
    have back := back own lines' before
    refine ⟨nofun, fun leads lands => front.leads leads (back.leads leads lands), ?_⟩
    rintro (ends | lands)
    · exact .itemsMore (front.swapped (.inl ends)) (back.swapped (.inl ends))
    · refine .itemsMore (front.swapped ?_) (back.swapped (.inr lands))
      exact parts.2.symm.imp_right fun leads => back.leads leads lands
  | itemsError tolerant =>
    rw [joins.strict] at tolerant
    cases tolerant
  | node _ inner =>
    have inner := inner own lines before
    exact ⟨inner.sure, inner.leads, fun ends => .node (inner.swapped ends)⟩
  | role _ inner =>
    have inner := inner own lines before
    exact ⟨inner.sure, inner.leads, fun ends => .role (inner.swapped ends)⟩
  | only _ last accepted inner =>
    have inner := inner own lines before
    exact ⟨inner.sure, inner.leads, fun ends => .only (inner.swapped ends) last accepted⟩
  | base _ inner =>
    simp only [Rule.joins, Bool.and_eq_true] at own
    have inner := inner own.1 lines before
    refine ⟨inner.sure, inner.leads, ?_⟩
    rintro (ends | lands)
    · cases ends
    · exact .base (inner.swapped (.inr lands))
  | grown frontDerived tail accepted backDerived front back =>
    have parts := own
    simp only [Rule.joins, Bool.and_eq_true] at parts
    obtain ⟨join, lead⟩ := Rule.joins_of_mem parts.2 tail
    have middle := before.of_suffix (backDerived.suffix joins.strict)
    have lines' := lines.of_suffix (frontDerived.suffix joins.strict)
    have front := front own lines middle
    have back := back join lines' before
    refine ⟨front.sure, fun leads lands => front.leads leads (back.leads lead lands), ?_⟩
    rintro (ends | lands)
    · cases ends
    · exact .grown (front.swapped (.inr (back.leads lead lands))) tail accepted (back.swapped (.inr lands))

end Scaffold.Syntax
