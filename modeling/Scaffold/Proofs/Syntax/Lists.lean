import Scaffold.Proofs.Syntax.Reaching

/-! # Lists around one of their items

The items of a list may be left out, each comma stands for itself. Such a list is taken apart around any item of it, and put
together again.
-/

namespace Scaffold.Syntax

open Scaffold.Text

variable {σ : Type} {grammar : Grammar σ} {item : Rule σ} {at_ between behind next : Cursor}
variable {trees more front middle back : List Tree} {tree : Tree}

namespace Rule

/-- The items in front of one, each with the comma behind it. -/
def earlier (item : Rule σ) : Rule σ := .many (.seq (opt item) (sign ","))

/-- The items behind one, each with the comma in front of it. -/
def further (item : Rule σ) : Rule σ := .many (.seq (sign ",") (opt item))

end Rule

namespace Grammar

theorem Derives.exists_of_seq {first second : Rule σ} (derived : grammar.Derives (.seq first second) at_ trees next) :
    ∃ front between back, trees = front ++ back ∧ grammar.Derives first at_ front between ∧
      grammar.Derives second between back next := by
  cases derived with
  | seq front back => exact ⟨_, _, _, rfl, front, back⟩

theorem Derives.many_concat (front : grammar.Derives (.many item) at_ trees between)
    (last : grammar.Derives item between more next) : grammar.Derives (.many item) at_ (trees ++ more) next := by
  generalize same : Rule.many item = rule at front
  induction front with
  | manyNone =>
    cases same
    have derived := Derives.manyMore last .manyNone
    rwa [List.append_nil] at derived
  | manyMore first _ _ later =>
    cases same
    rw [List.append_assoc]
    exact .manyMore first (later last rfl)
  | _ => cases same

/-- A list is put together around one of its items. -/
theorem Derives.holed (earlier : grammar.Derives (Rule.earlier item) at_ front between)
    (own : grammar.Derives (Rule.opt item) between middle behind)
    (further : grammar.Derives (Rule.further item) behind back next) :
    grammar.Derives (Rule.holed item) at_ (front ++ (middle ++ back)) next := by
  generalize same : Rule.earlier item = rule at earlier
  induction earlier with
  | manyNone => exact (Derives.seq own further :)
  | manyMore first _ _ later =>
    cases same
    obtain ⟨leading, _, comma, rfl, optional, sign⟩ := first.exists_of_seq
    obtain ⟨second, _, others, eq, optional', rest⟩ := (later own rfl).exists_of_seq
    rw [List.append_assoc, eq, List.append_assoc, ← List.append_assoc comma]
    exact .seq optional (.manyMore (.seq sign optional') rest)
  | _ => cases same

/-- A list taken apart around the item that a tree belongs to. -/
inductive Around (grammar : Grammar σ) (item : Rule σ) (at_ : Cursor) (trees : List Tree) (next : Cursor) (tree : Tree) : Prop
  | mk {front middle back : List Tree} {between behind : Cursor} (split : trees = front ++ (middle ++ back))
      (mem : tree ∈ middle) (earlier : grammar.Derives (Rule.earlier item) at_ front between)
      (own : grammar.Derives item between middle behind) (further : grammar.Derives (Rule.further item) behind back next) :
      Around grammar item at_ trees next tree

theorem around_of_opt (earlier : grammar.Derives (Rule.earlier item) at_ front between)
    (own : grammar.Derives (Rule.opt item) between middle behind)
    (further : grammar.Derives (Rule.further item) behind back next) (mem : tree ∈ middle) :
    grammar.Around item at_ (front ++ (middle ++ back)) next tree := by
  cases own with
  | first taken => exact .mk rfl mem earlier taken further
  | second taken =>
    cases taken
    cases mem

theorem not_mem_of_sign {mark : String} (derived : grammar.Derives (Rule.sign mark) at_ trees next)
    (plain : tree.isComment = false) (other : tree.kind ≠ .token mark) : tree ∉ trees := by
  cases derived with
  | leaf found =>
    obtain ⟨comments, start, stop, rfl, areComments⟩ := exists_of_readLeaf found
    intro mem
    rcases List.mem_append.mp mem with mem | mem
    · obtain ⟨_, _, rfl⟩ := areComments tree mem
      cases plain
    · rw [List.mem_singleton.mp mem] at other
      exact other rfl

theorem around_of_further (earlier : grammar.Derives (Rule.earlier item) at_ front between)
    (own : grammar.Derives (Rule.opt item) between middle behind)
    (further : grammar.Derives (Rule.further item) behind back next) (mem : tree ∈ middle ++ back)
    (plain : tree.isComment = false) (other : tree.kind ≠ .token ",") :
    grammar.Around item at_ (front ++ (middle ++ back)) next tree := by
  generalize same : Rule.further item = rule at further
  induction further generalizing front middle between with
  | manyNone =>
    cases same
    rw [List.append_nil] at mem
    exact around_of_opt earlier own .manyNone mem
  | @manyMore _ _ _ _ _ more first others _ later =>
    cases same
    rcases List.mem_append.mp mem with mem | mem
    · exact around_of_opt earlier own (.manyMore first others) mem
    · obtain ⟨comma, _, second, rfl, sign, optional⟩ := first.exists_of_seq
      rw [List.append_assoc, List.mem_append, or_iff_right (not_mem_of_sign sign plain other)] at mem
      have split : front ++ (middle ++ (comma ++ second ++ more)) = front ++ (middle ++ comma) ++ (second ++ more) := by simp
      rw [split]
      exact later (earlier.many_concat (.seq own sign)) optional mem rfl
  | _ => cases same

/-- Where a tree stands in a list. -/
theorem Derives.around (derived : grammar.Derives (Rule.holed item) at_ trees next) (mem : tree ∈ trees)
    (plain : tree.isComment = false) (other : tree.kind ≠ .token ",") : grammar.Around item at_ trees next tree := by
  obtain ⟨first, _, others, rfl, own, further⟩ := derived.exists_of_seq
  exact around_of_further .manyNone own further mem plain other

end Grammar

/-- A mark that is read behind comments. -/
theorem exists_of_sign {mark : String} (isLocal : (Terminal.mark mark []).isLocal = true)
    (derived : grammar.Derives (Rule.sign mark) at_ trees next) :
    ∃ gap, at_.rest = gap ++ (mark.toList ++ next.rest) ∧
      at_.trivia.2 = ⟨at_.offset + width gap, mark.toList ++ next.rest⟩ ∧
        trees = at_.trivia.1 ++ [.node (.token mark) none (at_.offset + width gap) next.offset []] ∧
          next.offset = at_.offset + width gap + width mark.toList := by
  cases derived with
  | leaf found =>
    obtain ⟨gap, taken, behind, split, trivia, token, rfl, rfl⟩ := exists_token_of_leaf isLocal found
    have length := token.length_eq behind id
    obtain rfl : taken = mark.toList := by
      have some_ : (Terminal.mark mark []).length (taken ++ behind) ≠ 0 := by
        rw [length]
        exact fun none_ => token.solid (List.length_eq_zero_iff.mp none_)
      rw [← Terminal.take_length_mark some_, length, List.take_left]
    exact ⟨gap, split, trivia, rfl, rfl⟩

/-! ## In front of a mark -/

theorem nameTailLength_of_break {c : Char} (breaks : isNameBreak c = true) (plain : c ≠ '\\') (rest : List Char) :
    nameTailLength 0 (c :: rest) = 0 := by
  have none_ : unicodeEscapeLength (c :: rest) = 0 := by
    unfold unicodeEscapeLength
    split <;> simp_all
  simp [nameTailLength, breaks, none_]

/-- In front of a mark no name goes on. -/
theorem quiet_of_sign {mark : String} {c : Char} {later : List Char} (isLocal : (Terminal.mark mark []).isLocal = true)
    (begins : mark.toList = c :: later) (breaks : isNameBreak c = true) (plain : c ≠ '\\')
    (derived : grammar.Derives (Rule.sign mark) at_ trees next) : nameTailLength 0 at_.rest = 0 := by
  obtain ⟨gap, split, trivia, -, -⟩ := exists_of_sign isLocal derived
  cases gap with
  | nil =>
    rw [split, begins]
    exact nameTailLength_of_break breaks plain _
  | cons d gap =>
    by_cases separator : isSeparator d = true
    · rw [split]
      refine nameTailLength_of_break (by simp [isNameBreak, separator]) ?_ _
      rintro rfl
      cases separator
    · by_cases slash : d = '/'
      · rw [split, slash]
        exact nameTailLength_of_break (by decide) (by decide) _
      · have here : at_.trivia.2 = ⟨at_.offset, at_.rest⟩ := by
          rw [Cursor.trivia, triviaFrom_of_inky]
          rw [split]
          rintro e ⟨⟩
          exact ⟨Bool.eq_false_iff.mpr separator, slash⟩
        have lengths := congrArg List.length (split.symm.trans (congrArg Cursor.rest (here.symm.trans trivia)))
        simp at lengths
        omega

end Scaffold.Syntax
