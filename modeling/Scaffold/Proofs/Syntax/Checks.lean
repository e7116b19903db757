import Scaffold.Proofs.Syntax.Program

/-! # Checks of the rules of the language

What a proof needs to know of the rules is put as a check that computes: one of the constructs, by their kinds and
bodies, and one of the tails. When the rules of all symbols pass it, all constructs in the tree of a file come from
bodies that pass it.
-/

namespace Scaffold.Syntax

open Scaffold.Text

namespace Shape

variable {forms tails : Kind → Shape → Bool}

mutual

/-- Whether all constructs of a rule pass a check, and all its tails another one. -/
def passes (forms tails : Kind → Shape → Bool) : Shape → Bool
  | .node kind body => forms kind body && passes forms tails body
  | .seq first second | .alt first second => passes forms tails first && passes forms tails second
  | .many body | .items body | .role _ body | .only _ body => passes forms tails body
  | .grow base _ others => passes forms tails base && passAll forms tails others
  | _ => true

def passAll (forms tails : Kind → Shape → Bool) : List (Tail Symbol) → Bool
  | [] => true
  | .mk _ kind _ body :: later => tails kind body && passes forms tails body && passAll forms tails later

end

theorem passAll_append (front back : List (Tail Symbol)) :
    passAll forms tails (front ++ back) = (passAll forms tails front && passAll forms tails back) := by
  induction front with
  | nil => rfl
  | cons tail later splits =>
    obtain ⟨accepts, kind, role, body⟩ := tail
    rw [List.cons_append, passAll, splits, passAll]
    simp only [Bool.and_assoc]

theorem passAll_ite {condition : Prop} [Decidable condition] {others : List (Tail Symbol)}
    (pass : passAll forms tails others = true) : passAll forms tails (if condition then others else []) = true := by
  split
  · exact pass
  · rfl

theorem passes_of_mem {others : List (Tail Symbol)} (pass : passAll forms tails others = true) {accepts : Kind → Bool}
    {kind : Kind} {role : Option Role} {body : Shape} (mem : .mk accepts kind role body ∈ others) :
    tails kind body = true ∧ passes forms tails body = true := by
  induction others with
  | nil => cases mem
  | cons tail later found =>
    obtain ⟨otherAccepts, otherKind, otherRole, otherBody⟩ := tail
    simp only [passAll, Bool.and_eq_true] at pass
    cases mem with
    | head => exact pass.1
    | tail _ mem => exact found pass.2 mem

mutual

theorem all_of_passes {accepted : Kind → Prop} (accept : ∀ kind body, tails kind body = true → accepted kind) :
    ∀ shape : Shape, passes forms tails shape = true →
      shape.All (fun kind body => forms kind body = true ∧ passes forms tails body = true) accepted
  | .empty, _ | .never, _ | .leaf _ _, _ | .glued _ _, _ | .ending _, _ | .call _, _ | .without _, _ => trivial
  | .node _ body, pass =>
    let ⟨own, below⟩ := (Bool.and_eq_true _ _).mp pass
    ⟨⟨own, below⟩, all_of_passes accept body below⟩
  | .seq first second, pass | .alt first second, pass =>
    let ⟨front, back⟩ := (Bool.and_eq_true _ _).mp pass
    ⟨all_of_passes accept first front, all_of_passes accept second back⟩
  | .many body, pass | .items body, pass | .role _ body, pass | .only _ body, pass => all_of_passes accept body pass
  | .grow base _ others, pass =>
    let ⟨front, back⟩ := (Bool.and_eq_true _ _).mp pass
    ⟨all_of_passes accept base front, allIn_of_passAll accept others back⟩

theorem allIn_of_passAll {accepted : Kind → Prop} (accept : ∀ kind body, tails kind body = true → accepted kind) :
    ∀ others : List (Tail Symbol), passAll forms tails others = true →
      Tail.AllIn (fun kind body => forms kind body = true ∧ passes forms tails body = true) accepted others
  | [], _ => trivial
  | .mk _ kind _ body :: later, pass =>
    let ⟨own, rest⟩ := (Bool.and_eq_true _ _).mp pass
    let ⟨tail, below⟩ := (Bool.and_eq_true _ _).mp own
    ⟨⟨accept kind body tail, all_of_passes accept body below⟩, allIn_of_passAll accept later rest⟩

end

end Shape

/-- The rule of a whole file. -/
def Shape.file : Shape := .seq (Rule.opt (.glued .hashBang .hashBang)) (.items Shape.statement)

/-- The tree of a file holds what its rule derives, and the comments behind that. -/
theorem Dialect.exists_reading_of_parse {dialect : Dialect} {text : List Char} {root : Tree}
    (parsed : dialect.parse (encodeChars text) = .ok root) :
    ∃ trees stop, root = .node .program none 0 (encodeChars text).length (trees ++ stop.trivia.1) ∧
      (dialect.grammar false).Derives Shape.file ⟨0, text⟩ trees stop := by
  have derived : ∃ trees stop, dialect.statements false (encodeChars text) = (trees, stop) ∧
      (dialect.grammar false).Derives Shape.file ⟨0, text⟩ trees stop := by
    unfold statements
    rw [decodeLossy_encodeChars]
    dsimp only
    split
    · next found found_eq => exact ⟨found.1, found.2, rfl, Grammar.derives_of_read found_eq⟩
    · exact ⟨[], ⟨0, text⟩, rfl, .seq (.second .empty) .itemsNone⟩
  obtain ⟨trees, stop, read, derived⟩ := derived
  unfold parse at parsed
  rw [read] at parsed
  dsimp only at parsed
  split at parsed
  · cases parsed
    exact ⟨trees, stop, rfl, derived⟩
  · split at parsed <;> cases parsed

/-- The comments behind what the rule derives have no children. -/
theorem Dialect.exists_derivation_of_parse {dialect : Dialect} {text : List Char} {root : Tree}
    (parsed : dialect.parse (encodeChars text) = .ok root) :
    ∃ trees comments next, root = .node .program none 0 (encodeChars text).length (trees ++ comments) ∧
      (dialect.grammar false).Derives Shape.file ⟨0, text⟩ trees next ∧
        ∀ tree ∈ comments, tree.isComment = true ∧ tree.children = [] := by
  obtain ⟨trees, stop, rfl, derived⟩ := Dialect.exists_reading_of_parse parsed
  refine ⟨trees, stop.trivia.1, stop, rfl, derived, fun tree mem => ?_⟩
  obtain ⟨start, stop, rfl⟩ := triviaFrom_comments _ 0 _ tree mem
  exact ⟨rfl, rfl⟩

end Scaffold.Syntax
