import Scaffold.Erasure.Enumeration
import Scaffold.Proofs.Json.Numeral

/-! # Integer literals

A script writes an integer in base ten without a zero in front, or behind a mark in base sixteen, eight or two. Single
underscores may part the digits. Such a literal is read as the integer that it means, and the text of a natural number is
such a literal.
-/

namespace Scaffold.Erasure

/-- A digit of a base up to sixteen; letters may be small or capital ones. -/
def IsDigit (base : Nat) (c : Char) (value : Nat) : Prop :=
  value < base ∧ ("0123456789abcdef".toList[value]? = some c ∨ "0123456789ABCDEF".toList[value]? = some c)

/-- Digits of a base, two of which may have an underscore between them. -/
inductive IsDigits (base : Nat) : List Char → Nat → Prop
  | one {c : Char} {value : Nat} (digit : IsDigit base c value) : IsDigits base [c] value
  | more {text : List Char} {c : Char} {value last : Nat} (digits : IsDigits base text value)
      (digit : IsDigit base c last) : IsDigits base (text ++ [c]) (value * base + last)
  | parted {text : List Char} {c : Char} {value last : Nat} (digits : IsDigits base text value)
      (digit : IsDigit base c last) : IsDigits base (text ++ ['_', c]) (value * base + last)

/-- The marks of the bases other than ten. -/
def baseMarks : List (Char × Nat) := [('x', 16), ('X', 16), ('o', 8), ('O', 8), ('b', 2), ('B', 2)]

/-- The integers that literals mean. -/
inductive IsInteger : List Char → Nat → Prop
  | zero : IsInteger ['0'] 0
  | decimal {first : Char} {later : List Char} {value : Nat} (digits : IsDigits 10 (first :: later) value)
      (nonzero : first ≠ '0') : IsInteger (first :: later) value
  | marked {mark : Char} {base : Nat} {text : List Char} {value : Nat} (mem : (mark, base) ∈ baseMarks)
      (digits : IsDigits base text value) : IsInteger ('0' :: mark :: text) value

variable {base value : Nat} {c : Char} {text : List Char}

theorem IsDigit.spec (digit : IsDigit base c value) (le : base ≤ 16) : digitValue c = value ∧ c ≠ '_' := by
  have each (value : Nat) (lt : value < 16) : ∀ digits ∈ ["0123456789abcdef".toList, "0123456789ABCDEF".toList],
      (digits[value]?).all (fun c => digitValue c = value && c ≠ '_') = true := by
    revert value
    decide
  obtain ⟨lt, found⟩ := digit
  obtain ⟨digits, mem, at_⟩ : ∃ digits ∈ ["0123456789abcdef".toList, "0123456789ABCDEF".toList], digits[value]? = some c := by
    rcases found with small | capital
    · exact ⟨_, List.mem_cons_self, small⟩
    · exact ⟨_, List.mem_cons_of_mem _ List.mem_cons_self, capital⟩
  have holds := each value (Nat.lt_of_lt_of_le lt le) digits mem
  rw [at_, Option.all_some, Bool.and_eq_true, decide_eq_true_eq, decide_eq_true_eq] at holds
  exact holds

theorem digitsValue?_eq_some_iff : digitsValue? base text = some value ↔ text ≠ [] ∧ (∀ c ∈ text, digitValue c < base) ∧
    text.foldl (fun value c => value * base + digitValue c) 0 = value := by
  simp [digitsValue?, and_assoc]

/-- One more digit behind. -/
theorem digitsValue?_append {last : Nat} (front : digitsValue? base text = some value) (digit : IsDigit base c last)
    (le : base ≤ 16) : digitsValue? base (text ++ [c]) = some (value * base + last) := by
  obtain ⟨-, all, folded⟩ := digitsValue?_eq_some_iff.mp front
  obtain ⟨eq, -⟩ := digit.spec le
  refine digitsValue?_eq_some_iff.mpr ⟨by simp, List.forall_mem_append.mpr ⟨all, ?_⟩, ?_⟩
  · rw [List.forall_mem_singleton, eq]
    exact digit.1
  · rw [List.foldl_append, folded, List.foldl_cons, eq]
    rfl

/-- Without the underscores, digits are read as their value. -/
theorem IsDigits.spec (digits : IsDigits base text value) (le : base ≤ 16) :
    digitsValue? base (text.filter (· ≠ '_')) = some value := by
  induction digits with
  | one digit =>
    obtain ⟨eq, other⟩ := digit.spec le
    have below := digit.1
    simp [digitsValue?_eq_some_iff, other, eq, below]
  | more _ digit front | parted _ digit front =>
    have other := (digit.spec le).2
    simpa [List.filter_append, other] using digitsValue?_append front digit le

/-- Digits begin with a digit. -/
theorem IsDigits.exists_cons (digits : IsDigits base text value) (le : base ≤ 16) :
    ∃ first later, text = first :: later ∧ first ≠ '_' := by
  induction digits with
  | one digit => exact ⟨_, [], rfl, (digit.spec le).2⟩
  | more _ _ front | parted _ _ front =>
    obtain ⟨first, later, rfl, other⟩ := front
    exact ⟨first, later ++ _, rfl, other⟩

/-- An integer literal is read as the integer that it means. -/
theorem IsInteger.spec (integer : IsInteger text value) : integerLiteral? (text.filter (· ≠ '_')) = some value := by
  cases integer with
  | zero => decide
  | @decimal first later value digits nonzero =>
    have read := digits.spec (by decide)
    obtain ⟨_, _, ⟨⟩, other⟩ := digits.exists_cons (by decide)
    have stays : (first :: later).filter (· ≠ '_') = first :: later.filter (· ≠ '_') := by simp [other]
    rw [stays] at read ⊢
    unfold integerLiteral?
    split
    · next same => exact absurd (List.cons.inj same).1 nonzero
    · exact read
  | @marked mark base text value mem digits =>
    simp only [baseMarks, List.mem_cons, Prod.mk.injEq, List.not_mem_nil, or_false] at mem
    rcases mem with ⟨rfl, rfl⟩ | ⟨rfl, rfl⟩ | ⟨rfl, rfl⟩ | ⟨rfl, rfl⟩ | ⟨rfl, rfl⟩ | ⟨rfl, rfl⟩ <;>
      exact digits.spec (by decide)

/-- A literal means one integer. -/
theorem IsInteger.unique {other : Nat} (integer : IsInteger text value) (same : IsInteger text other) : other = value :=
  Option.some.inj (same.spec.symm.trans integer.spec)

end Scaffold.Erasure
