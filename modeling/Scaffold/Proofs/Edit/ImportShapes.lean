import Scaffold.Edit.NamedImport
import Scaffold.Proofs.Text.Stretches
import Scaffold.Proofs.Text.Widening

/-! # The shapes of the imports of a name

What the three patterns match, said without them: an import of the name as the default, among others in braces, or as the
module, and behind it white space and a semicolon. White space that is taken out in front of line feeds makes no such import.
-/

namespace Scaffold.Edit

open Scaffold.Text Pattern

variable {name taken text rest : Bytes} {before : Option UInt8}

/-- White space, some of it. -/
def IsGap (bytes : Bytes) : Prop := bytes ≠ [] ∧ ∀ b ∈ bytes, isBlankByte b = true

/-- A module between quotes, which may differ. -/
def IsQuoted (bytes : Bytes) : Prop :=
  ∃ opening inner closing, bytes = opening :: (inner ++ [closing]) ∧ isQuote opening = true ∧ isQuote closing = true ∧
    inner ≠ [] ∧ ∀ b ∈ inner, isQuote b = false

/-- The three shapes. -/
inductive Shape where
  | default
  | braced
  | effect
  deriving DecidableEq, Repr

def Shape.pattern (name : Bytes) : Shape → Pattern UInt8
  | .default => defaultImport name
  | .braced => bracedImport name
  | .effect => effectImport name

/-- The import of a name in one of the shapes. In braces, no ASCII character goes on with the name. -/
inductive Imports (name : Bytes) : Shape → Bytes → Prop
  | default {first second third source : Bytes} (gap : IsGap first) (behind : IsGap second) (last : IsGap third)
      (quoted : IsQuoted source) :
      Imports name .default (encode "import" ++ (first ++ (name ++ (second ++ (encode "from" ++ (third ++ source))))))
  | braced {first front back second third source : Bytes} (gap : ∀ b ∈ first, isBlankByte b = true)
      (inFront : ∀ b ∈ front, isNotBrace b = true) (begins : front.getLast?.any isNameByte = false)
      (ends : (back ++ [125]).head?.any isNameByte = false) (inside : ∀ b ∈ back, isNotBrace b = true)
      (behind : ∀ b ∈ second, isBlankByte b = true) (last : IsGap third) (quoted : IsQuoted source) :
      Imports name .braced (encode "import" ++ (first ++ (123 :: (front ++ (name ++ (back ++ (125 :: (second ++
        (encode "from" ++ (third ++ source))))))))))
  | effect {gap : Bytes} {opening closing : UInt8} (between : IsGap gap) (opens : isQuote opening = true)
      (closes : isQuote closing = true) :
      Imports name .effect (encode "import" ++ (gap ++ opening :: (name ++ [closing])))

/-! ## What the patterns match -/

@[simp] theorem matches_keyword_iff {word : String} : (keyword word).Matches before taken rest ↔ taken = encode word :=
  matches_literal_iff

@[simp] theorem matches_byte_iff {b : UInt8} : (byte b).Matches before taken rest ↔ taken = [b] := by
  rw [byte, matches_one_iff]
  simp

@[simp] theorem matches_white_iff : white.Matches before taken rest ↔ ∀ b ∈ taken, isBlankByte b = true :=
  matches_many_iff

@[simp] theorem matches_whites_iff : whites.Matches before taken rest ↔ IsGap taken :=
  matches_some_iff

@[simp] theorem matches_quotedModule_iff : quotedModule.Matches before taken rest ↔ IsQuoted taken := by
  simp only [quotedModule, seqs, matches_seq_iff, matches_one_iff, matches_some_iff, Bool.not_eq_true']
  constructor
  · rintro ⟨_, _, rfl, ⟨opening, rfl, opens⟩, inner, _, rfl, ⟨some_, plain⟩, closing, rfl, closes⟩
    exact ⟨opening, inner, closing, rfl, opens, closes, some_, plain⟩
  · rintro ⟨opening, inner, closing, rfl, opens, closes, some_, plain⟩
    exact ⟨[opening], _, rfl, ⟨opening, rfl, opens⟩, inner, _, rfl, ⟨some_, plain⟩, closing, rfl, closes⟩

/-- A byte that goes with an import in front of it. -/
def isEndByte (b : UInt8) : Bool := isBlankByte b || b = 59

theorem isEndByte_of_statementEnd (found : statementEnd.Matches before taken rest) : ∀ b ∈ taken, isEndByte b = true := by
  simp only [statementEnd, seqs, matches_seq_iff, matches_opt_iff, matches_byte_iff, matches_white_iff, matches_many_iff]
    at found
  obtain ⟨front, _, rfl, blank, semicolon, _, rfl, one, indent, _, rfl, spaces, return_, feed, rfl, carriage, line⟩ := found
  have blankEnds (b : UInt8) (blank : isBlankByte b = true) : isEndByte b = true := by rw [isEndByte, blank]; rfl
  simp only [List.forall_mem_append]
  refine ⟨fun b mem => blankEnds b (blank b mem), ?_, fun b mem => blankEnds b (isBlankByte_of_isIndent (spaces b mem)), ?_, ?_⟩
  · rcases one with rfl | rfl <;> decide +kernel
  · rcases carriage with rfl | rfl <;> decide +kernel
  · rcases line with rfl | rfl <;> decide +kernel

/-- Nothing need go with an import. -/
theorem matches_statementEnd_nil : statementEnd.Matches before [] rest := by
  simp only [statementEnd, seqs, matches_seq_iff, matches_opt_iff, matches_byte_iff, matches_white_iff, matches_many_iff]
  have none_ (accepts : UInt8 → Prop) : ∀ b ∈ ([] : Bytes), accepts b := List.forall_mem_nil accepts
  exact ⟨[], [], rfl, none_ _, [], [], rfl, .inr rfl, [], [], rfl, none_ _, [], [], rfl, .inr rfl, .inr rfl⟩

theorem matches_defaultImport_iff : (defaultImport name).Matches before taken rest ↔
    ∃ own tail, taken = own ++ tail ∧ Imports name .default own ∧ statementEnd.Matches (own.getLast?.or before) tail rest := by
  simp only [defaultImport, seqs, matches_seq_iff, matches_keyword_iff, matches_whites_iff, matches_literal_iff,
    matches_quotedModule_iff]
  constructor
  · rintro ⟨_, _, rfl, rfl, first, _, rfl, gap, _, _, rfl, rfl, second, _, rfl, behind, _, _, rfl, rfl, third, _, rfl, last,
      source, tail, rfl, quoted, ended⟩
    refine ⟨_, tail, ?_, .default gap behind last quoted, ?_⟩
    · simp only [List.append_assoc]
    · simpa only [getLast?_append_or] using ended
  · rintro ⟨_, tail, rfl, ⟨gap, behind, last, quoted⟩, ended⟩
    simp only [List.append_assoc]
    refine ⟨_, _, rfl, rfl, _, _, rfl, gap, _, _, rfl, rfl, _, _, rfl, behind, _, _, rfl, rfl, _, _, rfl, last, _, tail, rfl,
      quoted, ?_⟩
    simpa only [getLast?_append_or] using ended

/-- The opening brace itself goes on with no name. -/
theorem isNameByte_getD_iff {last : Option UInt8} : isNameByte (last.getD 123) = false ↔ last.any isNameByte = false := by
  cases last with
  | none => exact iff_of_true (by decide) rfl
  | some b => exact Iff.rfl

theorem matches_bracedImport_iff : (bracedImport name).Matches before taken rest ↔
    ∃ own tail, taken = own ++ tail ∧ Imports name .braced own ∧ statementEnd.Matches (own.getLast?.or before) tail rest := by
  simp only [bracedImport, seqs, matches_seq_iff, matches_keyword_iff, matches_white_iff, matches_whites_iff,
    matches_literal_iff, matches_byte_iff, matches_many_iff, matches_notAfter_iff, matches_notBefore_one_iff,
    matches_quotedModule_iff]
  constructor
  · rintro ⟨_, _, rfl, rfl, first, _, rfl, gap, _, _, rfl, rfl, front, _, rfl, inFront, _, _, rfl, ⟨rfl, begins⟩, _, _, rfl, rfl,
      _, _, rfl, ⟨rfl, ends⟩, back, _, rfl, inside, _, _, rfl, rfl, second, _, rfl, behind, _, _, rfl, rfl, third, _, rfl, last,
      source, tail, rfl, quoted, ended⟩
    refine ⟨_, tail, ?_, .braced gap inFront ?_ ?_ inside behind last quoted, ?_⟩
    · simp
    · simpa [isNameByte_getD_iff] using begins
    · simpa using ends
    · rw [← List.singleton_append, ← List.singleton_append (x := 125)]
      simpa only [getLast?_append_or, List.getLast?_nil, Option.none_or] using ended
  · rintro ⟨_, tail, rfl, _ | ⟨gap, inFront, begins, ends, inside, behind, last, quoted⟩, ended⟩
    rw [← List.singleton_append, ← List.singleton_append (x := 125)] at ended ⊢
    simp only [List.append_assoc]
    refine ⟨_, _, rfl, rfl, _, _, rfl, gap, _, _, rfl, rfl, _, _, rfl, inFront, [], _, rfl, ⟨rfl, ?_⟩, _, _, rfl, rfl,
      [], _, rfl, ⟨rfl, ?_⟩, _, _, rfl, inside, _, _, rfl, rfl, _, _, rfl, behind, _, _, rfl, rfl, _, _, rfl, last,
      _, tail, rfl, quoted, ?_⟩
    · simpa [isNameByte_getD_iff] using begins
    · simpa using ends
    · simpa only [getLast?_append_or, List.getLast?_nil, Option.none_or] using ended

theorem matches_effectImport_iff : (effectImport name).Matches before taken rest ↔
    ∃ own tail, taken = own ++ tail ∧ Imports name .effect own ∧ statementEnd.Matches (own.getLast?.or before) tail rest := by
  simp only [effectImport, seqs, matches_seq_iff, matches_keyword_iff, matches_whites_iff, matches_literal_iff, matches_one_iff]
  constructor
  · rintro ⟨_, _, rfl, rfl, gap, _, rfl, between, _, _, rfl, ⟨opening, rfl, opens⟩, _, _, rfl, rfl, _, tail, rfl,
      ⟨closing, rfl, closes⟩, ended⟩
    refine ⟨_, tail, ?_, .effect between opens closes, ?_⟩
    · simp
    · rw [← List.singleton_append]
      simpa only [getLast?_append_or] using ended
  · rintro ⟨_, tail, rfl, _ | _ | ⟨between, opens, closes⟩, ended⟩
    rw [← List.singleton_append] at ended ⊢
    simp only [List.append_assoc]
    refine ⟨_, _, rfl, rfl, _, _, rfl, between, _, _, rfl, ⟨_, rfl, opens⟩, _, _, rfl, rfl, _, tail, rfl, ⟨_, rfl, closes⟩, ?_⟩
    simpa only [getLast?_append_or] using ended

/-- A pattern matches the imports of its shape, with what goes along with them. -/
theorem matches_pattern_iff (shape : Shape) : (shape.pattern name).Matches before taken rest ↔
    ∃ own tail, taken = own ++ tail ∧ Imports name shape own ∧ statementEnd.Matches (own.getLast?.or before) tail rest := by
  cases shape with
  | default => exact matches_defaultImport_iff
  | braced => exact matches_bracedImport_iff
  | effect => exact matches_effectImport_iff

theorem ends_pattern_eq_nil_iff (shape : Shape) : (shape.pattern name).ends ⟨before, text⟩ = [] ↔
    ∀ own rest, text = own ++ rest → ¬ Imports name shape own := by
  rw [ends_eq_nil_iff]
  constructor
  · rintro none own rest rfl imports
    refine none own rest rfl ((matches_pattern_iff shape).mpr ⟨own, [], ?_, imports, matches_statementEnd_nil⟩)
    exact (List.append_nil own).symm
  · rintro none taken rest rfl found
    obtain ⟨own, tail, rfl, imports, -⟩ := (matches_pattern_iff shape).mp found
    exact none own (tail ++ rest) (List.append_assoc own tail rest) imports

/-- A match takes an import of the shape, with what goes along with it. -/
theorem exists_matchLength? {shape : Shape} {own : Bytes} (imports : Imports name shape own) (before : Option UInt8)
    (rest : Bytes) : ∃ found tail more, own ++ rest = found ++ (tail ++ more) ∧ Imports name shape found ∧
      (∀ b ∈ tail, isEndByte b = true) ∧
      (shape.pattern name).matchLength? before (own ++ rest) = some (found.length + tail.length) := by
  cases head : ((shape.pattern name).ends ⟨before, own ++ rest⟩).head? with
  | none =>
    have none := (ends_pattern_eq_nil_iff shape).mp (List.head?_eq_none_iff.mp head)
    exact absurd imports (none own rest rfl)
  | some next =>
    obtain ⟨taken, split, -, matched⟩ := exists_matches_of_mem_ends (List.mem_of_mem_head? head)
    obtain ⟨found, tail, rfl, imports, ended⟩ := (matches_pattern_iff shape).mp matched
    refine ⟨found, tail, next.rest, ?_, imports, isEndByte_of_statementEnd ended, ?_⟩
    · rw [← List.append_assoc]
      exact split
    · rw [matchLength?, head, Option.map_some, show own ++ rest = found ++ tail ++ next.rest from split, List.length_append,
        Nat.add_sub_cancel, List.length_append]

/-! ## An import begins with its word -/

theorem Imports.eq_append {shape : Shape} (imports : Imports name shape taken) :
    ∃ rest, taken = encode "import" ++ rest := by
  cases imports with
  | default => exact ⟨_, rfl⟩
  | braced => exact ⟨_, rfl⟩
  | effect => exact ⟨_, rfl⟩

end Scaffold.Edit
