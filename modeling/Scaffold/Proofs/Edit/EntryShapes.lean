import Scaffold.Proofs.Edit.ImportShapes
import Scaffold.Proofs.Text.Cuts
import Scaffold.Edit.ArrayEntry

/-! # What the pattern of an entry matches

In a file that does not fit the grammar an entry is a name with parentheses behind it, in which parentheses are nested at
most once, or a value in quotes. The pattern takes the blanks around it, one comma and a line break along with it.
-/

namespace Scaffold.Edit

open Scaffold.Text Pattern

variable {before : Option UInt8} {bytes taken text rest inner : Bytes} {target : EntryTarget}

/-! ## Parentheses -/

/-- What closes one or two parentheses that are open. It opens another one only where no more than one is open. -/
inductive Closes : Nat → Bytes → Prop
  | last : Closes 1 [41]
  | close {rest : Bytes} (later : Closes 1 rest) : Closes 2 (41 :: rest)
  | opening {rest : Bytes} (later : Closes 2 rest) : Closes 1 (40 :: rest)
  | plain {depth : Nat} {b : UInt8} {rest : Bytes} (plain : isPlainByte b = true) (later : Closes depth rest) :
      Closes depth (b :: rest)

theorem Closes.append_plain {depth : Nat} (plain : ∀ b ∈ bytes, isPlainByte b = true) (closes : Closes depth rest) :
    Closes depth (bytes ++ rest) := by
  induction bytes with
  | nil => exact closes
  | cons b bytes later =>
    obtain ⟨own, others⟩ := List.forall_mem_cons.mp plain
    exact .plain own (later others)

/-- A part of what stands between parentheses: a byte, or parentheses with none in them. -/
inductive IsArgumentPart : Bytes → Prop
  | byte {b : UInt8} (plain : isPlainByte b = true) : IsArgumentPart [b]
  | nested {inner : Bytes} (plain : ∀ b ∈ inner, isPlainByte b = true) : IsArgumentPart (40 :: (inner ++ [41]))

/-- What closes parentheses is made of parts. -/
theorem Closes.exists_parts {depth : Nat} (closes : Closes depth bytes) :
    (depth = 1 → ∃ parts : List Bytes, bytes = parts.flatten ++ [41] ∧ ∀ part ∈ parts, IsArgumentPart part) ∧
      (depth = 2 → ∃ inner, (∀ b ∈ inner, isPlainByte b = true) ∧ ∃ parts : List Bytes,
        bytes = inner ++ 41 :: (parts.flatten ++ [41]) ∧ ∀ part ∈ parts, IsArgumentPart part) := by
  induction closes with
  | last => exact ⟨fun _ => ⟨[], rfl, nofun⟩, nofun⟩
  | close _ later =>
    obtain ⟨parts, rfl, each⟩ := later.1 rfl
    exact ⟨nofun, fun _ => ⟨[], nofun, parts, rfl, each⟩⟩
  | opening _ later =>
    obtain ⟨inner, plain, parts, rfl, each⟩ := later.2 rfl
    refine ⟨fun _ => ⟨(40 :: (inner ++ [41])) :: parts, by simp, List.forall_mem_cons.mpr ⟨.nested plain, each⟩⟩, nofun⟩
  | @plain depth b rest plain _ later =>
    constructor
    · intro one
      obtain ⟨parts, rfl, each⟩ := later.1 one
      exact ⟨[b] :: parts, rfl, List.forall_mem_cons.mpr ⟨.byte plain, each⟩⟩
    · intro two
      obtain ⟨inner, others, parts, rfl, each⟩ := later.2 two
      exact ⟨b :: inner, List.forall_mem_cons.mpr ⟨plain, others⟩, parts, rfl, each⟩

/-- A part as the pattern has it. -/
def argumentPart : Pattern UInt8 := alt (one isPlainByte) (seqs [byte 40, many isPlainByte, byte 41])

theorem isArgumentPart_of_takes (takes : argumentPart.Takes bytes) : IsArgumentPart bytes := by
  rcases takes with ⟨b, rfl, plain⟩ | ⟨_, _, rfl, ⟨opening, rfl, opens⟩, inner, _, rfl, plain, closing, rfl, closes⟩
  · exact .byte plain
  · obtain rfl := of_decide_eq_true opens
    obtain rfl := of_decide_eq_true closes
    exact .nested plain

theorem IsArgumentPart.matches (part : IsArgumentPart bytes) (before : Option UInt8) (rest : Bytes) :
    argumentPart.Matches before bytes rest := by
  cases part with
  | byte plain => exact List.mem_append_left _ (matches_one_iff.mpr ⟨_, rfl, plain⟩)
  | @nested inner plain =>
    refine List.mem_append_right _ (matches_seq_iff.mpr ⟨[40], inner ++ [41], rfl, matches_byte_iff.mpr rfl, ?_⟩)
    exact matches_seq_iff.mpr ⟨inner, [41], rfl, matches_many_iff.mpr plain, matches_byte_iff.mpr rfl⟩

theorem IsArgumentPart.closes (part : IsArgumentPart bytes) (closes : Closes 1 rest) : Closes 1 (bytes ++ rest) := by
  cases part with
  | byte plain => exact .plain plain closes
  | nested plain =>
    rw [List.cons_append, List.append_assoc]
    exact .opening (.append_plain plain (.close closes))

theorem closes_of_parts {parts : List Bytes} (each : ∀ part ∈ parts, IsArgumentPart part) : Closes 1 (parts.flatten ++ [41]) := by
  induction parts with
  | nil => exact .last
  | cons part parts closed =>
    obtain ⟨own, others⟩ := List.forall_mem_cons.mp each
    rw [List.flatten_cons, List.append_assoc]
    exact own.closes (closed others)

/-- The pattern of arguments matches an opening parenthesis with what closes it. -/
theorem matches_argumentsPattern_iff :
    argumentsPattern.Matches before taken rest ↔ ∃ inner, taken = 40 :: inner ∧ Closes 1 inner := by
  constructor
  · intro found
    obtain ⟨_, _, rfl, opens, found⟩ := matches_seq_iff.mp found
    obtain ⟨middle, _, rfl, repeated, closes⟩ := matches_seq_iff.mp found
    obtain rfl := matches_byte_iff.mp opens
    obtain rfl := matches_byte_iff.mp closes
    obtain ⟨parts, rfl, each⟩ := repeated.takes
    exact ⟨parts.flatten ++ [41], rfl, closes_of_parts fun part mem => isArgumentPart_of_takes (each part mem)⟩
  · rintro ⟨inner, rfl, closes⟩
    obtain ⟨parts, rfl, each⟩ := closes.exists_parts.1 rfl
    refine matches_seq_iff.mpr ⟨[40], _, rfl, matches_byte_iff.mpr rfl, ?_⟩
    refine matches_seq_iff.mpr ⟨parts.flatten, [41], rfl, ?_, matches_byte_iff.mpr rfl⟩
    refine matches_star parts _ _ (fun part mem => ?_) fun part mem before rest => (each part mem).matches before rest
    cases each part mem <;> exact List.cons_ne_nil _ _

/-! ## Entries -/

/-- An entry as it is written. -/
inductive IsEntry : EntryTarget → Bytes → Prop
  | plugin {name : String} {gap inner : Bytes} (blank : ∀ b ∈ gap, isBlankByte b = true) (closes : Closes 1 inner) :
      IsEntry (.plugin name) (encode name ++ (gap ++ 40 :: inner))
  | literal {value : String} {first last : UInt8} (opens : isQuote first = true) (closes : isQuote last = true) :
      IsEntry (.literal value) (first :: (encode value ++ [last]))

/-- A byte behind which a name goes on, or belongs to an object. -/
def isJoint (b : UInt8) : Bool := isNameByte b || b = 46

/-- An entry may stand behind a byte: a name begins there. -/
def EntryTarget.MayFollow : EntryTarget → Option UInt8 → Prop
  | plugin _, before => before.any isJoint = false
  | literal _, _ => True

theorem EntryTarget.mayFollow_none (target : EntryTarget) : target.MayFollow none := by
  cases target
  · rfl
  · trivial

/-- What may follow an entry and go with it. -/
def isTailByte (b : UInt8) : Bool := isIndent b || b = 44 || b = 13 || b = lineFeed

theorem isTailByte_of_entryEnd (takes : entryEnd.Takes taken) : ∀ b ∈ taken, isTailByte b = true := by
  have indents {run : Bytes} (each : ∀ b ∈ run, isIndent b = true) : ∀ b ∈ run, isTailByte b = true := by
    intro b mem
    simp [isTailByte, each b mem]
  have single {run : Bytes} {c : UInt8} (tail : isTailByte c = true) (takes : (opt (byte c)).Takes run) :
      ∀ b ∈ run, isTailByte b = true := by
    rcases takes with ⟨b, rfl, same⟩ | rfl
    · rw [List.forall_mem_singleton, of_decide_eq_true same]
      exact tail
    · exact nofun
  obtain ⟨first, _, rfl, blanks, comma, _, rfl, commas, second, feed, rfl, others, feeds⟩ := takes
  have last : ∀ b ∈ feed, isTailByte b = true := by
    rcases feeds with ⟨return_, _, rfl, returns, b, rfl, same⟩ | rfl
    · rw [List.forall_mem_append, List.forall_mem_singleton, of_decide_eq_true same]
      exact ⟨single (by decide) returns, by decide⟩
    · exact nofun
  simp only [List.forall_mem_append]
  exact ⟨indents blanks, single (by decide) commas, indents others, last⟩

theorem matches_entryEnd_nil : entryEnd.Matches before [] rest := by
  have blanks {before : Option UInt8} {rest : Bytes} : (many isIndent).Matches before [] rest := matches_many_iff.mpr nofun
  refine matches_seq_iff.mpr ⟨[], [], rfl, blanks, matches_seq_iff.mpr ⟨[], [], rfl, matches_opt_iff.mpr (.inr rfl), ?_⟩⟩
  exact matches_seq_iff.mpr ⟨[], [], rfl, blanks, matches_opt_iff.mpr (.inr rfl)⟩

/-- A match of the pattern takes an entry, with blanks in front of it and what goes with it behind. -/
theorem exists_of_matches_entry (found : target.pattern.Matches before taken rest) : ∃ blanks entry tail,
    taken = blanks ++ (entry ++ tail) ∧ (∀ b ∈ blanks, isIndent b = true) ∧ IsEntry target entry ∧
      target.MayFollow (blanks.getLast?.or before) ∧ ∀ b ∈ tail, isTailByte b = true := by
  cases target with
  | plugin name =>
    obtain ⟨blanks, _, rfl, indent, found⟩ := matches_seq_iff.mp found
    obtain ⟨_, _, rfl, apart, found⟩ := matches_seq_iff.mp found
    obtain ⟨_, _, rfl, word, found⟩ := matches_seq_iff.mp found
    obtain ⟨gap, _, rfl, white, found⟩ := matches_seq_iff.mp found
    obtain ⟨_, tail, rfl, arguments, ends⟩ := matches_seq_iff.mp found
    obtain ⟨rfl, free⟩ := matches_notAfter_iff.mp apart
    obtain rfl := matches_literal_iff.mp word
    obtain ⟨inner, rfl, closes⟩ := matches_argumentsPattern_iff.mp arguments
    refine ⟨blanks, encode name ++ (gap ++ 40 :: inner), tail, by simp, matches_many_iff.mp indent,
      .plugin (matches_many_iff.mp white) closes, free, isTailByte_of_entryEnd ends.takes⟩
  | literal value =>
    obtain ⟨blanks, _, rfl, indent, found⟩ := matches_seq_iff.mp found
    obtain ⟨_, _, rfl, opens, found⟩ := matches_seq_iff.mp found
    obtain ⟨_, _, rfl, word, found⟩ := matches_seq_iff.mp found
    obtain ⟨_, tail, rfl, closes, ends⟩ := matches_seq_iff.mp found
    obtain ⟨first, rfl, isFirst⟩ := matches_one_iff.mp opens
    obtain ⟨last, rfl, isLast⟩ := matches_one_iff.mp closes
    obtain rfl := matches_literal_iff.mp word
    exact ⟨blanks, first :: (encode value ++ [last]), tail, by simp, matches_many_iff.mp indent, .literal isFirst isLast,
      trivial, isTailByte_of_entryEnd ends.takes⟩

/-- The pattern matches an entry with any blanks in front of it. -/
theorem matches_of_isEntry {blanks entry : Bytes} (indent : ∀ b ∈ blanks, isIndent b = true) (isEntry : IsEntry target entry)
    (follows : target.MayFollow (blanks.getLast?.or before)) : target.pattern.Matches before (blanks ++ entry) rest := by
  cases isEntry with
  | @plugin name gap inner blank closes =>
    refine matches_seq_iff.mpr ⟨blanks, _, rfl, matches_many_iff.mpr indent, ?_⟩
    refine matches_seq_iff.mpr ⟨[], _, rfl, matches_notAfter_iff.mpr ⟨rfl, follows⟩, ?_⟩
    refine matches_seq_iff.mpr ⟨encode name, _, rfl, matches_literal_iff.mpr rfl, ?_⟩
    refine matches_seq_iff.mpr ⟨gap, _, rfl, matches_many_iff.mpr blank, ?_⟩
    exact matches_seq_iff.mpr ⟨40 :: inner, [], (List.append_nil _).symm, matches_argumentsPattern_iff.mpr ⟨inner, rfl, closes⟩,
      matches_entryEnd_nil⟩
  | @literal value first last opens closes =>
    refine matches_seq_iff.mpr ⟨blanks, _, rfl, matches_many_iff.mpr indent, ?_⟩
    refine matches_seq_iff.mpr ⟨[first], _, rfl, matches_one_iff.mpr ⟨first, rfl, opens⟩, ?_⟩
    refine matches_seq_iff.mpr ⟨encode value, _, rfl, matches_literal_iff.mpr rfl, ?_⟩
    exact matches_seq_iff.mpr ⟨[last], [], rfl, matches_one_iff.mpr ⟨last, rfl, closes⟩, matches_entryEnd_nil⟩

theorem ends_ne_nil_of_isEntry {blanks entry : Bytes} (indent : ∀ b ∈ blanks, isIndent b = true) (isEntry : IsEntry target entry)
    (follows : target.MayFollow (blanks.getLast?.or before)) : target.pattern.ends ⟨before, blanks ++ (entry ++ rest)⟩ ≠ [] := by
  intro none_
  refine ends_eq_nil_iff.mp none_ (blanks ++ entry) rest (by simp) ?_
  exact matches_of_isEntry indent isEntry follows

/-- An entry stands in a text. -/
def HasEntry (target : EntryTarget) (text : Bytes) : Prop :=
  ∃ front entry rest, text = front ++ (entry ++ rest) ∧ IsEntry target entry ∧ target.MayFollow front.getLast?

theorem occurs_iff_hasEntry : target.pattern.occurs text = true ↔ HasEntry target text := by
  rw [occurs_eq_true_iff]
  constructor
  · rintro ⟨front, rest, rfl, some_⟩
    obtain ⟨spot, mem⟩ := List.exists_mem_of_ne_nil _ some_
    obtain ⟨taken, rfl, -, matched⟩ := exists_matches_of_mem_ends mem
    obtain ⟨blanks, entry, tail, rfl, -, isEntry, follows, -⟩ := exists_of_matches_entry matched
    exact ⟨front ++ blanks, entry, tail ++ spot.rest, by simp, isEntry, by rwa [List.getLast?_append]⟩
  · rintro ⟨front, entry, rest, rfl, isEntry, follows⟩
    exact ⟨front, entry ++ rest, rfl, ends_ne_nil_of_isEntry (List.forall_mem_nil _) isEntry follows⟩

end Scaffold.Edit
