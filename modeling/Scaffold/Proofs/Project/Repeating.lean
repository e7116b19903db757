import Scaffold.Proofs.Edit.Reappearing
import Scaffold.Proofs.Project.Resting
import Scaffold.Proofs.Text.Boundaries

/-! # Removals of entries that are repeated

The entries of a file that does not fit the grammar are removed by a pattern. What is left is text again, and another run
leaves it exactly when no entry stands in it. That is so when the entries of the file were parted.
-/

namespace Scaffold.Project

open Scaffold.Text Scaffold.Files Scaffold.Edit Scaffold.Syntax Stateful Pattern

variable {target : EntryTarget} {path : Path} {session : Session} {source : Bytes} {line : Nat}

/-! ## What is left is text -/

theorem toNat_lt_of_isFilling {b : UInt8} (filling : isFilling b = true) : b.toNat < 0x80 := by
  simp only [isFilling, Bool.or_eq_true, decide_eq_true_eq] at filling
  rcases filling with blank | rfl
  · exact toNat_lt_of_isBlankByte blank
  · decide

/-- An entry begins where a character does. -/
theorem exists_first_of_isEntry {entry : Bytes} (isEntry : IsEntry target entry) :
    ∃ first others, entry = first :: others ∧ isContinuation first = false := by
  cases isEntry with
  | @plugin name gap inner blank closes =>
    rw [encode]
    cases name.toList with
    | nil =>
      cases gap with
      | nil => exact ⟨40, inner, rfl, by decide⟩
      | cons b gap =>
        have white := toNat_lt_of_isBlankByte (blank b List.mem_cons_self)
        exact ⟨b, gap ++ 40 :: inner, rfl, isContinuation_of_ascii white⟩
    | cons c name =>
      obtain ⟨first, others, form, begins, -⟩ := encodeChar_eq_cons c
      refine ⟨first, others ++ encodeChars name ++ (gap ++ 40 :: inner), ?_, begins⟩
      rw [encodeChars, List.flatMap_cons, form, ← encodeChars]
      simp
  | @literal value first last opens closes =>
    refine ⟨first, encode value ++ [last], rfl, ?_⟩
    simp only [isQuote, Bool.or_eq_true, decide_eq_true_eq] at opens
    rcases opens with rfl | rfl <;> decide

/-- A match begins where a character does and ends in an ASCII character. -/
theorem edges_of_matches {before : Option UInt8} {taken rest : Bytes} (found : target.pattern.Matches before taken rest) :
    ∃ first others front last, taken = first :: others ∧ isContinuation first = false ∧ taken = front ++ [last] ∧
      last.toNat < 0x80 := by
  obtain ⟨blanks, entry, tail, rfl, indent, isEntry, -, tails⟩ := exists_of_matches_entry found
  have begins : ∃ first others, blanks ++ (entry ++ tail) = first :: others ∧ isContinuation first = false := by
    cases blanks with
    | nil =>
      obtain ⟨first, others, rfl, begins⟩ := exists_first_of_isEntry isEntry
      exact ⟨first, others ++ tail, rfl, begins⟩
    | cons b blanks =>
      have white := isBlankByte_of_isIndent (indent b List.mem_cons_self)
      exact ⟨b, blanks ++ (entry ++ tail), rfl, isContinuation_of_ascii (toNat_lt_of_isBlankByte white)⟩
  have ends : ∃ front last, blanks ++ (entry ++ tail) = front ++ [last] ∧ last.toNat < 0x80 := by
    rcases List.eq_nil_or_concat tail with rfl | ⟨others, last, rfl⟩
    · obtain ⟨front, last, rfl, closing⟩ := isEntry.exists_concat
      refine ⟨blanks ++ front, last, by simp, ?_⟩
      rcases closing with rfl | rfl | rfl <;> decide
    · rw [List.concat_eq_append] at tails ⊢
      have own := tails last (List.mem_append_right _ List.mem_cons_self)
      refine ⟨blanks ++ (entry ++ others), last, by simp, ?_⟩
      simp only [isTailByte, isIndent, Bool.or_eq_true, decide_eq_true_eq] at own
      rcases own with (((rfl | rfl) | rfl) | rfl) | rfl <;> decide
  obtain ⟨first, others, whole, lead⟩ := begins
  obtain ⟨front, last, same, ascii⟩ := ends
  exact ⟨first, others, front, last, whole, lead, same, ascii⟩

/-- What a removal leaves of a text is a text. -/
theorem isEncoded_removeByPattern (encoded : IsEncoded source) (target : EntryTarget) :
    IsEncoded (removeByPattern source target) := by
  have cut := encoded.cuts (cuts_removeAll_entries target source) fun _ _ _ => edges_of_matches
  rw [removeByPattern]
  split
  · exact encoded
  · exact cut.thinned (thinned_cleanUp _) fun _ => toNat_lt_of_isFilling

/-! ## Runs -/

/-- A run on a file that does not fit the grammar writes what the pattern leaves. -/
theorem removeEntries_run (encoded : IsEncoded source) (read : session.disk.read path = .ok source)
    (broken : (dialectOf path).parse source = .error line) :
    (removeEntries path target).run session = (writeChanged path source (removeByPattern source target)).run session := by
  obtain ⟨text, rfl⟩ := encoded
  rw [removeEntries, editEither_run, read]
  dsimp only
  rw [decode_encodeChars]
  dsimp only
  rw [broken]

theorem exists_writeChanged_run (read : session.disk.read path = .ok source) (output : Bytes) : ∃ after,
    (writeChanged path source output).run session = (.ok (decide (output ≠ source)), after) ∧
      after.disk.read path = .ok output ∧ (output = source → after = session) := by
  by_cases same : output = source
  · subst same
    exact ⟨session, by rw [writeChanged_run_self]; simp, read, fun _ => rfl⟩
  · obtain ⟨location, -, written, reads⟩ := Disk.exists_write_of_read read output
    refine ⟨{ session with disk := session.disk.put location (.file output) }, ?_, reads, fun equal => absurd equal same⟩
    rw [writeChanged, if_neg same, bind_run, Operation.writeBytes, change_run, written]
    simp [same]
    rfl

/-- In a file of text that does not fit the grammar a removal of entries succeeds and leaves text. If that does not fit the
grammar either, the same removal changes nothing any more exactly when no entry stands in it. And none does when what is
looked for is plain and its entries were parted. -/
theorem entries_leave_unparsed_file (text : List Char) (read : session.disk.read path = .ok (encodeChars text))
    (broken : (dialectOf path).parse (encodeChars text) = .error line) :
    ∃ output after, (removeEntries path target).run session = (.ok (decide (output ≠ encodeChars text)), after) ∧
      after.disk.read path = .ok output ∧ output = removeByPattern (encodeChars text) target ∧ IsEncoded output ∧
      ∀ other, (dialectOf path).parse output = .error other →
        ((removeEntries path target).run after = (.ok false, after) ↔ ¬ HasEntry target output) ∧
        (target.IsPlain → IsParted target (encodeChars text) → ¬ HasEntry target output) := by
  have encoded : IsEncoded (encodeChars text) := ⟨text, rfl⟩
  obtain ⟨after, ran, reads, -⟩ := exists_writeChanged_run read (removeByPattern (encodeChars text) target)
  refine ⟨_, after, (removeEntries_run encoded read broken).trans ran, reads, rfl, isEncoded_removeByPattern encoded target,
    fun other still => ⟨?_, fun plain parted => parted.not_hasEntry plain⟩⟩
  rw [removeEntries_run (isEncoded_removeByPattern encoded target) reads still, ← removeByPattern_eq_self_iff]
  obtain ⟨later, again, -, stays⟩ := exists_writeChanged_run reads (removeByPattern (removeByPattern (encodeChars text) target) target)
  rw [again]
  constructor
  · intro idle
    have unchanged := congrArg Prod.fst idle
    simpa using unchanged
  · intro same
    rw [stays same, same]
    simp

/-- A file that does not fit the grammar. -/
def brokenSession (text : String) : Session := ⟨⟨[], [(["vite.config.ts"], .file (encode text))]⟩, [], []⟩

theorem isParted_single : IsParted (.plugin "a") (encode "[a(), (\n") := by
  have word : encode "a" = [97] := by decide
  have only {front behind : Bytes} (split : encode "[a(), (\n" = front ++ 97 :: behind) :
      [91] = front ∧ [40, 41, 44, 32, 40, 10] = behind := by
    have parts : encode "[a(), (\n" = [91] ++ 97 :: [40, 41, 44, 32, 40, 10] := by decide
    rw [parts, List.append_cons_inj_of_notMem (by decide) (by decide)] at split
    exact ⟨split.1, split.2.2⟩
  have headed {head : Bytes} (isHead : IsHead (.plugin "a") head) :
      ∃ gap, (∀ b ∈ gap, isBlankByte b = true) ∧ head = 97 :: (gap ++ [40]) := by
    cases isHead with
    | @plugin name gap blank => exact ⟨gap, blank, by rw [word]; rfl⟩
  constructor
  · intro front head rest split isHead follows
    obtain ⟨gap, blank, rfl⟩ := headed isHead
    obtain ⟨-, behind⟩ := @only front (gap ++ ([40] ++ rest)) (by rw [split]; simp)
    cases gap with
    | nil =>
      obtain ⟨-, rfl⟩ := List.cons.inj behind
      have isEntry : IsEntry (.plugin "a") (encode "a" ++ ([] ++ 40 :: [41])) := .plugin nofun .last
      rw [word] at isEntry
      exact ⟨_, [44, 32, 40, 10], rfl, isEntry⟩
    | cons b gap =>
      obtain ⟨rfl, -⟩ := List.cons.inj behind
      cases blank 40 List.mem_cons_self
  · rintro front part blanks entry rest split indent isEntry - ⟨some_, more, -, isHead⟩
    obtain ⟨b, part, rfl⟩ := List.exists_cons_of_ne_nil some_
    obtain ⟨gap, -, begins⟩ := headed isHead
    obtain ⟨rfl, -⟩ := List.cons.inj begins
    obtain ⟨head, others, rfl, isFirst⟩ := isEntry.exists_head
    obtain ⟨gap, -, rfl⟩ := headed isFirst
    -- the letter of the name stands in the text once
    obtain ⟨-, behind⟩ := @only front (part ++ (blanks ++ 97 :: (gap ++ [40] ++ others ++ rest))) (by rw [split]; simp)
    have twice : (97 : UInt8) ∈ ([40, 41, 44, 32, 40, 10] : Bytes) := by
      rw [behind]
      simp
    revert twice
    decide

/-- An entry with nothing of one in front of it leaves, and the text is left as it is afterwards. -/
theorem single_entry_leaves :
    (removeEntries ⟨false, ["vite.config.ts"]⟩ (.plugin "a")).run (brokenSession "[a(), (\n") = (.ok true, brokenSession "[(\n") ∧
      (removeEntries ⟨false, ["vite.config.ts"]⟩ (.plugin "a")).run (brokenSession "[(\n") = (.ok false, brokenSession "[(\n") := by
  have once : (removeEntries ⟨false, ["vite.config.ts"]⟩ (.plugin "a")).run (brokenSession "[a(), (\n") =
      (.ok true, brokenSession "[(\n") := by
    with_unfolding_all rfl
  have plain : (EntryTarget.plugin "a").IsPlain := by
    intro b mem
    rw [show encode "a" = [97] by decide, List.mem_singleton] at mem
    subst mem
    decide
  have broken : (dialectOf ⟨false, ["vite.config.ts"]⟩).parse (encode "[a(), (\n") = .error 1 := by decide +kernel
  have still : (dialectOf ⟨false, ["vite.config.ts"]⟩).parse (encode "[(\n") = .error 1 := by decide +kernel
  obtain ⟨output, after, ran, reads, -, -, again⟩ := @entries_leave_unparsed_file (.plugin "a") ⟨false, ["vite.config.ts"]⟩
    (brokenSession "[a(), (\n") 1 "[a(), (\n".toList (by decide) broken
  obtain ⟨-, rfl⟩ := Prod.mk.inj (once.symm.trans ran)
  obtain rfl : encode "[(\n" = output := Except.ok.inj (Eq.trans (by decide) reads)
  obtain ⟨idle, free⟩ := again 1 still
  exact ⟨once, idle.mpr (free plain isParted_single)⟩

theorem nested_entry_appears :
    (removeEntries ⟨false, ["vite.config.ts"]⟩ (.plugin "a")).run (brokenSession "a(b(a()))\n(") =
        (.ok true, brokenSession "a(b())\n(") ∧
      (removeEntries ⟨false, ["vite.config.ts"]⟩ (.plugin "a")).run (brokenSession "a(b())\n(") = (.ok true, brokenSession "(") := by
  refine ⟨?_, ?_⟩
  · with_unfolding_all rfl
  · with_unfolding_all rfl

end Scaffold.Project
