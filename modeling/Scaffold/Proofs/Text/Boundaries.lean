import Scaffold.Proofs.Text.Cuts
import Scaffold.Proofs.Text.Utf8

/-! # Encoded texts that are taken apart

The bytes of a text may be taken apart wherever a character begins. So they are those of a text again when ASCII characters
are dropped, or matches that begin where a character does and end in an ASCII character.
-/

namespace Scaffold.Text

variable {front back source output : Bytes} {b : UInt8}

/-- A character is one ASCII byte, or all its bytes are past ASCII. -/
theorem encodeChar_ascii_or (c : Char) : (∃ b, encodeChar c = [b] ∧ b.toNat < 0x80) ∨
    ∀ b ∈ encodeChar c, 0x80 ≤ b.toNat := by
  by_cases small : c.toNat < 0x80
  · refine .inl ⟨c.toNat.toUInt8, by rw [encodeChar, if_pos small], ?_⟩
    rwa [toNat_toUInt8 (by omega)]
  · refine .inr fun b mem => ?_
    rcases mem_encodeChar mem with same | ⟨-, large⟩ <;> omega

theorem isContinuation_of_ascii (ascii : b.toNat < 0x80) : isContinuation b = false := by
  rw [isContinuation, Bool.and_eq_false_iff, decide_eq_false_iff_not, UInt8.le_iff_toNat_le]
  exact .inl (Nat.not_le.mpr ascii)

theorem toNat_lt_of_isBlankByte (blank : isBlankByte b = true) : b.toNat < 0x80 := by
  simp only [isBlankByte, Bool.or_eq_true, Bool.and_eq_true, decide_eq_true_eq, UInt8.le_iff_toNat_le] at blank
  rcases blank with ⟨-, le⟩ | rfl
  · exact Nat.lt_of_le_of_lt le (by decide)
  · decide

/-- What may not be dropped is left in front of what is left of the rest. -/
theorem Thinned.split_of_forall {droppable : UInt8 → Prop} (thinned : Thinned droppable (front ++ back) output)
    (stays : ∀ b ∈ front, ¬ droppable b) : ∃ rest, output = front ++ rest ∧ Thinned droppable back rest := by
  induction front generalizing output with
  | nil => exact ⟨output, rfl, thinned⟩
  | cons b front later =>
    obtain ⟨own, others⟩ := List.forall_mem_cons.mp stays
    rw [List.cons_append] at thinned
    cases thinned with
    | keep _ behind =>
      obtain ⟨rest, rfl, left⟩ := later behind others
      exact ⟨rest, rfl, left⟩
    | drop may => exact absurd may own

/-- Bytes that encode a text. -/
def IsEncoded (bytes : Bytes) : Prop := ∃ text, bytes = encodeChars text

namespace IsEncoded

theorem append (first : IsEncoded front) (second : IsEncoded back) : IsEncoded (front ++ back) := by
  obtain ⟨text, rfl⟩ := first
  obtain ⟨more, rfl⟩ := second
  exact ⟨text ++ more, (encodeChars_append text more).symm⟩

/-- ASCII characters are a text. -/
theorem of_ascii (ascii : ∀ b ∈ front, b.toNat < 0x80) : IsEncoded front := by
  induction front with
  | nil => exact ⟨[], rfl⟩
  | cons b front inner =>
    obtain ⟨own, others⟩ := List.forall_mem_cons.mp ascii
    have small : b < 0x80 := UInt8.lt_iff_toNat_lt.mpr own
    have decoded : decode [b] = .ok [Char.ofNat b.toNat] := by simp [decode, decodeFrom, decodeHead, small]
    exact append ⟨_, (encodeChars_of_decode decoded).symm⟩ (inner others)

/-- In front of a byte that continues no character a text is taken apart. -/
theorem split (encoded : IsEncoded (front ++ b :: back)) (begins : isContinuation b = false) :
    IsEncoded front ∧ IsEncoded (b :: back) := by
  obtain ⟨text, eq⟩ := encoded
  induction text generalizing front with
  | nil => simp [encodeChars] at eq
  | cons c text parts =>
    rw [encodeChars, List.flatMap_cons, ← encodeChars] at eq
    rcases List.append_eq_append_iff.mp eq with ⟨extra, whole, rest⟩ | ⟨extra, rfl, rest⟩
    · cases front with
      | nil => exact ⟨⟨[], rfl⟩, c :: text, eq⟩
      | cons d front =>
        obtain ⟨first, others, form, -, continues⟩ := encodeChar_eq_cons c
        cases extra with
        | nil =>
          rw [List.append_nil] at whole
          exact ⟨⟨[c], by simp [encodeChars, whole]⟩, text, rest⟩
        | cons e extra =>
          rw [form, List.cons_append] at whole
          obtain ⟨rfl, rfl⟩ := List.cons.inj whole
          obtain ⟨rfl, -⟩ := List.cons.inj rest
          have inside := continues b (List.mem_append_right _ List.mem_cons_self)
          rw [begins] at inside
          cases inside
    · obtain ⟨inFront, behind⟩ := parts rest.symm
      refine ⟨?_, behind⟩
      exact append ⟨[c], by simp [encodeChars]⟩ inFront

/-- Behind an ASCII character a text is taken apart. -/
theorem tail (encoded : IsEncoded (b :: back)) (ascii : b.toNat < 0x80) : IsEncoded back := by
  obtain ⟨text, eq⟩ := encoded
  cases text with
  | nil => cases eq
  | cons c text =>
    rw [encodeChars, List.flatMap_cons, ← encodeChars] at eq
    rcases encodeChar_ascii_or c with ⟨d, form, -⟩ | past
    · rw [form] at eq
      exact ⟨text, (List.cons.inj eq).2⟩
    · obtain ⟨first, others, form, -⟩ := encodeChar_eq_cons c
      rw [form, List.cons_append] at eq
      obtain ⟨rfl, -⟩ := List.cons.inj eq
      have large := past b (form ▸ List.mem_cons_self)
      omega

/-- A text from which ASCII characters are dropped. -/
theorem thinned {droppable : UInt8 → Prop} (encoded : IsEncoded source) (thinned : Thinned droppable source output)
    (ascii : ∀ b, droppable b → b.toNat < 0x80) : IsEncoded output := by
  obtain ⟨text, rfl⟩ := encoded
  induction text generalizing output with
  | nil =>
    cases thinned
    exact ⟨[], rfl⟩
  | cons c text left =>
    rw [encodeChars, List.flatMap_cons, ← encodeChars] at thinned
    have own : IsEncoded (encodeChar c) := ⟨[c], by simp [encodeChars]⟩
    rcases encodeChar_ascii_or c with ⟨d, form, -⟩ | past
    · rw [form] at thinned own
      cases thinned with
      | keep _ rest => exact own.append (left rest)
      | drop _ rest => exact left rest
    · obtain ⟨rest, rfl, others⟩ := thinned.split_of_forall fun b mem may => by
        have small := ascii b may
        have large := past b mem
        omega
      exact own.append (left others)

/-- A text without matches each of which begins where a character does and ends in an ASCII character. -/
theorem cuts {pattern : Pattern UInt8} {before : Option UInt8} (encoded : IsEncoded source)
    (cuts : pattern.Cuts before source output)
    (edges : ∀ before taken rest, pattern.Matches before taken rest → ∃ first others front last,
      taken = first :: others ∧ isContinuation first = false ∧ taken = front ++ [last] ∧ last.toNat < 0x80) :
    IsEncoded output := by
  induction cuts with
  | rest => exact encoded
  | @cut before kept taken rest output found _ _ left =>
    obtain ⟨first, others, front, last, begins, lead, ends, ascii⟩ := edges _ _ _ found
    have atMatch : IsEncoded (kept ++ first :: (others ++ rest)) := by
      rw [begins] at encoded
      exact encoded
    have atLast : IsEncoded ((kept ++ front) ++ last :: rest) := by
      rw [ends] at encoded
      simpa using encoded
    have behind := (atLast.split (isContinuation_of_ascii ascii)).2
    exact (atMatch.split lead).1.append (left (behind.tail ascii))

end IsEncoded

end Scaffold.Text
