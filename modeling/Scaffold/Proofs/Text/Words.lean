import Scaffold.Proofs.Text.Utf8

/-! # Words of a text among its bytes

A text is searched for words as bytes. No character begins in the middle of another one, so the bytes of a word stand where
the word does.
-/

namespace Scaffold.Text

variable {text word : List Char} {front back : Bytes}

theorem encodeChars_cons (c : Char) (rest : List Char) : encodeChars (c :: rest) = encodeChar c ++ encodeChars rest :=
  List.flatMap_cons

theorem encodeChars_singleton (c : Char) : encodeChars [c] = encodeChar c :=
  List.flatMap_singleton encodeChar c

/-- A character is known by the bytes that a text begins with. -/
theorem encodeChar_append_inj {c d : Char} (same : encodeChar c ++ front = encodeChar d ++ back) : c = d ∧ front = back := by
  obtain ⟨first, others, eq, decoded⟩ := decodeHead_encodeChar c front
  obtain ⟨first', others', eq', decoded'⟩ := decodeHead_encodeChar d back
  rw [eq, eq', List.cons_append, List.cons_append] at same
  obtain ⟨rfl, rest⟩ := List.cons.inj same
  rw [rest, decoded'] at decoded
  obtain ⟨rfl, -⟩ := Prod.mk.inj (Except.ok.inj decoded)
  rw [eq, List.cons.injEq] at eq'
  obtain ⟨-, rfl⟩ := eq'
  exact ⟨rfl, List.append_cancel_left rest⟩

theorem exists_of_encodeChars_eq_append (same : encodeChars text = encodeChars word ++ back) :
    ∃ after, text = word ++ after ∧ back = encodeChars after := by
  induction word generalizing text with
  | nil => exact ⟨text, rfl, same.symm⟩
  | cons c word later =>
    rw [encodeChars_cons, List.append_assoc] at same
    cases text with
    | nil =>
      obtain ⟨first, others, eq, -⟩ := encodeChar_eq_cons c
      rw [eq] at same
      cases same
    | cons d text =>
      rw [encodeChars_cons] at same
      obtain ⟨rfl, rest⟩ := encodeChar_append_inj same
      obtain ⟨after, rfl, eq⟩ := later rest
      exact ⟨after, rfl, eq⟩

theorem encodeChars_inj (same : encodeChars text = encodeChars word) : text = word := by
  rw [← List.append_nil (encodeChars word)] at same
  obtain ⟨after, rfl, none⟩ := exists_of_encodeChars_eq_append same
  cases after with
  | nil => exact List.append_nil word
  | cons c after =>
    obtain ⟨first, others, eq, -⟩ := encodeChar_eq_cons c
    rw [encodeChars_cons, eq] at none
    cases none

/-- The bytes of a word stand where the word does. -/
theorem exists_of_encodeChars_eq (some_ : word ≠ []) (same : encodeChars text = front ++ (encodeChars word ++ back)) :
    ∃ before after, text = before ++ (word ++ after) ∧ front = encodeChars before ∧ back = encodeChars after := by
  induction text generalizing front with
  | nil =>
    obtain ⟨c, word, rfl⟩ := List.exists_cons_of_ne_nil some_
    obtain ⟨first, others, eq, -⟩ := encodeChar_eq_cons c
    have none := (List.append_eq_nil_iff.mp (List.append_eq_nil_iff.mp same.symm).2).1
    rw [encodeChars_cons, eq] at none
    cases none
  | cons d text later =>
    cases front with
    | nil =>
      obtain ⟨after, eq, rest⟩ := exists_of_encodeChars_eq_append same
      exact ⟨[], after, eq, rfl, rest⟩
    | cons b front =>
      obtain ⟨first, others, eq, -, continues⟩ := encodeChar_eq_cons d
      rw [encodeChars_cons, eq, List.cons_append, List.cons_append] at same
      obtain ⟨rfl, rest⟩ := List.cons.inj same
      -- the word does not begin inside the first character
      rcases List.append_eq_append_iff.mp rest with ⟨more, rfl, behind⟩ | ⟨more, rfl, inside⟩
      · obtain ⟨before, after, rfl, rfl, rfl⟩ := later behind
        exact ⟨d :: before, after, rfl, by rw [encodeChars_cons, eq, List.cons_append], rfl⟩
      · cases more with
        | nil =>
          have whole : encodeChars text = [] ++ (encodeChars word ++ back) := inside.symm
          obtain ⟨before, after, rfl, none, rfl⟩ := later whole
          refine ⟨d :: before, after, rfl, ?_, rfl⟩
          rw [encodeChars_cons, eq, ← none, List.append_nil, List.append_nil]
        | cons e more =>
          obtain ⟨c, word, rfl⟩ := List.exists_cons_of_ne_nil some_
          obtain ⟨lead, own, eq, starts, -⟩ := encodeChar_eq_cons c
          rw [encodeChars_cons, eq] at inside
          obtain ⟨rfl, -⟩ := List.cons.inj inside
          rw [continues lead (by simp)] at starts
          cases starts

/-- A byte of ASCII stands for a character of the text. -/
theorem exists_mem_of_mem_encodeChars {b : UInt8} (mem : b ∈ encodeChars text) (small : b.toNat < 0x80) :
    ∃ c ∈ text, c.toNat = b.toNat := by
  obtain ⟨c, inText, mem⟩ := List.mem_flatMap.mp mem
  rcases mem_encodeChar mem with same | ⟨-, large⟩
  · exact ⟨c, inText, same.symm⟩
  · omega

end Scaffold.Text
