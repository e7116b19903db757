import Scaffold.Text.Bytes

/-! # Text and its UTF-8 form

Decoding gives back the text that was encoded, and the width of a text is the length of its encoded
form. So an offset that counts widths is an offset into the bytes.
-/

namespace Scaffold.Text

theorem toNat_toUInt8 {n : Nat} (lt : n < 256) : n.toUInt8.toNat = n := by
  rw [Nat.toUInt8_eq, UInt8.toNat_ofNat', Nat.mod_eq_of_lt lt]

theorem charWidth_pos (c : Char) : 0 < charWidth c := by
  unfold charWidth
  dsimp only
  split
  · decide
  · split
    · decide
    · split <;> decide

theorem length_encodeChar (c : Char) : (encodeChar c).length = charWidth c := by
  unfold encodeChar charWidth
  dsimp only
  split
  · rfl
  · split
    · rfl
    · split <;> rfl

private theorem foldl_width (total : Nat) (text : List Char) :
    text.foldl (fun total c => total + charWidth c) total = total + width text := by
  induction text generalizing total with
  | nil => rfl
  | cons c rest eq =>
    unfold width
    rw [List.foldl_cons, List.foldl_cons, eq, eq (0 + charWidth c)]
    omega

@[simp] theorem width_nil : width [] = 0 := rfl

@[simp] theorem width_cons (c : Char) (rest : List Char) : width (c :: rest) = charWidth c + width rest := by
  rw [width, List.foldl_cons, foldl_width, Nat.zero_add]

@[simp] theorem width_append (first second : List Char) : width (first ++ second) = width first + width second := by
  induction first with
  | nil => simp
  | cons c rest eq => simp only [List.cons_append, width_cons, eq, Nat.add_assoc]

/-- The width of a text is the length of its encoded form. -/
theorem length_encodeChars (text : List Char) : (encodeChars text).length = width text := by
  induction text with
  | nil => rfl
  | cons c rest eq =>
    rw [encodeChars, List.flatMap_cons, List.length_append, length_encodeChar, width_cons, ← eq]
    rfl

/-- A position of the encoded form lies in a character that is accepted. -/
def InCharacter (accepts : Char → Bool) (text : List Char) (position : Nat) : Prop :=
  ∃ before c after, text = before ++ c :: after ∧ accepts c = true ∧
    width before ≤ position ∧ position < width before + charWidth c

private theorem eq_of_split {before before' after after' : List Char} {c c' : Char} {position : Nat}
    (split : before ++ c :: after = before' ++ c' :: after') (front : width before ≤ position)
    (back : position < width before + charWidth c) (front' : width before' ≤ position)
    (back' : position < width before' + charWidth c') : c = c' := by
  rcases List.append_eq_append_iff.mp split with ⟨extra, rfl, rest⟩ | ⟨extra, rfl, rest⟩
  · cases extra with
    | nil => exact (List.cons.inj rest).1
    | cons head extra =>
      obtain ⟨rfl, -⟩ := List.cons.inj rest
      rw [width_append, width_cons] at front'
      omega
  · cases extra with
    | nil => exact (List.cons.inj rest).1.symm
    | cons head extra =>
      obtain ⟨rfl, -⟩ := List.cons.inj rest
      rw [width_append, width_cons] at front
      omega

/-- A position lies in one character only. -/
theorem InCharacter.both {accepts others : Char → Bool} {text : List Char} {position : Nat}
    (inside : InCharacter accepts text position) (within : InCharacter others text position) :
    ∃ c, accepts c = true ∧ others c = true := by
  obtain ⟨before, c, after, split, accepted, front, back⟩ := inside
  obtain ⟨before', c', after', split', accepted', front', back'⟩ := within
  have same := eq_of_split (split.symm.trans split') front back front' back'
  exact ⟨c, accepted, same ▸ accepted'⟩

private theorem toNat_valid (c : Char) : c.toNat < 0xD800 ∨ 0xDFFF < c.toNat ∧ c.toNat < 0x110000 := c.valid

private theorem le_toNat_toUInt8 {n : Nat} (least : 0x80 ≤ n) (lt : n < 256) : 0x80 ≤ n.toUInt8.toNat := by
  rwa [toNat_toUInt8 lt]

theorem mem_encodeChar {c : Char} {byte : UInt8} (mem : byte ∈ encodeChar c) :
    byte.toNat = c.toNat ∨ 0x80 ≤ c.toNat ∧ 0x80 ≤ byte.toNat := by
  have valid := toNat_valid c
  unfold encodeChar at mem
  dsimp only at mem
  split at mem
  · rw [List.mem_singleton.mp mem]
    exact .inl (toNat_toUInt8 (by omega))
  · refine .inr ⟨by omega, ?_⟩
    split at mem
    · simp only [List.mem_cons, List.not_mem_nil, or_false] at mem
      rcases mem with rfl | rfl <;> exact le_toNat_toUInt8 (by omega) (by omega)
    split at mem
    · simp only [List.mem_cons, List.not_mem_nil, or_false] at mem
      rcases mem with rfl | rfl | rfl <;> exact le_toNat_toUInt8 (by omega) (by omega)
    · simp only [List.mem_cons, List.not_mem_nil, or_false] at mem
      rcases mem with rfl | rfl | rfl | rfl <;> exact le_toNat_toUInt8 (by omega) (by omega)

theorem encodeChars_append (front back : List Char) : encodeChars (front ++ back) = encodeChars front ++ encodeChars back :=
  List.flatMap_append

/-- The byte at a position of a character is its code, or both are past ASCII. -/
theorem InCharacter.byte {accepts : Char → Bool} {text : List Char} {position : Nat}
    (inside : InCharacter accepts text position) :
    ∃ c byte, accepts c = true ∧ (encodeChars text)[position]? = some byte ∧
      (byte.toNat = c.toNat ∨ 0x80 ≤ c.toNat ∧ 0x80 ≤ byte.toNat) := by
  obtain ⟨before, c, after, rfl, accepted, front, back⟩ := inside
  have lt : position - width before < (encodeChar c).length := by
    rw [length_encodeChar]
    omega
  refine ⟨c, (encodeChar c)[position - width before], accepted, ?_, mem_encodeChar (List.getElem_mem lt)⟩
  rw [encodeChars, List.flatMap_append, List.flatMap_cons, ← encodeChars, ← encodeChars,
    List.getElem?_append_right (by rw [length_encodeChars]; exact front), length_encodeChars,
    List.getElem?_append_left lt, List.getElem?_eq_getElem lt]

/-! ## Decoding -/

private theorem isContinuation_toUInt8 {n : Nat} (least : 0x80 ≤ n) (lt : n < 0xC0) :
    isContinuation n.toUInt8 = true := by
  have same := toNat_toUInt8 (show n < 256 by omega)
  rw [isContinuation, Bool.and_eq_true, decide_eq_true_eq, decide_eq_true_eq, UInt8.le_iff_toNat_le,
    UInt8.lt_iff_toNat_lt, same]
  exact ⟨least, lt⟩

/-- The first byte of a character goes on with none, and the others do. -/
theorem encodeChar_eq_cons (c : Char) : ∃ first others, encodeChar c = first :: others ∧
    isContinuation first = false ∧ ∀ b ∈ others, isContinuation b = true := by
  have valid := toNat_valid c
  have lead {n : Nat} (lt : n < 256) (outside : n < 0x80 ∨ 0xC0 ≤ n) : isContinuation n.toUInt8 = false := by
    have same := toNat_toUInt8 lt
    rw [isContinuation, Bool.and_eq_false_iff, decide_eq_false_iff_not, decide_eq_false_iff_not, UInt8.le_iff_toNat_le,
      UInt8.lt_iff_toNat_lt, same]
    exact outside.imp Nat.not_le.mpr Nat.not_lt.mpr
  unfold encodeChar
  dsimp only
  split
  · exact ⟨_, _, rfl, lead (by omega) (by omega), nofun⟩
  split
  · refine ⟨_, _, rfl, lead (by omega) (by omega), ?_⟩
    simp only [List.forall_mem_cons]
    exact ⟨isContinuation_toUInt8 (by omega) (by omega), nofun⟩
  split
  · refine ⟨_, _, rfl, lead (by omega) (by omega), ?_⟩
    simp only [List.forall_mem_cons]
    exact ⟨isContinuation_toUInt8 (by omega) (by omega), isContinuation_toUInt8 (by omega) (by omega), nofun⟩
  · refine ⟨_, _, rfl, lead (by omega) (by omega), ?_⟩
    simp only [List.forall_mem_cons]
    exact ⟨isContinuation_toUInt8 (by omega) (by omega), isContinuation_toUInt8 (by omega) (by omega),
      isContinuation_toUInt8 (by omega) (by omega), nofun⟩

private theorem payload_toUInt8 {n : Nat} (lt : n < 0x40) : payload (0x80 + n).toUInt8 = n := by
  rw [payload, toNat_toUInt8 (by omega)]
  omega

private theorem toUInt8_lt {n : Nat} (limit : UInt8) (bound : n < 256) (lt : n < limit.toNat) : n.toUInt8 < limit := by
  rwa [UInt8.lt_iff_toNat_lt, toNat_toUInt8 bound]

private theorem not_toUInt8_lt {n : Nat} (limit : UInt8) (bound : n < 256) (le : limit.toNat ≤ n) :
    ¬ n.toUInt8 < limit := by
  rw [UInt8.lt_iff_toNat_lt, toNat_toUInt8 bound]
  exact Nat.not_lt.mpr le

private theorem toUInt8_eq_iff {n : Nat} (bound : n < 256) {byte : UInt8} : n.toUInt8 = byte ↔ n = byte.toNat := by
  rw [← UInt8.toNat_inj, toNat_toUInt8 bound]

/-- The bytes of a character are allowed to follow each other: its form is the shortest one, and it is no
surrogate. -/
private theorem secondAllowed_toUInt8 {first second : Nat} (firstBound : first < 256) (least : 0x80 ≤ second)
    (lt : second < 0xC0) (overlong : first = 0xE0 → 0xA0 ≤ second) (surrogate : first = 0xED → second < 0xA0)
    (small : first = 0xF0 → 0x90 ≤ second) (large : first = 0xF4 → second < 0x90) :
    secondAllowed first.toUInt8 second.toUInt8 = true := by
  have same := toNat_toUInt8 (show second < 256 by omega)
  rw [secondAllowed, isContinuation_toUInt8 least lt, Bool.true_and]
  simp only [toUInt8_eq_iff firstBound, UInt8.le_iff_toNat_le, UInt8.lt_iff_toNat_lt, same]
  split
  · next eq => exact decide_eq_true (overlong eq)
  split
  · next eq => exact decide_eq_true (surrogate eq)
  split
  · next eq => exact decide_eq_true (small eq)
  split
  · next eq => exact decide_eq_true (large eq)
  · rfl

/-- The first character of an encoded text is read back. -/
theorem decodeHead_encodeChar (c : Char) (rest : Bytes) :
    ∃ first others, encodeChar c = first :: others ∧ decodeHead first (others ++ rest) = .ok (c, charWidth c) := by
  have valid := toNat_valid c
  unfold encodeChar charWidth
  dsimp only
  split
  · next one =>
    refine ⟨_, _, rfl, ?_⟩
    unfold decodeHead
    rw [if_pos (toUInt8_lt 0x80 (by omega) one), toNat_toUInt8 (by omega), Char.ofNat_toNat]
  split
  · next two =>
    refine ⟨_, _, rfl, ?_⟩
    have bound : 0xC0 + c.toNat / 64 < 256 := by omega
    unfold decodeHead
    rw [if_neg (not_toUInt8_lt 0x80 bound (show 0x80 ≤ 0xC0 + c.toNat / 64 by omega)),
      if_neg (not_toUInt8_lt 0xC2 bound (show 0xC2 ≤ 0xC0 + c.toNat / 64 by omega)),
      if_pos (toUInt8_lt 0xE0 bound (show 0xC0 + c.toNat / 64 < 0xE0 by omega))]
    simp only [List.cons_append, isContinuation_toUInt8 (Nat.le_add_right 0x80 _) (show 0x80 + c.toNat % 64 < 0xC0 by omega),
      if_true]
    rw [payload_toUInt8 (by omega), toNat_toUInt8 bound,
      show (0xC0 + c.toNat / 64) % 32 * 64 + c.toNat % 64 = c.toNat by omega, Char.ofNat_toNat]
  split
  · next three =>
    refine ⟨_, _, rfl, ?_⟩
    have bound : 0xE0 + c.toNat / 4096 < 256 := by omega
    have allowed := secondAllowed_toUInt8 bound (Nat.le_add_right 0x80 (c.toNat / 64 % 64)) (by omega) (by omega)
      (by omega) (by omega) (by omega)
    unfold decodeHead
    rw [if_neg (not_toUInt8_lt 0x80 bound (show 0x80 ≤ 0xE0 + c.toNat / 4096 by omega)),
      if_neg (not_toUInt8_lt 0xC2 bound (show 0xC2 ≤ 0xE0 + c.toNat / 4096 by omega)),
      if_neg (not_toUInt8_lt 0xE0 bound (show 0xE0 ≤ 0xE0 + c.toNat / 4096 by omega)),
      if_pos (toUInt8_lt 0xF0 bound (show 0xE0 + c.toNat / 4096 < 0xF0 by omega))]
    simp only [List.cons_append, allowed, Bool.not_true, Bool.false_eq_true, if_false,
      isContinuation_toUInt8 (Nat.le_add_right 0x80 _) (show 0x80 + c.toNat % 64 < 0xC0 by omega), if_true]
    rw [payload_toUInt8 (by omega), payload_toUInt8 (by omega), toNat_toUInt8 bound,
      show (0xE0 + c.toNat / 4096) % 16 * 4096 + c.toNat / 64 % 64 * 64 + c.toNat % 64 = c.toNat by omega,
      Char.ofNat_toNat]
  · next four =>
    refine ⟨_, _, rfl, ?_⟩
    have bound : 0xF0 + c.toNat / 262144 < 256 := by omega
    have allowed := secondAllowed_toUInt8 bound (Nat.le_add_right 0x80 (c.toNat / 4096 % 64)) (by omega) (by omega)
      (by omega) (by omega) (by omega)
    unfold decodeHead
    rw [if_neg (not_toUInt8_lt 0x80 bound (show 0x80 ≤ 0xF0 + c.toNat / 262144 by omega)),
      if_neg (not_toUInt8_lt 0xC2 bound (show 0xC2 ≤ 0xF0 + c.toNat / 262144 by omega)),
      if_neg (not_toUInt8_lt 0xE0 bound (show 0xE0 ≤ 0xF0 + c.toNat / 262144 by omega)),
      if_neg (not_toUInt8_lt 0xF0 bound (show 0xF0 ≤ 0xF0 + c.toNat / 262144 by omega)),
      if_pos (toUInt8_lt 0xF5 bound (show 0xF0 + c.toNat / 262144 < 0xF5 by omega))]
    simp only [List.cons_append, allowed, Bool.not_true, Bool.false_eq_true, if_false,
      isContinuation_toUInt8 (Nat.le_add_right 0x80 _) (show 0x80 + c.toNat / 64 % 64 < 0xC0 by omega),
      isContinuation_toUInt8 (Nat.le_add_right 0x80 _) (show 0x80 + c.toNat % 64 < 0xC0 by omega), if_true]
    rw [payload_toUInt8 (by omega), payload_toUInt8 (by omega), payload_toUInt8 (by omega), toNat_toUInt8 bound,
      show (0xF0 + c.toNat / 262144) % 8 * 262144 + c.toNat / 4096 % 64 * 4096 + c.toNat / 64 % 64 * 64 +
        c.toNat % 64 = c.toNat by omega, Char.ofNat_toNat]

/-- The bytes of a character that has been read are skipped. -/
private theorem decodeLossy_skip (others rest : Bytes) :
    decodeLossy others.length (others ++ rest) = decodeLossy 0 rest := by
  induction others with
  | nil => rfl
  | cons byte others eq => exact eq

/-- Decoding gives back the text that was encoded. -/
theorem decodeLossy_encodeChars (text : List Char) : decodeLossy 0 (encodeChars text) = text := by
  induction text with
  | nil => rfl
  | cons c rest eq =>
    obtain ⟨first, others, form, head⟩ := decodeHead_encodeChar c (encodeChars rest)
    have taken : charWidth c - 1 = others.length := by
      rw [← length_encodeChar, form, List.length_cons, Nat.add_sub_cancel]
    have later : decodeHead first (others ++ rest.flatMap encodeChar) = .ok (c, charWidth c) := head
    rw [encodeChars, List.flatMap_cons, form, List.cons_append]
    simp only [decodeLossy, later, taken, decodeLossy_skip]
    exact congrArg (c :: ·) eq

/-- The bytes of a character that has been read are skipped, and their number is counted. -/
private theorem decodeFrom_skip (offset : Nat) (others rest : Bytes) :
    decodeFrom offset others.length (others ++ rest) = decodeFrom (offset + others.length) 0 rest := by
  induction others generalizing offset with
  | nil => rfl
  | cons byte others eq =>
    rw [List.length_cons, List.cons_append, decodeFrom, eq, Nat.add_right_comm, Nat.add_assoc]

private theorem decodeFrom_encodeChars (offset : Nat) (text : List Char) :
    decodeFrom offset 0 (encodeChars text) = .ok text := by
  induction text generalizing offset with
  | nil => rfl
  | cons c rest eq =>
    obtain ⟨first, others, form, head⟩ := decodeHead_encodeChar c (encodeChars rest)
    have taken : charWidth c - 1 = others.length := by
      rw [← length_encodeChar, form, List.length_cons, Nat.add_sub_cancel]
    have later : decodeHead first (others ++ rest.flatMap encodeChar) = .ok (c, charWidth c) := head
    rw [encodeChars, List.flatMap_cons, form, List.cons_append]
    simp only [decodeFrom, later, taken, decodeFrom_skip]
    rw [← encodeChars, eq]

/-- An encoded text is accepted and given back. -/
theorem decode_encodeChars (text : List Char) : decode (encodeChars text) = .ok text := decodeFrom_encodeChars 0 text

/-! ## What is decoded is encoded -/

/-- A code point is the one of the character that it stands for. -/
private theorem toNat_ofNat {n : Nat} (valid : n < 0xD800 ∨ 0xDFFF < n ∧ n < 0x110000) : (Char.ofNat n).toNat = n := by
  unfold Char.ofNat
  rw [dif_pos valid]
  rfl

private theorem toUInt8_of_eq {n : Nat} {byte : UInt8} (same : n = byte.toNat) : n.toUInt8 = byte := by
  subst same
  exact UInt8.ofNat_toNat

private theorem continuation_bounds {byte : UInt8} (continues : isContinuation byte = true) :
    0x80 ≤ byte.toNat ∧ byte.toNat < 0xC0 := by
  simpa [isContinuation, UInt8.le_iff_toNat_le, UInt8.lt_iff_toNat_lt] using continues

/-- A second byte that is allowed keeps a character out of the overlong forms, the surrogates and what is too large. -/
private theorem secondAllowed_bounds {first second : UInt8} (allowed : secondAllowed first second = true) :
    (0x80 ≤ second.toNat ∧ second.toNat < 0xC0) ∧ (first.toNat = 0xE0 → 0xA0 ≤ second.toNat) ∧
      (first.toNat = 0xED → second.toNat < 0xA0) ∧ (first.toNat = 0xF0 → 0x90 ≤ second.toNat) ∧
      (first.toNat = 0xF4 → second.toNat < 0x90) := by
  obtain ⟨continues, range⟩ := (Bool.and_eq_true _ _).mp allowed
  refine ⟨continuation_bounds continues, ?_⟩
  simp only [← UInt8.toNat_inj, UInt8.reduceToNat] at range
  refine ⟨fun same => ?_, fun same => ?_, fun same => ?_, fun same => ?_⟩ <;>
    simpa [same, UInt8.le_iff_toNat_le, UInt8.lt_iff_toNat_lt] using range

section Forms

variable {c : Char} {first second third fourth : UInt8}

private theorem encodeChar_one (value : c.toNat = first.toNat) (small : first.toNat < 0x80) : encodeChar c = [first] := by
  simp only [encodeChar, value]
  rw [if_pos small, toUInt8_of_eq rfl]

private theorem encodeChar_two (value : c.toNat = first.toNat % 32 * 64 + second.toNat % 64)
    (range : 0xC2 ≤ first.toNat ∧ first.toNat < 0xE0) (bounds : 0x80 ≤ second.toNat ∧ second.toNat < 0xC0) :
    encodeChar c = [first, second] := by
  simp only [encodeChar, value]
  rw [if_neg (by omega), if_pos (by omega), toUInt8_of_eq (show _ = first.toNat by omega),
    toUInt8_of_eq (show _ = second.toNat by omega)]

private theorem encodeChar_three
    (value : c.toNat = first.toNat % 16 * 4096 + second.toNat % 64 * 64 + third.toNat % 64)
    (range : 0xE0 ≤ first.toNat ∧ first.toNat < 0xF0) (bounds : 0x80 ≤ second.toNat ∧ second.toNat < 0xC0)
    (overlong : first.toNat = 0xE0 → 0xA0 ≤ second.toNat) (last : 0x80 ≤ third.toNat ∧ third.toNat < 0xC0) :
    encodeChar c = [first, second, third] := by
  simp only [encodeChar, value]
  rw [if_neg (by omega), if_neg (by omega), if_pos (by omega), toUInt8_of_eq (show _ = first.toNat by omega),
    toUInt8_of_eq (show _ = second.toNat by omega), toUInt8_of_eq (show _ = third.toNat by omega)]

private theorem encodeChar_four
    (value : c.toNat = first.toNat % 8 * 262144 + second.toNat % 64 * 4096 + third.toNat % 64 * 64 + fourth.toNat % 64)
    (range : 0xF0 ≤ first.toNat ∧ first.toNat < 0xF5) (bounds : 0x80 ≤ second.toNat ∧ second.toNat < 0xC0)
    (overlong : first.toNat = 0xF0 → 0x90 ≤ second.toNat) (inner : 0x80 ≤ third.toNat ∧ third.toNat < 0xC0)
    (last : 0x80 ≤ fourth.toNat ∧ fourth.toNat < 0xC0) : encodeChar c = [first, second, third, fourth] := by
  simp only [encodeChar, value]
  rw [if_neg (by omega), if_neg (by omega), if_neg (by omega), toUInt8_of_eq (show _ = first.toNat by omega),
    toUInt8_of_eq (show _ = second.toNat by omega), toUInt8_of_eq (show _ = third.toNat by omega),
    toUInt8_of_eq (show _ = fourth.toNat by omega)]

end Forms

/-- The bytes of which a character is read are its form. -/
theorem encodeChar_of_decodeHead {first : UInt8} {rest : Bytes} {c : Char} {taken : Nat}
    (found : decodeHead first rest = .ok (c, taken)) : ∃ others more, rest = others ++ more ∧ taken = others.length + 1 ∧
      encodeChar c = first :: others := by
  simp only [decodeHead, UInt8.lt_iff_toNat_lt, UInt8.reduceToNat] at found
  split at found
  · next one =>
    cases found
    exact ⟨[], rest, rfl, rfl, encodeChar_one (toNat_ofNat (by omega)) one⟩
  split at found
  · cases found
  split at found
  · next two =>
    split at found
    · cases found
    next second more =>
    split at found
    · next continues =>
      cases found
      have bounds := continuation_bounds continues
      exact ⟨[second], more, rfl, rfl, encodeChar_two (toNat_ofNat (by unfold payload; omega)) (by omega) bounds⟩
    · cases found
  split at found
  · next three =>
    split at found
    · cases found
    next second tail =>
    split at found
    · cases found
    next allowed =>
    obtain ⟨bounds, overlong, surrogate, -, -⟩ := secondAllowed_bounds ((Bool.not_eq_false _).mp (by simpa using allowed))
    split at found
    · cases found
    next third more =>
    split at found
    · next last =>
      cases found
      have lastBounds := continuation_bounds last
      exact ⟨[second, third], more, rfl, rfl,
        encodeChar_three (toNat_ofNat (by unfold payload; omega)) (by omega) bounds overlong lastBounds⟩
    · cases found
  split at found
  · next four =>
    split at found
    · cases found
    next second tail =>
    split at found
    · cases found
    next allowed =>
    obtain ⟨bounds, -, -, overlong, large⟩ := secondAllowed_bounds ((Bool.not_eq_false _).mp (by simpa using allowed))
    split at found
    · cases found
    next third tail =>
    split at found
    · cases found
    next inner =>
    have innerBounds := continuation_bounds ((Bool.not_eq_false _).mp (by simpa using inner))
    split at found
    · cases found
    next fourth more =>
    split at found
    · next last =>
      cases found
      have lastBounds := continuation_bounds last
      exact ⟨[second, third, fourth], more, rfl, rfl,
        encodeChar_four (toNat_ofNat (by unfold payload; omega)) (by omega) bounds overlong innerBounds lastBounds⟩
    · cases found
  · cases found

/-- Bytes that are accepted are those of the text that they are read as. -/
theorem encodeChars_of_decode {bytes : Bytes} {text : List Char} (found : decode bytes = .ok text) :
    encodeChars text = bytes := by
  have from_ (size : Nat) : ∀ (bytes : Bytes) (offset : Nat) (text : List Char), bytes.length = size →
      decodeFrom offset 0 bytes = .ok text → encodeChars text = bytes := by
    induction size using Nat.strongRecOn with
    | ind size eq =>
      intro bytes offset text length found
      cases bytes with
      | nil =>
        cases found
        rfl
      | cons first rest =>
        simp only [decodeFrom] at found
        split at found
        · cases found
        next c taken head =>
        split at found
        · cases found
        next later decoded =>
        cases found
        obtain ⟨others, more, rfl, rfl, form⟩ := encodeChar_of_decodeHead head
        rw [Nat.add_sub_cancel, decodeFrom_skip] at decoded
        have shorter : more.length < size := by
          rw [← length, List.length_cons, List.length_append]
          omega
        rw [encodeChars, List.flatMap_cons, form, ← encodeChars, eq _ shorter more _ later rfl decoded, List.cons_append]
  exact from_ bytes.length bytes 0 text rfl found

end Scaffold.Text
