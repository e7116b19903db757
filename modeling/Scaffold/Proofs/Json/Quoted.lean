import Scaffold.Json.Reader

/-! # String literals that are read

The reader takes exactly the literal of a text, stops behind its closing quote, and yields the text that was
written: the characters with a mark of their own, the other controls, and all the rest as they are.
-/

namespace Scaffold.Json

open Scaffold.Text

theorem hexValue?_hexDigit : ∀ digit < 16, hexValue? (hexDigit digit) = some digit := by decide

theorem hexUnit?_unitEscape {unit : Nat} (lt : unit < 0x10000) :
    hexUnit? [hexDigit (unit / 4096 % 16), hexDigit (unit / 256 % 16), hexDigit (unit / 16 % 16),
      hexDigit (unit % 16)] = some unit := by
  have digit (n : Nat) : hexValue? (hexDigit (n % 16)) = some (n % 16) :=
    hexValue?_hexDigit _ (Nat.mod_lt _ (by decide))
  simp only [hexUnit?, List.foldl_cons, List.foldl_nil, digit]
  congr 1
  omega

/-- The reader steps over the rest of an escape. -/
theorem readText_skip (start position : Nat) (escape rest : List Char) :
    readText start position escape.length (escape ++ rest) = readText start (position + escape.length) 0 rest := by
  induction escape generalizing position with
  | nil => rfl
  | cons c escape skip =>
    rw [List.length_cons, List.cons_append, readText, skip, Nat.add_right_comm, Nat.add_assoc]

/-- An escape that means a character is read as that character. -/
private theorem readText_escape {start position : Nat} (escape : List Char) {rest text : List Char} {meant : Char}
    {next : Place}
    (escaped : readEscape position start (escape ++ rest) = .ok (meant, escape.length + 1))
    (later : readText start (position + (escape.length + 1)) 0 rest = .ok (text, next)) :
    readText start position 0 ('\\' :: escape ++ rest) = .ok (meant :: text, next) := by
  rw [List.cons_append, readText, if_neg (by decide), if_pos rfl, escaped]
  simp only [Nat.add_sub_cancel, readText_skip]
  rw [Nat.add_assoc, Nat.add_comm 1, later]

/-- The digits of a unit that is no surrogate are read as its character. -/
private theorem readEscape_unitEscape {position start : Nat} {c : Char} {rest : List Char} (plane : c.toNat < 0x10000)
    (followed : rest ≠ []) :
    readEscape position start ((unitEscape c.toNat).tail ++ rest) = .ok (c, (unitEscape c.toNat).tail.length + 1) := by
  have long : ¬ (hexDigit (c.toNat / 4096 % 16) :: hexDigit (c.toNat / 256 % 16) :: hexDigit (c.toNat / 16 % 16) ::
      hexDigit (c.toNat % 16) :: rest).length ≤ 4 := by
    have := List.length_pos_iff.mpr followed
    simp only [List.length_cons]
    omega
  have valid : c.toNat < 0xD800 ∨ 0xDFFF < c.toNat ∧ c.toNat < 0x110000 := c.valid
  have low : (0xD800 ≤ c.toNat && c.toNat < 0xE000) = false := by
    rw [← Bool.decide_and, decide_eq_false_iff_not]
    omega
  have high : (0xD800 ≤ c.toNat && c.toNat < 0xDC00) = false := by
    rw [← Bool.decide_and, decide_eq_false_iff_not]
    omega
  simp only [unitEscape, List.tail_cons, List.cons_append, List.nil_append, readEscape, readUnit, if_neg long,
    List.take_succ_cons, List.take_zero, hexUnit?_unitEscape plane, low, high, Bool.false_and, Char.ofNat_toNat]
  split <;> rfl

/-- The digits of two surrogates are read as the character that they stand for. -/
private theorem readEscape_pairEscape {position start high low : Nat} {rest : List Char} (highLt : high < 1024)
    (lowLt : low < 1024) (followed : rest ≠ []) :
    readEscape position start ((unitEscape (0xD800 + high) ++ unitEscape (0xDC00 + low)).tail ++ rest) =
      .ok (Char.ofNat (0x10000 + high * 1024 + low), 12) := by
  have more := List.length_pos_iff.mpr followed
  have unit : hexUnit? ((unitEscape (0xD800 + high)).drop 2) = some (0xD800 + high) := hexUnit?_unitEscape (by omega)
  have other : hexUnit? ((unitEscape (0xDC00 + low)).drop 2) = some (0xDC00 + low) := hexUnit?_unitEscape (by omega)
  have isHigh : (decide (0xD800 ≤ 0xD800 + high) && decide (0xD800 + high < 0xDC00)) = true := by
    rw [Bool.and_eq_true, decide_eq_true_eq, decide_eq_true_eq]
    omega
  have isLow : (decide (0xDC00 ≤ 0xDC00 + low) && decide (0xDC00 + low < 0xE000)) = true := by
    rw [Bool.and_eq_true, decide_eq_true_eq, decide_eq_true_eq]
    omega
  have highEq : 0xD800 + high - 0xD800 = high := Nat.add_sub_cancel_left _ _
  have lowEq : 0xDC00 + low - 0xDC00 = low := Nat.add_sub_cancel_left _ _
  generalize 0xD800 + high = first at unit isHigh highEq ⊢
  generalize 0xDC00 + low = second at other isLow lowEq ⊢
  let front := (unitEscape first).drop 2
  let back := (unitEscape second).drop 2
  have shape : (unitEscape first ++ unitEscape second).tail ++ rest =
      'u' :: (front ++ '\\' :: 'u' :: (back ++ rest)) := rfl
  have enough : 4 < (back ++ rest).length := by simpa [back, unitEscape] using more
  have read : readUnit position (front ++ '\\' :: 'u' :: (back ++ rest)) = .ok first := by
    rw [readUnit, if_neg (by simp [front, unitEscape]), List.take_left' (by rfl), unit]
  rw [shape, readEscape, read]
  dsimp only
  rw [List.drop_left' (by rfl)]
  simp only [isHigh, decide_eq_true enough, Bool.true_and, if_true]
  rw [List.take_left' (by rfl), other]
  simp only [isLow, if_true, highEq, lowEq]

/-- The escapes of a character are read as this character. -/
private theorem readEscape_charEscape {position start : Nat} {c : Char} {rest : List Char} (followed : rest ≠ []) :
    readEscape position start ((charEscape c).tail ++ rest) = .ok (c, (charEscape c).tail.length + 1) := by
  unfold charEscape
  dsimp only
  split
  · next plane => exact readEscape_unitEscape plane followed
  · next beyond =>
    have valid : c.toNat < 0xD800 ∨ 0xDFFF < c.toNat ∧ c.toNat < 0x110000 := c.valid
    have meant : 0x10000 + (c.toNat - 0x10000) / 1024 * 1024 + (c.toNat - 0x10000) % 1024 = c.toNat := by omega
    rw [readEscape_pairEscape (by omega) (by omega) followed, meant, Char.ofNat_toNat]
    rfl

/-- A character of a literal is read as it was written. -/
private theorem readText_quoteChar {charset : Charset} {start position : Nat} {c : Char} {rest text : List Char} {next : Place}
    (followed : rest ≠ [])
    (later : readText start (position + (quoteChar charset c).length) 0 rest = .ok (text, next)) :
    readText start position 0 (quoteChar charset c ++ rest) = .ok (c :: text, next) := by
  -- the characters that are written as a backslash and a mark, then the other controls, then all the rest
  by_cases quote : c = '"'
  · subst quote
    exact readText_escape ['"'] rfl later
  by_cases backslash : c = '\\'
  · subst backslash
    exact readText_escape ['\\'] rfl later
  by_cases feed : c = '\n'
  · subst feed
    exact readText_escape ['n'] rfl later
  by_cases return_ : c = '\r'
  · subst return_
    exact readText_escape ['r'] rfl later
  by_cases tab : c = '\t'
  · subst tab
    exact readText_escape ['t'] rfl later
  by_cases back : c = '\x08'
  · subst back
    exact readText_escape ['b'] rfl later
  by_cases form : c = '\x0c'
  · subst form
    exact readText_escape ['f'] rfl later
  have escaped (same : quoteChar charset c = charEscape c) :
      readText start position 0 (quoteChar charset c ++ rest) = .ok (c :: text, next) := by
    obtain ⟨escape, eq⟩ : ∃ escape, charEscape c = '\\' :: escape := by
      unfold charEscape
      dsimp only
      split <;> exact ⟨_, rfl⟩
    have read := @readEscape_charEscape position start c rest followed
    rw [same, eq] at later ⊢
    rw [eq] at read
    exact readText_escape escape read later
  simp only [quoteChar, quote, backslash, feed, return_, tab, back, form, if_false] at escaped later ⊢
  by_cases control : c.toNat < 32
  · exact escaped (if_pos control)
  by_cases beyond : (decide (charset = .ascii) && decide (126 < c.toNat)) = true
  · exact escaped ((if_neg control).trans (if_pos beyond))
  · rw [if_neg control, if_neg beyond] at later ⊢
    rw [List.singleton_append, readText.eq_def]
    simp only [quote, backslash, control, if_false]
    rw [show position + 1 = position + [c].length from rfl, later]

/-- A string literal is read as the text that was written. -/
theorem readText_quote (charset : Charset) (start position : Nat) (text rest : List Char) :
    ∃ position', readText start position 0 (text.flatMap (quoteChar charset) ++ '"' :: rest) =
      .ok (text, ⟨position', rest⟩) := by
  induction text generalizing position with
  | nil => exact ⟨position + 1, rfl⟩
  | cons c text read =>
    obtain ⟨position', later⟩ := read (position + (quoteChar charset c).length)
    rw [List.flatMap_cons, List.append_assoc]
    exact ⟨position', readText_quoteChar (by simp) later⟩

end Scaffold.Json
