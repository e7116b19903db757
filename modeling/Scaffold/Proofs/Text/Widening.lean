import Scaffold.Text.Edit

/-! # What a widened range takes

Ranges are widened over white space only, and over one semicolon at most: each function that widens a
range is described by the bytes that it adds.
-/

namespace Scaffold.Text

/-- All bytes from `start` up to `stop` are there and are white space. -/
def Blank (source : Bytes) (start stop : Nat) : Prop :=
  ∀ position, start ≤ position → position < stop → ∃ byte, source[position]? = some byte ∧ isBlankByte byte = true

theorem Blank.append {source : Bytes} {start middle stop : Nat} (first : Blank source start middle)
    (second : Blank source middle stop) : Blank source start stop := by
  intro position after before
  rcases Nat.lt_or_ge position middle with lt | ge
  · exact first position after lt
  · exact second position ge before

theorem Blank.refl (source : Bytes) (offset : Nat) : Blank source offset offset := by
  intro position after before
  omega

theorem Blank.stop_le {source : Bytes} {start stop : Nat} (blank : Blank source start stop) (lt : start < stop) :
    stop ≤ source.length := by
  obtain ⟨byte, at_, -⟩ := blank (stop - 1) (by omega) (by omega)
  have := (List.getElem?_eq_some_iff.mp at_).1
  omega

theorem isBlankByte_of_isIndent {byte : UInt8} (indent : isIndent byte = true) : isBlankByte byte = true := by
  simp only [isIndent, Bool.or_eq_true, decide_eq_true_eq] at indent
  rcases indent with rfl | rfl <;> decide

theorem isBlankByte_lineFeed : isBlankByte lineFeed = true := by decide

theorem getElem?_slice (source : Bytes) (start stop i : Nat) :
    (slice source start stop)[i]? = if i < stop - start then source[start + i]? else none := by
  rw [slice, List.getElem?_take]
  split <;> simp

theorem blank_of_forall_slice {source : Bytes} {start stop : Nat} (le : stop ≤ source.length)
    (blank : ∀ byte ∈ slice source start stop, isBlankByte byte = true) : Blank source start stop := by
  intro position after before
  have at_ : (slice source start stop)[position - start]? = source[position]? := by
    rw [getElem?_slice, if_pos (by omega), show start + (position - start) = position by omega]
  have bound : position < source.length := by omega
  rw [List.getElem?_eq_getElem bound] at at_ ⊢
  exact ⟨_, rfl, blank _ (List.mem_of_getElem? at_)⟩

/-- What is taken from the front of a text is found there. -/
theorem getElem?_of_lt_length_takeWhile {accepts : UInt8 → Bool} {text : Bytes} {i : Nat}
    (lt : i < (text.takeWhile accepts).length) : ∃ byte, text[i]? = some byte ∧ accepts byte = true := by
  induction text generalizing i with
  | nil => simp at lt
  | cons head rest found =>
    rw [List.takeWhile_cons] at lt
    split at lt
    · next accepted =>
      cases i with
      | zero => exact ⟨head, rfl, accepted⟩
      | succ i => exact found (Nat.lt_of_succ_lt_succ lt)
    · simp at lt

/-- What is taken from the front of a text ends at a byte that is not accepted. -/
theorem accepts_eq_false_of_getElem?_takeWhile {accepts : UInt8 → Bool} {text : Bytes} {byte : UInt8}
    (at_ : text[(text.takeWhile accepts).length]? = some byte) : accepts byte = false := by
  induction text with
  | nil => cases at_
  | cons head rest stops =>
    rw [List.takeWhile_cons] at at_
    split at at_
    · exact stops at_
    · next refused =>
      cases at_
      exact Bool.eq_false_iff.mpr refused

/-! ## Blanks behind and in front -/

theorem le_skipSpaces (source : Bytes) (offset : Nat) : offset ≤ skipSpaces source offset :=
  Nat.le_add_right _ _

theorem indent_skipSpaces (source : Bytes) (offset position : Nat) (after : offset ≤ position)
    (before : position < skipSpaces source offset) : ∃ byte, source[position]? = some byte ∧ isIndent byte = true := by
  unfold skipSpaces at before
  obtain ⟨byte, at_, indent⟩ := getElem?_of_lt_length_takeWhile
    (show position - offset < ((source.drop offset).takeWhile isIndent).length by omega)
  rw [List.getElem?_drop, show offset + (position - offset) = position by omega] at at_
  exact ⟨byte, at_, indent⟩

theorem blank_skipSpaces (source : Bytes) (offset : Nat) : Blank source offset (skipSpaces source offset) := by
  intro position after before
  obtain ⟨byte, at_, indent⟩ := indent_skipSpaces source offset position after before
  exact ⟨byte, at_, isBlankByte_of_isIndent indent⟩

theorem skipSpaces_le {source : Bytes} {offset : Nat} (le : offset ≤ source.length) :
    skipSpaces source offset ≤ source.length := by
  have := (List.takeWhile_sublist isIndent (l := source.drop offset)).length_le
  rw [List.length_drop] at this
  unfold skipSpaces
  omega

/-- What is taken back from an offset is found in front of it. -/
theorem accepted_before {accepts : UInt8 → Bool} {source : Bytes} {offset position : Nat} (le : offset ≤ source.length)
    (after : offset - ((source.take offset).reverse.takeWhile accepts).length ≤ position) (before : position < offset) :
    ∃ byte, source[position]? = some byte ∧ accepts byte = true := by
  obtain ⟨byte, at_, accepted⟩ := getElem?_of_lt_length_takeWhile
    (show offset - 1 - position < ((source.take offset).reverse.takeWhile accepts).length by omega)
  have bound : offset - 1 - position < (source.take offset).length := by
    rw [List.length_take]
    omega
  rw [List.getElem?_reverse bound, List.length_take, Nat.min_eq_left le,
    show offset - 1 - (offset - 1 - position) = position by omega, List.getElem?_take_of_lt before] at at_
  exact ⟨byte, at_, accepted⟩

theorem blank_before {source : Bytes} {offset : Nat} (le : offset ≤ source.length) :
    Blank source (offset - ((source.take offset).reverse.takeWhile isIndent).length) offset := by
  intro position after before
  obtain ⟨byte, at_, indent⟩ := accepted_before le after before
  exact ⟨byte, at_, isBlankByte_of_isIndent indent⟩

theorem lineStart_eq {source : Bytes} {offset : Nat} (le : offset ≤ source.length) :
    lineStart source offset = offset - ((source.take offset).reverse.takeWhile (· ≠ lineFeed)).length := by
  unfold lineStart
  dsimp only
  rw [List.length_take, Nat.min_eq_left le]

theorem lineStart_le {source : Bytes} {offset : Nat} : lineStart source offset ≤ offset := by
  have := List.length_take_le offset source
  unfold lineStart
  dsimp only
  omega

theorem le_lineStop {source : Bytes} {offset : Nat} (le : offset ≤ source.length) :
    offset ≤ lineStop source offset := by
  unfold lineStop
  split <;> omega

theorem lineStop_le (source : Bytes) (offset : Nat) : lineStop source offset ≤ source.length := by
  unfold lineStop
  split
  · exact Nat.le_refl _
  · have := (List.takeWhile_sublist (· ≠ lineFeed) (l := source.drop offset)).length_le
    rw [List.length_drop] at this
    omega

/-! ## Lines -/

theorem blank_of_isBlankRange {source : Bytes} {start stop : Nat} (le : stop ≤ source.length)
    (blank : isBlankRange source start stop = true) : Blank source start stop :=
  blank_of_forall_slice le (List.all_eq_true.mp blank)

/-- The bytes that a slice is known to hold are those of the source. -/
theorem getElem?_of_slice_eq {source bytes : Bytes} {start stop i : Nat} {byte : UInt8}
    (eq : slice source start stop = bytes) (at_ : bytes[i]? = some byte) : source[start + i]? = some byte := by
  rw [← eq, getElem?_slice] at at_
  split at at_
  · exact at_
  · cases at_

/-- A range is widened over white space only. -/
structure Widened (source : Bytes) (start stop newStart newStop : Nat) : Prop where
  start_le : newStart ≤ start
  le_stop : stop ≤ newStop
  stop_le : newStop ≤ source.length
  front : Blank source newStart start
  back : Blank source stop newStop

theorem Widened.refl {source : Bytes} {start stop : Nat} (le : stop ≤ source.length) :
    Widened source start stop start stop :=
  ⟨Nat.le_refl _, Nat.le_refl _, le, .refl _ _, .refl _ _⟩

/-- The end of a range with a semicolon directly behind it. -/
def pastSemicolon (source : Bytes) (stop : Nat) : Nat :=
  if slice source stop (stop + 1) = [59] then stop + 1 else stop

theorem le_pastSemicolon (source : Bytes) (stop : Nat) : stop ≤ pastSemicolon source stop := by
  unfold pastSemicolon
  split <;> omega

/-- Behind the range stands at most one byte more, and that is a semicolon. -/
theorem pastSemicolon_spec (source : Bytes) (stop : Nat) :
    pastSemicolon source stop = stop ∨ pastSemicolon source stop = stop + 1 ∧ source[stop]? = some 59 := by
  unfold pastSemicolon
  split
  · next closed => exact .inr ⟨rfl, getElem?_of_slice_eq closed (i := 0) rfl⟩
  · exact .inl rfl

theorem pastSemicolon_of_getElem? {source : Bytes} {stop : Nat} (semicolon : source[stop]? = some 59) :
    pastSemicolon source stop = stop + 1 := by
  obtain ⟨lt, at_⟩ := List.getElem?_eq_some_iff.mp semicolon
  apply if_pos
  rw [slice, List.drop_eq_getElem_cons lt, at_, Nat.add_sub_cancel_left]
  rfl

/-- Behind the last byte of a line stands a line feed, or nothing. -/
theorem getElem?_lineStop {source : Bytes} {offset : Nat} {byte : UInt8}
    (at_ : source[lineStop source offset]? = some byte) : byte = lineFeed := by
  unfold lineStop at at_
  split at at_
  · simp at at_
  · rw [← List.getElem?_drop] at at_
    simpa using accepts_eq_false_of_getElem?_takeWhile at_

/-- No line break stands on the line of an offset from there on. -/
theorem getElem?_of_lt_lineStop {source : Bytes} {offset position : Nat} (after : offset ≤ position)
    (before : position < lineStop source offset) : source[position]? ≠ some lineFeed := by
  unfold lineStop at before
  split at before
  · next outside =>
    rw [List.getElem?_eq_none (by omega)]
    exact nofun
  · obtain ⟨byte, at_, other⟩ := getElem?_of_lt_length_takeWhile
      (show position - offset < ((source.drop offset).takeWhile (· ≠ lineFeed)).length by omega)
    rw [List.getElem?_drop, show offset + (position - offset) = position by omega] at at_
    rw [at_]
    rintro ⟨⟩
    simp at other

/-- A line begins behind a line break, unless it is the first. -/
theorem lineStart_eq_zero_or {source : Bytes} {offset : Nat} (le : offset ≤ source.length) :
    lineStart source offset = 0 ∨ source[lineStart source offset - 1]? = some lineFeed := by
  have short : (source.take offset).length = offset := by rw [List.length_take]; omega
  rw [lineStart_eq le]
  cases found : (source.take offset).reverse[((source.take offset).reverse.takeWhile (· ≠ lineFeed)).length]? with
  | none =>
    left
    have all := List.getElem?_eq_none_iff.mp found
    rw [List.length_reverse, short] at all
    omega
  | some byte =>
    right
    obtain ⟨inside, -⟩ := List.getElem?_eq_some_iff.mp found
    rw [List.length_reverse, short] at inside
    obtain rfl : byte = lineFeed := by simpa using accepts_eq_false_of_getElem?_takeWhile found
    rw [List.getElem?_reverse (by omega), short, List.getElem?_take_of_lt (by omega)] at found
    rw [← found]
    congr 1
    omega

/-- A range is widened over white space, to the left only up to the beginning of a line, and to the right not
past a line break. -/
structure LineWidened (source : Bytes) (start stop newStart newStop : Nat) : Prop
    extends Widened source start stop newStart newStop where
  begins : newStart = start ∨ newStart = 0 ∨ source[newStart - 1]? = some lineFeed
  ends : ∀ position, stop ≤ position → position + 1 < newStop → source[position]? ≠ some lineFeed

theorem lineWidened_ownedLine {source : Bytes} {start stop : Nat} (ordered : start ≤ stop) (le : stop ≤ source.length) :
    LineWidened source start stop (ownedLine source start stop).1 (ownedLine source start stop).2 := by
  unfold ownedLine
  dsimp only
  split
  · next owned =>
    obtain ⟨front, back⟩ := (Bool.and_eq_true _ _).mp owned
    have last := le_lineStop le
    have inside := lineStop_le source stop
    have feed : Blank source (lineStop source stop) (min (lineStop source stop + 1) source.length) := by
      intro position after before
      obtain rfl : position = lineStop source stop := by omega
      have bound : lineStop source stop < source.length := by omega
      refine ⟨source[lineStop source stop], List.getElem?_eq_getElem bound, ?_⟩
      rw [getElem?_lineStop (List.getElem?_eq_getElem bound)]
      decide
    exact ⟨⟨lineStart_le, by omega, by omega, blank_of_isBlankRange (by omega) front,
      (blank_of_isBlankRange inside back).append feed⟩, .inr (lineStart_eq_zero_or (by omega)),
      fun position after before => getElem?_of_lt_lineStop after (by omega)⟩
  · exact ⟨.refl le, .inl rfl, fun position after before => by omega⟩

/-- A byte is there and is no white space. -/
def Dark (source : Bytes) (position : Nat) : Prop :=
  ∃ byte, source[position]? = some byte ∧ isBlankByte byte = false

theorem Dark.not_blank {source : Bytes} {start stop position : Nat} (dark : Dark source position)
    (blank : Blank source start stop) : position < start ∨ stop ≤ position := by
  rcases Nat.lt_or_ge position start with lt | ge
  · exact .inl lt
  · refine .inr (Nat.le_of_not_lt fun lt => ?_)
    obtain ⟨byte, at_, isBlank⟩ := blank position ge lt
    obtain ⟨other, found, plain⟩ := dark
    rw [at_] at found
    cases found
    rw [isBlank] at plain
    cases plain

/-- Two ranges with a byte that is no white space between them, or at the end of the first, do not touch when
they are widened. -/
theorem LineWidened.apart {source : Bytes} {start stop newStart newStop : Nat} {first last newFirst newLast middle : Nat}
    (front : LineWidened source start stop newStart newStop) (back : LineWidened source first last newFirst newLast)
    (dark : Dark source first) (between : Dark source middle) (after : stop ≤ middle + 1) (before : middle < first) :
    newStop ≤ newFirst := by
  have frontStop := front.le_stop
  have backStart := back.start_le
  have reach := dark.not_blank front.back
  have gap := between.not_blank back.front
  rcases back.begins with same | zero | feed
  · omega
  · omega
  · rcases Nat.lt_or_ge newFirst newStop with lt | ge
    · -- the line break in front of the second range would stand inside the first one
      have outside : newFirst - 1 < stop := by
        refine Nat.lt_of_not_le fun le => front.ends (newFirst - 1) le (by omega) feed
      obtain ⟨byte, at_, plain⟩ := between
      obtain rfl : middle = newFirst - 1 := by omega
      rw [at_] at feed
      cases feed
      cases plain
    · exact ge

/-! ## Blank lines -/

private theorem blank_blankLines (pending : Nat) (text : Bytes) :
    blankLinesLength pending text ≤ pending + text.length ∧
      ∀ i, pending + i < blankLinesLength pending text → ∃ byte, text[i]? = some byte ∧ isBlankByte byte = true := by
  induction text generalizing pending with
  | nil => exact ⟨Nat.zero_le _, fun i lt => by simp [blankLinesLength] at lt⟩
  | cons head rest blank =>
    unfold blankLinesLength
    split
    · next feed =>
      obtain ⟨le, inner⟩ := blank 0
      refine ⟨by simp only [List.length_cons]; omega, fun i lt => ?_⟩
      cases i with
      | zero => exact ⟨head, rfl, feed ▸ isBlankByte_lineFeed⟩
      | succ i => exact inner i (by omega)
    · split
      · next blankHead =>
        obtain ⟨le, inner⟩ := blank (pending + 1)
        refine ⟨by simp only [List.length_cons]; omega, fun i lt => ?_⟩
        cases i with
        | zero => exact ⟨head, rfl, blankHead⟩
        | succ i => exact inner i (by omega)
      · exact ⟨Nat.zero_le _, fun i lt => by omega⟩

theorem blank_skipBlankLines (source : Bytes) (position : Nat) :
    Blank source position (skipBlankLines source position) := by
  intro at_ after before
  unfold skipBlankLines at before
  obtain ⟨byte, found, blank⟩ := (blank_blankLines 0 (source.drop position)).2 (at_ - position) (by omega)
  rw [List.getElem?_drop, show position + (at_ - position) = at_ by omega] at found
  exact ⟨byte, found, blank⟩

theorem le_skipBlankLines (source : Bytes) (position : Nat) : position ≤ skipBlankLines source position :=
  Nat.le_add_right _ _

theorem skipBlankLines_le {source : Bytes} {position : Nat} (le : position ≤ source.length) :
    skipBlankLines source position ≤ source.length := by
  have := (blank_blankLines 0 (source.drop position)).1
  rw [List.length_drop] at this
  unfold skipBlankLines
  omega

end Scaffold.Text
