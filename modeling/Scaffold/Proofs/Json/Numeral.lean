import Mathlib.Data.Nat.Digits.Defs
import Scaffold.Json.Reader

/-! # Reading numbers that are written

The text of a number is a numeral: an optional sign, digits without a needless zero in front, perhaps a
fraction, and perhaps an exponent. The reader takes a whole numeral and stops behind it. An integer is read as
what it was. A number with a point or an exponent is read as one again; which one is not said here.
-/

namespace Scaffold.Json

open Scaffold.Number

/-- The parts of the text of a number. -/
structure Numeral where
  negative : Bool
  whole : List Char
  fraction : List Char
  /-- The sign and the digits of the exponent. -/
  exponent : Option (Char × List Char)

namespace Numeral

/-- Nothing but digits, and at least one. -/
structure Digits (digits : List Char) : Prop where
  nonempty : digits ≠ []
  all : ∀ c ∈ digits, c.isDigit = true

/-- The parts are digits, and the first digit is no zero unless it stands alone. -/
structure Sound (numeral : Numeral) : Prop where
  whole : Digits numeral.whole
  leading : numeral.whole.head? = some '0' → numeral.whole = ['0']
  fraction : ∀ c ∈ numeral.fraction, c.isDigit = true
  exponent : ∀ sign digits, numeral.exponent = some (sign, digits) → (sign = '+' ∨ sign = '-') ∧ Digits digits

def fractionText (numeral : Numeral) : List Char :=
  if numeral.fraction.isEmpty then [] else '.' :: numeral.fraction

def exponentText (numeral : Numeral) : List Char :=
  match numeral.exponent with
  | none => []
  | some (sign, digits) => 'e' :: sign :: digits

def signText (numeral : Numeral) : List Char := if numeral.negative then ['-'] else []

def text (numeral : Numeral) : List Char :=
  numeral.signText ++ (numeral.whole ++ (numeral.fractionText ++ numeral.exponentText))

/-- Whether a numeral stands for an integer. -/
def isWhole (numeral : Numeral) : Bool := numeral.fraction.isEmpty && numeral.exponent.isNone

end Numeral

/-- What may stand behind a value: a comma or a line break. -/
def Ended (rest : List Char) : Prop := rest.head? = some ',' ∨ rest.head? = some '\n'

theorem takeWhile_append_of_stop {accepts : Char → Bool} {front rest : List Char}
    (all : ∀ c ∈ front, accepts c = true) (stop : ∀ c, rest.head? = some c → accepts c = false) :
    (front ++ rest).takeWhile accepts = front := by
  rw [List.takeWhile_append_of_pos all]
  cases rest with
  | nil => simp
  | cons c rest => rw [List.takeWhile_cons_of_neg (by simp [stop c rfl]), List.append_nil]

namespace Ended

variable {rest : List Char}

theorem head (ended : Ended rest) {c : Char} (head : rest.head? = some c) : c = ',' ∨ c = '\n' := by
  rcases ended with comma | feed
  · exact .inl (Option.some.inj (head.symm.trans comma))
  · exact .inr (Option.some.inj (head.symm.trans feed))

theorem not_isDigit (ended : Ended rest) (c : Char) (head : rest.head? = some c) : c.isDigit = false := by
  rcases ended.head head with rfl | rfl <;> decide

end Ended

variable {numeral : Numeral} {rest : List Char}

/-- What stands behind the digits in front of the point is no digit. -/
private theorem not_isDigit_afterWhole (ended : Ended rest) (c : Char)
    (head : (numeral.fractionText ++ numeral.exponentText ++ rest).head? = some c) : c.isDigit = false := by
  unfold Numeral.fractionText Numeral.exponentText at head
  split at head
  · split at head
    · exact ended.not_isDigit c head
    · cases head
      decide
  · cases head
    decide

/-- What stands behind the fraction is no digit. -/
private theorem not_isDigit_afterFraction (ended : Ended rest) (c : Char)
    (head : (numeral.exponentText ++ rest).head? = some c) : c.isDigit = false := by
  unfold Numeral.exponentText at head
  split at head
  · exact ended.not_isDigit c head
  · cases head
    decide

/-- Where no exponent is written none is read. -/
private theorem readExponent_of_ended (ended : Ended rest) : readExponent rest = none := by
  cases rest with
  | nil => rfl
  | cons c rest =>
    rcases ended.head rfl with rfl | rfl <;> rfl

private theorem readExponent_exponentText (sound : numeral.Sound) (ended : Ended rest) :
    (readExponent (numeral.exponentText ++ rest)).isSome = numeral.exponent.isSome ∧
      ((readExponent (numeral.exponentText ++ rest)).map (·.2)).getD 0 = numeral.exponentText.length := by
  cases written : numeral.exponent with
  | none =>
    simp only [Numeral.exponentText, written, List.nil_append, readExponent_of_ended ended]
    exact ⟨rfl, rfl⟩
  | some power =>
    obtain ⟨sign, digits⟩ := power
    obtain ⟨signed, sound⟩ := sound.exponent sign digits written
    have taken : (digits ++ rest).takeWhile Char.isDigit = digits :=
      takeWhile_append_of_stop sound.all ended.not_isDigit
    have some_ : digits.isEmpty = false := List.isEmpty_eq_false_iff.mpr sound.nonempty
    simp only [Numeral.exponentText, written, List.cons_append, readExponent]
    rcases signed with rfl | rfl <;> simp [taken, some_] <;> omega

/-- The digits of the fraction are read, and where none is written none are. -/
private theorem fractionDigits_fractionText (sound : numeral.Sound) (ended : Ended rest) :
    fractionDigits (numeral.fractionText ++ numeral.exponentText ++ rest) = numeral.fraction := by
  by_cases none_ : numeral.fraction = []
  · have empty : numeral.fractionText = [] := by simp [Numeral.fractionText, none_]
    rw [empty, none_, List.nil_append]
    unfold fractionDigits
    split
    · next pointed =>
      have point : (numeral.exponentText ++ rest).head? = some '.' := by rw [pointed]; rfl
      unfold Numeral.exponentText at point
      split at point
      · rcases ended.head point with other | other <;> cases other
      · cases point
    · rfl
  · have pointed : numeral.fractionText = '.' :: numeral.fraction := by simp [Numeral.fractionText, none_]
    rw [pointed, List.cons_append, List.cons_append, List.append_assoc]
    exact takeWhile_append_of_stop sound.fraction (not_isDigit_afterFraction ended)

/-- The reader takes a numeral and stops behind it. -/
theorem readNumber_text (sound : numeral.Sound) (ended : Ended rest) (position : Nat) :
    ∃ value position', readNumber ⟨position, numeral.text ++ rest⟩ = .ok (value, ⟨position', rest⟩) ∧
      (numeral.isWhole = true →
        value = .integer (if numeral.negative then -(decimalValue numeral.whole : Int) else decimalValue numeral.whole)) ∧
      (numeral.isWhole = false → ∃ number, value = .float number) := by
  obtain ⟨first, others, split⟩ := List.exists_cons_of_ne_nil sound.whole.nonempty
  have firstDigit : first.isDigit = true := sound.whole.all first (by simp [split])
  have notSign : first ≠ '-' := by
    rintro rfl
    cases firstDigit
  -- the sign
  have negative : ((numeral.text ++ rest).head? = some '-') = (numeral.negative = true) := by
    unfold Numeral.text Numeral.signText
    cases numeral.negative <;> simp [split, notSign]
  have signLength : (if numeral.negative then 1 else 0) = numeral.signText.length := by
    unfold Numeral.signText
    cases numeral.negative <;> rfl
  have unsigned : (numeral.text ++ rest).drop numeral.signText.length =
      numeral.whole ++ (numeral.fractionText ++ numeral.exponentText ++ rest) := by
    rw [Numeral.text, List.append_assoc, List.drop_left, List.append_assoc]
  -- the digits in front of the point
  have whole : (if (numeral.whole ++ (numeral.fractionText ++ numeral.exponentText ++ rest)).head? = some '0' then ['0']
      else (numeral.whole ++ (numeral.fractionText ++ numeral.exponentText ++ rest)).takeWhile Char.isDigit) =
      numeral.whole := by
    rw [split, List.cons_append, List.head?_cons, ← List.cons_append, ← split]
    by_cases zero : first = '0'
    · rw [if_pos (by rw [zero]), sound.leading (by rw [split, zero]; rfl)]
    · rw [if_neg (by simpa using zero)]
      exact takeWhile_append_of_stop sound.whole.all (not_isDigit_afterWhole ended)
  have afterWhole : (numeral.whole ++ (numeral.fractionText ++ numeral.exponentText ++ rest)).drop numeral.whole.length =
      numeral.fractionText ++ numeral.exponentText ++ rest := List.drop_left
  -- the fraction
  have fraction := fractionDigits_fractionText sound ended
  have fractionLength : (if numeral.fraction.isEmpty then 0 else numeral.fraction.length + 1) =
      numeral.fractionText.length := by
    unfold Numeral.fractionText
    split <;> rfl
  have afterFraction : (numeral.fractionText ++ numeral.exponentText ++ rest).drop numeral.fractionText.length =
      numeral.exponentText ++ rest := by rw [List.append_assoc, List.drop_left]
  -- the exponent
  obtain ⟨exponent, exponentLength⟩ := readExponent_exponentText sound ended
  have wholeSome : numeral.whole.isEmpty = false := List.isEmpty_eq_false_iff.mpr sound.whole.nonempty
  have next : (Place.mk position (numeral.text ++ rest)).advance (numeral.signText.length + numeral.whole.length +
      numeral.fractionText.length + numeral.exponentText.length) = ⟨position + numeral.text.length, rest⟩ := by
    have length : numeral.signText.length + numeral.whole.length + numeral.fractionText.length +
        numeral.exponentText.length = numeral.text.length := by
      simp only [Numeral.text, List.length_append]
      omega
    rw [length, Place.advance, List.drop_left]
  unfold readNumber
  simp only [negative, signLength, unsigned, whole, wholeSome, afterWhole, fraction, fractionLength, afterFraction,
    exponentLength, next, Bool.false_eq_true, if_false]
  have isWhole : (numeral.fraction.isEmpty && (readExponent (numeral.exponentText ++ rest)).isNone) = numeral.isWhole := by
    rw [Numeral.isWhole, ← Option.not_isSome, exponent, Option.not_isSome]
  rw [isWhole]
  cases numeral.isWhole with
  | true => exact ⟨_, _, rfl, fun _ => rfl, nofun⟩
  | false => exact ⟨_, _, rfl, nofun, fun _ => ⟨_, rfl⟩⟩

/-- A numeral begins with a sign and a digit, or with a digit. -/
theorem exists_head_text (sound : numeral.Sound) :
    (∃ digit others, numeral.text = digit :: others ∧ digit.isDigit = true) ∨
      ∃ digit others, numeral.text = '-' :: digit :: others ∧ digit.isDigit = true := by
  obtain ⟨first, others, split⟩ := List.exists_cons_of_ne_nil sound.whole.nonempty
  have digit : first.isDigit = true := sound.whole.all first (by simp [split])
  unfold Numeral.text Numeral.signText
  rw [split]
  cases numeral.negative with
  | false => exact .inl ⟨_, _, rfl, digit⟩
  | true => exact .inr ⟨_, _, rfl, digit⟩

/-- A numeral is none of the words that stand for values. -/
theorem readPlain_text (sound : numeral.Sound) (position : Nat) :
    readPlain ⟨position, numeral.text ++ rest⟩ = readNumber ⟨position, numeral.text ++ rest⟩ := by
  have none_ : (wordValues.find? fun word => word.1.toList.isPrefixOf (numeral.text ++ rest)) = none := by
    rcases exists_head_text sound with ⟨digit, others, eq, isDigit⟩ | ⟨digit, others, eq, isDigit⟩
    · have other (c : Char) (letter : c.isDigit = false) : (c == digit) = false := by
        rw [beq_eq_false_iff_ne]
        rintro rfl
        rw [letter] at isDigit
        cases isDigit
      simp [eq, wordValues, List.isPrefixOf, other 'n' (by decide), other 't' (by decide), other 'f' (by decide),
        other 'N' (by decide), other 'I' (by decide), other '-' (by decide)]
    · have other : ('I' == digit) = false := by
        rw [beq_eq_false_iff_ne]
        rintro rfl
        cases isDigit
      simp [eq, wordValues, List.isPrefixOf, other]
  rw [readPlain, none_]

/-! ## Integers -/

theorem toList_toString (n : Nat) : (toString n).toList = Nat.toDigits 10 n := by
  rw [Nat.toString_eq_repr, Nat.repr_eq_ofList_toDigits, String.toList_ofList]

theorem digits_toDigits (n : Nat) : Numeral.Digits (Nat.toDigits 10 n) :=
  ⟨Nat.toDigits_ne_nil, fun _ mem => Nat.isDigit_of_mem_toDigits (by decide) (by decide) mem⟩

theorem decimalValue_toDigits (n : Nat) : decimalValue (Nat.toDigits 10 n) = n := by
  have value : decimalValue (Nat.toDigits 10 n) = Nat.ofDigitChars 10 (Nat.toDigits 10 n) 0 := by
    rw [Nat.ofDigitChars_eq_foldl, decimalValue]
    congr 1
    funext value c
    rw [Nat.mul_comm]
    rfl
  rw [value, Nat.ofDigitChars_toDigits (by decide) (by decide)]

/-- The digits of a number other than zero begin with no zero. -/
theorem head_toDigits {n : Nat} (pos : 0 < n) : (Nat.toDigits 10 n).head? ≠ some '0' := by
  induction n using Nat.strongRecOn with
  | ind n head =>
    rw [Nat.toDigits_eq_if (by decide)]
    split
    · next lt =>
      have digit : ∀ n < 10, 0 < n → some n.digitChar ≠ some '0' := by decide
      exact digit n lt pos
    · have shorter := head (n / 10) (by omega) (by omega)
      obtain ⟨first, others, split⟩ := List.exists_cons_of_ne_nil (Nat.toDigits_ne_nil (n := n / 10) (b := 10))
      rw [split] at shorter ⊢
      exact shorter

/-- The numeral of an integer. -/
def integerNumeral (value : Int) : Numeral := ⟨value < 0, Nat.toDigits 10 value.natAbs, [], none⟩

theorem sound_integerNumeral (value : Int) : (integerNumeral value).Sound where
  whole := digits_toDigits _
  leading head := by
    rcases Nat.eq_zero_or_pos value.natAbs with zero | pos
    · rw [integerNumeral, zero]
      rfl
    · exact absurd head (head_toDigits pos)
  fraction := nofun
  exponent := nofun

theorem text_integerNumeral (value : Int) : (integerNumeral value).text = (toString value).toList := by
  have empty (numeral : Numeral) (none_ : numeral.exponent = none) (whole : numeral.fraction = []) :
      numeral.text = numeral.signText ++ numeral.whole := by
    simp [Numeral.text, Numeral.fractionText, Numeral.exponentText, none_, whole]
  rw [empty _ rfl rfl, Numeral.signText, integerNumeral]
  cases value with
  | ofNat n => exact (toList_toString n).symm
  | negSucc n =>
    have signed : toString (Int.negSucc n) = "-" ++ toString (n + 1) := rfl
    have negative : decide (Int.negSucc n < 0) = true := decide_eq_true (Int.negSucc_lt_zero n)
    rw [signed, String.toList_append, toList_toString, negative]
    rfl

theorem decimalValue_integerNumeral (value : Int) :
    (if (integerNumeral value).negative then -(decimalValue (integerNumeral value).whole : Int)
      else decimalValue (integerNumeral value).whole) = value := by
  rw [integerNumeral, decimalValue_toDigits]
  split <;> simp only [decide_eq_true_eq] at * <;> omega

/-! ## Numbers with a point or an exponent -/

open Binary64

/-- The exponent is written with two digits at least. -/
private theorem exists_digits_padded (power : Nat) :
    ∃ digits, Numeral.Digits digits ∧
      (if (toString power).length < 2 then "0" ++ toString power else toString power) = String.ofList digits := by
  have own := digits_toDigits power
  have text : toString power = String.ofList (Nat.toDigits 10 power) := by
    rw [← toList_toString, String.ofList_toList]
  split
  · refine ⟨'0' :: Nat.toDigits 10 power, ⟨by simp, ?_⟩, ?_⟩
    · intro c mem
      rcases List.mem_cons.mp mem with rfl | mem
      · rfl
      · exact own.all c mem
    · rw [text]
      apply String.toList_inj.mp
      rw [String.toList_append]
      simp
  · exact ⟨_, own, text⟩

/-- A ratio stays above zero, or zero, when it is scaled. -/
private theorem scaled_spec (num den : Nat) (exponent : Int) (pos : 0 < den) :
    (num = 0 → (scaled num den exponent).1 = 0) ∧ 0 < (scaled num den exponent).2 := by
  unfold scaled
  split
  · exact ⟨fun zero => by rw [zero, Nat.zero_mul], pos⟩
  · exact ⟨id, Nat.mul_pos pos (Nat.pow_pos (by decide))⟩

/-- Zero is no decimal that is rounded to another number. -/
private theorem not_readsBack_zero {significand : Nat} (exponent scale : Int) (nonzero : significand ≠ 0) :
    readsBack significand exponent 0 scale ≠ true := by
  obtain ⟨den, pos, ratio⟩ : ∃ den, 0 < den ∧
      (if 0 ≤ scale then (0 * Nat.pow 10 scale.toNat, 1) else (0, Nat.pow 10 (-scale).toNat)) = (0, den) := by
    split
    · exact ⟨1, by decide, by rw [Nat.zero_mul]⟩
    · exact ⟨_, Nat.pow_pos (by decide), rfl⟩
  obtain ⟨top, bottom⟩ := scaled_spec 0 den (2 - exponent) pos
  unfold readsBack
  rw [ratio]
  dsimp only
  rw [top rfl]
  have refused (factor : Nat) (least : 2 ≤ factor) (high : Bool) :
      (decide (factor * (scaled 0 den (2 - exponent)).2 ≤ 0) && high) ≠ true := by
    have low : 0 < factor * (scaled 0 den (2 - exponent)).2 := Nat.mul_pos (by omega) bottom
    rw [decide_eq_false (Nat.not_le.mpr low)]
    exact Bool.false_ne_true
  split
  · split
    · exact refused _ (by omega) _
    · exact refused _ (by omega) _
  · simp

private theorem digits_ne_zero_of_decimalWith {significand count : Nat} {exponent : Int} {decimal : Nat × Int}
    (nonzero : significand ≠ 0) (found : decimalWith significand exponent count = some decimal) : decimal.1 ≠ 0 := by
  have tried (nearest other : Nat) (scale : Int)
      (found : (if readsBack significand exponent nearest scale then some (nearest, scale)
        else if readsBack significand exponent other scale then some (other, scale) else none) = some decimal) :
      decimal.1 ≠ 0 := by
    split at found
    · next back =>
      cases found
      rintro rfl
      exact not_readsBack_zero exponent scale nonzero back
    · split at found
      · next back =>
        cases found
        rintro rfl
        exact not_readsBack_zero exponent scale nonzero back
      · cases found
  exact tried _ _ _ found

section Layouts

variable {digits : List Char} (isDigits : Numeral.Digits digits) (negative : Bool) (zeros : Nat)

private theorem isDigit_of_mem_zeros {c : Char} (mem : c ∈ List.replicate zeros '0') : c.isDigit = true := by
  rw [List.eq_of_mem_replicate mem]
  rfl

include isDigits

/-- All digits stand in front of the point. -/
private theorem sound_before_point (leading : digits.head? = some '0' → digits = ['0'] ∧ zeros = 0) :
    Numeral.Sound ⟨negative, digits ++ List.replicate zeros '0', ['0'], none⟩ where
  whole := by
    refine ⟨by simp [isDigits.nonempty], fun c mem => ?_⟩
    rcases List.mem_append.mp mem with mem | mem
    · exact isDigits.all c mem
    · exact isDigit_of_mem_zeros zeros mem
  leading head := by
    obtain ⟨first, others, split⟩ := List.exists_cons_of_ne_nil isDigits.nonempty
    obtain ⟨rfl, rfl⟩ := leading (by rw [split] at head ⊢; exact head)
    rfl
  fraction := by simp
  exponent := nofun

/-- The point stands among the digits. -/
private theorem sound_around_point (leading : digits.head? ≠ some '0') (place : Nat) :
    Numeral.Sound ⟨negative, digits.take (place + 1), digits.drop (place + 1), none⟩ where
  whole := ⟨by simp [isDigits.nonempty], fun c mem => isDigits.all c (List.mem_of_mem_take mem)⟩
  leading head := absurd (by rwa [List.head?_take, if_neg (Nat.succ_ne_zero place)] at head) leading
  fraction c mem := isDigits.all c (List.mem_of_mem_drop mem)
  exponent := nofun

/-- All digits stand behind the point. -/
private theorem sound_behind_point : Numeral.Sound ⟨negative, ['0'], List.replicate zeros '0' ++ digits, none⟩ where
  whole := ⟨by simp, by simp⟩
  leading _ := rfl
  fraction c mem := by
    rcases List.mem_append.mp mem with mem | mem
    · exact isDigit_of_mem_zeros zeros mem
    · exact isDigits.all c mem
  exponent := nofun

omit isDigits in
/-- One digit stands in front of the point, and an exponent is written. -/
private theorem sound_with_exponent {first sign : Char} {others power : List Char} (isDigits : Numeral.Digits (first :: others))
    (leading : first ≠ '0') (isSign : sign = '+' ∨ sign = '-') (powerDigits : Numeral.Digits power) :
    Numeral.Sound ⟨negative, [first], others, some (sign, power)⟩ where
  whole := ⟨by simp, by simpa using isDigits.all first List.mem_cons_self⟩
  leading head := absurd (Option.some.inj head) leading
  fraction c mem := isDigits.all c (List.mem_cons_of_mem first mem)
  exponent _ _ eq := by
    obtain ⟨rfl, rfl⟩ := Prod.mk.inj (Option.some.inj eq)
    exact ⟨isSign, powerDigits⟩

end Layouts

/-- Every decimal is written as a numeral that is no integer. A decimal is not zero, or it is zero without a scale. -/
theorem exists_numeral_decimalText {digits : Nat} {scale : Int} (plain : digits = 0 → scale = 0) (negative : Bool) :
    ∃ numeral : Numeral, numeral.Sound ∧ numeral.isWhole = false ∧ numeral.negative = negative ∧
      numeral.text = numeral.signText ++ (decimalText digits scale).toList := by
  have leading (nonzero : digits ≠ 0) : (Nat.toDigits 10 digits).head? ≠ some '0' := head_toDigits (Nat.pos_of_ne_zero nonzero)
  have zero : digits = 0 → Nat.toDigits 10 digits = ['0'] := by
    rintro rfl
    rfl
  have shown := digits_toDigits digits
  unfold decimalText
  rw [toList_toString]
  generalize Nat.toDigits 10 digits = text at leading zero shown
  dsimp only
  generalize exponent_eq : (text.length : Int) - 1 + scale = exponent
  split
  · split
    · refine ⟨_, sound_before_point shown negative scale.toNat ?_, rfl, rfl, ?_⟩
      · intro head
        obtain rfl : digits = 0 := Decidable.of_not_not fun nonzero => leading nonzero head
        exact ⟨zero rfl, by rw [plain rfl]; rfl⟩
      · simp [Numeral.text, Numeral.fractionText, Numeral.exponentText]
    · split
      · next scaled within =>
        have nonzero : digits ≠ 0 := fun zero => scaled (Int.le_of_eq (plain zero).symm)
        have some_ : (text.drop (exponent.toNat + 1)).isEmpty = false :=
          List.isEmpty_eq_false_iff.mpr (List.ne_nil_of_length_pos (by rw [List.length_drop]; omega))
        refine ⟨_, sound_around_point shown negative (leading nonzero) exponent.toNat, ?_, rfl, ?_⟩
        · simp only [Numeral.isWhole, some_, Bool.false_and]
        · simp [Numeral.text, Numeral.fractionText, Numeral.exponentText, some_]
      · refine ⟨_, sound_behind_point shown negative ((-exponent).toNat - 1), ?_, rfl, ?_⟩
        · simp [Numeral.isWhole, shown.nonempty]
        · simp [Numeral.text, Numeral.fractionText, Numeral.exponentText, shown.nonempty]
  · next extreme =>
    have nonzero : digits ≠ 0 := by
      rintro rfl
      rw [zero rfl, plain rfl] at exponent_eq
      subst exponent_eq
      exact extreme rfl
    have head := leading nonzero
    obtain ⟨power, powerDigits, powerText⟩ := exists_digits_padded exponent.natAbs
    rw [powerText]
    obtain ⟨first, others, rfl⟩ := List.exists_cons_of_ne_nil shown.nonempty
    refine ⟨⟨negative, [first], others, some (if exponent < 0 then '-' else '+', power)⟩,
      sound_with_exponent negative shown (by simpa using head) (by split <;> simp) powerDigits, by simp [Numeral.isWhole], rfl, ?_⟩
    unfold Numeral.text Numeral.fractionText Numeral.exponentText
    cases others with
    | nil => split <;> simp
    | cons second others => split <;> simp

/-- The decimal that is written for a number is not zero, or it is zero without a scale. -/
theorem shortestDecimal_plain {significand : Nat} (exponent : Int) (nonzero : significand ≠ 0) :
    (shortestDecimal significand exponent).1 = 0 → (shortestDecimal significand exponent).2 = 0 := by
  have trimmed (fuel digits : Nat) (scale : Int) (nonzero : digits ≠ 0) : (trimZeros fuel digits scale).1 ≠ 0 := by
    induction fuel generalizing digits scale with
    | zero => exact nonzero
    | succ fuel trimmed =>
      unfold trimZeros
      split
      · next trailing =>
        simp only [Bool.and_eq_true, decide_eq_true_eq] at trailing
        exact trimmed _ _ (by omega)
      · exact nonzero
  unfold shortestDecimal
  cases found : ((List.range 17).map (· + 1)).findSome? (decimalWith significand exponent) with
  | none => exact fun _ => rfl
  | some decimal =>
    obtain ⟨count, -, with_⟩ := List.exists_of_findSome?_eq_some found
    intro zero
    exact absurd zero (trimmed _ _ _ (digits_ne_zero_of_decimalWith nonzero with_))

/-- A finite number is written as a numeral that is no integer. -/
theorem exists_numeral_floatText (negative : Bool) (significand : Nat) (exponent : Int) :
    ∃ numeral : Numeral, numeral.Sound ∧ numeral.isWhole = false ∧
      numeral.text = (floatText (.finite negative significand exponent)).toList := by
  obtain ⟨digits, scale, plain, eq⟩ : ∃ digits scale, (digits = 0 → scale = 0) ∧
      magnitudeText significand exponent = decimalText digits scale := by
    by_cases zero : significand = 0
    · exact ⟨0, 0, fun _ => rfl, by rw [magnitudeText, if_pos zero]; rfl⟩
    · exact ⟨_, _, shortestDecimal_plain exponent zero, by rw [magnitudeText, if_neg zero]⟩
  obtain ⟨numeral, sound, isWhole, rfl, text⟩ := exists_numeral_decimalText plain negative
  refine ⟨numeral, sound, isWhole, ?_⟩
  rw [text, floatText, eq, String.toList_append, Numeral.signText]
  cases numeral.negative <;> rfl

end Scaffold.Json
