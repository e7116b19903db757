import Scaffold.Proofs.Syntax.Coverage

/-! # How tokens begin and end

A token begins with a character that does not separate tokens, and only the mark itself begins with a semicolon. Apart
from the stretches of text in templates and markup a token ends with such a character as well, and a comment does so or
ends with its line.
-/

namespace Scaffold.Syntax

open Scaffold.Text

variable {text rest : List Char} {c : Char} {length more : Nat}

/-- The first characters of a text are none that separates tokens. -/
def Inked (text : List Char) (length : Nat) : Prop := ∀ c ∈ text.take length, isSeparator c = false

theorem Inked.zero (text : List Char) : Inked text 0 := by
  simp [Inked]

theorem Inked.cons (head : isSeparator c = false) (tail : Inked rest length) : Inked (c :: rest) (length + 1) := by
  simp only [Inked, List.take_succ_cons, List.forall_mem_cons]
  exact ⟨head, tail⟩

theorem Inked.add (front : Inked text length) (back : Inked (text.drop length) more) : Inked text (length + more) := by
  simp only [Inked, List.take_add, List.forall_mem_append]
  exact ⟨front, back⟩

theorem Inked.max (first : Inked text length) (second : Inked text more) : Inked text (max length more) := by
  rcases Nat.le_total length more with le | le
  · rwa [Nat.max_eq_right le]
  · rwa [Nat.max_eq_left le]

theorem inked_takeWhile {accepts : Char → Bool} (ink : ∀ c, accepts c = true → isSeparator c = false) (text : List Char) :
    Inked text (text.takeWhile accepts).length := by
  have front : text.take (text.takeWhile accepts).length = text.takeWhile accepts :=
    (List.prefix_iff_eq_take.mp (List.takeWhile_prefix accepts)).symm
  intro c mem
  rw [front] at mem
  exact ink c (List.all_eq_true.mp List.all_takeWhile c mem)

theorem isSeparator_of_isHexDigit (digit : isHexDigit c = true) : isSeparator c = false := by
  simp only [isHexDigit, Char.isDigit, Bool.or_eq_true, Bool.and_eq_true, decide_eq_true_eq, Char.le_def, ge_iff_le,
    UInt32.le_iff_toNat_le] at digit
  have same : c.val.toNat = c.toNat := rfl
  simp only [same] at digit
  simp only [isSeparator, Bool.or_eq_false_iff, Bool.and_eq_false_iff, decide_eq_false_iff_not]
  simp at digit
  omega

theorem isHexDigit_of_isDigit (digit : c.isDigit = true) : isHexDigit c = true := by
  simp [isHexDigit, digit]

theorem isHexDigit_of_isOctalDigit (digit : isOctalDigit c = true) : isHexDigit c = true := by
  apply isHexDigit_of_isDigit
  simp only [isOctalDigit, Char.isDigit, Bool.and_eq_true, decide_eq_true_eq, Char.le_def, ge_iff_le,
    UInt32.le_iff_toNat_le] at digit ⊢
  simp at digit ⊢
  omega

/-! ## Names -/

theorem inked_unicodeEscape (text : List Char) : Inked text (unicodeEscapeLength text) := by
  unfold unicodeEscapeLength
  split
  · next rest =>
    dsimp only
    split
    · exact .zero _
    · split
      · next closed =>
        have digits := inked_takeWhile (fun c digit => isSeparator_of_isHexDigit (c := c) digit) rest
        have closing : Inked (rest.drop (rest.takeWhile isHexDigit).length) 1 := by
          obtain ⟨later, eq⟩ := List.head?_eq_some_iff.mp closed
          rw [eq]
          exact .cons rfl (.zero _)
        exact .cons rfl (.cons rfl (.cons rfl (digits.add closing)))
      · exact .zero _
  · split
    · next digits =>
      simp only [List.all_cons, List.all_nil, Bool.and_eq_true, and_true] at digits
      obtain ⟨first, second, third, fourth⟩ := digits
      exact .cons rfl (.cons rfl (.cons (isSeparator_of_isHexDigit first) (.cons (isSeparator_of_isHexDigit second)
        (.cons (isSeparator_of_isHexDigit third) (.cons (isSeparator_of_isHexDigit fourth) (.zero _))))))
    · exact .zero _
  · exact .zero _

theorem isSeparator_of_isNameBreak (other : isNameBreak c = false) : isSeparator c = false := by
  simp only [isNameBreak, Bool.or_eq_false_iff] at other
  exact other.1.2

theorem inked_nameTail (skip : Nat) (text : List Char) (escape : Inked text skip) : Inked text (nameTailLength skip text) := by
  induction text generalizing skip with
  | nil =>
    cases skip <;> exact .zero _
  | cons c rest inked =>
    cases skip with
    | succ skip =>
      simp only [Inked, List.take_succ_cons, List.forall_mem_cons] at escape
      exact .cons escape.1 (inked skip escape.2)
    | zero =>
      unfold nameTailLength
      split
      · next plain => exact .cons (isSeparator_of_isNameBreak (by simpa using plain)) (inked 0 (.zero _))
      · split
        · exact .zero _
        · next skip eq =>
          have own := inked_unicodeEscape (c :: rest)
          rw [eq] at own
          simp only [Inked, List.take_succ_cons, List.forall_mem_cons] at own
          exact .cons own.1 (inked skip own.2)

theorem inked_name (text : List Char) : Inked text (nameLength text) := by
  unfold nameLength
  split
  · exact .zero _
  · split
    · exact .zero _
    · exact inked_nameTail 0 _ (.zero _)

/-! ## Numbers -/

section Digits

variable {isDigit : Char → Bool} (ink : ∀ c, isDigit c = true → isSeparator c = false)
include ink

theorem inked_moreDigits (text : List Char) : Inked text (moreDigitsLength isDigit text) := by
  induction text using moreDigitsLength.induct isDigit with
  | case1 => exact .zero _
  | case2 c digit =>
    rw [moreDigitsLength, if_pos digit]
    exact .cons (ink c digit) (.zero _)
  | case3 c other =>
    rw [moreDigitsLength, if_neg other]
    exact .zero _
  | case4 c d rest digit inked =>
    rw [moreDigitsLength, if_pos digit]
    exact .cons (ink c digit) inked
  | case5 c d rest other parted inked =>
    rw [moreDigitsLength, if_neg other, if_pos parted]
    simp only [Bool.and_eq_true, decide_eq_true_eq] at parted
    obtain ⟨rfl, digit⟩ := parted
    exact .cons rfl (.cons (ink d digit) inked)
  | case6 c d rest other alone =>
    rw [moreDigitsLength, if_neg other, if_neg alone]
    exact .zero _

theorem inked_digits (text : List Char) : Inked text (digitsLength isDigit text) := by
  unfold digitsLength
  split
  · exact .zero _
  · split
    · next digit => exact .cons (ink _ digit) (inked_moreDigits ink _)
    · exact .zero _

end Digits

theorem inked_decimals (text : List Char) : Inked text (decimalsLength text) :=
  inked_digits (fun _ digit => isSeparator_of_isHexDigit (isHexDigit_of_isDigit digit)) text

theorem inked_radix (text : List Char) : Inked text (radixLength text) := by
  have marked (r : Char) (rest : List Char) (digits : Nat) (base : digits ≠ 0 → isSeparator r = false)
      (inked : Inked rest digits) : Inked ('0' :: r :: rest) (if digits = 0 then 0 else digits + 2) := by
    split
    · exact .zero _
    · next some_ => exact .cons rfl (.cons (base some_) inked)
  unfold radixLength
  split
  · next r rest =>
    apply marked
    · split
      · next base =>
        simp only [Bool.or_eq_true, decide_eq_true_eq] at base
        rcases base with rfl | rfl <;> exact fun _ => rfl
      split
      · next base =>
        simp only [Bool.or_eq_true, decide_eq_true_eq] at base
        rcases base with rfl | rfl <;> exact fun _ => rfl
      split
      · next base =>
        simp only [Bool.or_eq_true, decide_eq_true_eq] at base
        rcases base with rfl | rfl <;> exact fun _ => rfl
      · exact fun some_ => absurd rfl some_
    · split
      · exact inked_digits (fun _ digit => isSeparator_of_isHexDigit digit) rest
      split
      · exact inked_digits (fun _ digit => isSeparator_of_isHexDigit (isHexDigit_of_isOctalDigit digit)) rest
      split
      · refine inked_digits (fun c digit => ?_) rest
        simp only [Bool.or_eq_true, decide_eq_true_eq] at digit
        rcases digit with rfl | rfl <;> rfl
      · exact .zero _
  · exact .zero _

theorem Inked.withBigSuffix (inked : Inked text length) : Inked text (withBigSuffix text length) := by
  unfold Syntax.withBigSuffix
  split
  · next big =>
    simp only [Bool.and_eq_true, decide_eq_true_eq] at big
    obtain ⟨later, eq⟩ := List.head?_eq_some_iff.mp big.2
    refine inked.add ?_
    rw [eq]
    exact .cons rfl (.zero _)
  · exact inked

theorem inked_exponent (text : List Char) : Inked text (exponentLength text) := by
  have signed (e : Char) (rest : List Char) (sign : Nat) (head : isSeparator e = false) (inked : Inked rest sign) :
      Inked (e :: rest)
        (if decimalsLength (rest.drop sign) = 0 then 0 else 1 + sign + decimalsLength (rest.drop sign)) := by
    split
    · exact .zero _
    · rw [Nat.add_assoc, Nat.add_comm]
      exact .cons head (inked.add (inked_decimals _))
  unfold exponentLength
  split
  · next e rest =>
    split
    · next marked =>
      apply signed
      · simp only [Bool.or_eq_true, decide_eq_true_eq] at marked
        rcases marked with rfl | rfl <;> rfl
      · split
        · split
          · next sign =>
            simp only [Bool.or_eq_true, decide_eq_true_eq] at sign
            rcases sign with rfl | rfl <;> exact .cons rfl (.zero _)
          · exact .zero _
        · exact .zero _
    · exact .zero _
  · exact .zero _

theorem inked_wholePart (text : List Char) : Inked text (wholePartLength text) := by
  unfold wholePartLength
  split
  · split
    · rw [Nat.add_comm]
      exact .cons rfl (inked_decimals _)
    · exact .cons rfl (.zero _)
  · exact inked_decimals _

/-- What follows a point: digits and an exponent. -/
theorem inked_fraction (text : List Char) :
    Inked text (decimalsLength text + exponentLength (text.drop (decimalsLength text))) :=
  (inked_decimals text).add (inked_exponent _)

theorem inked_number (text : List Char) : Inked text (numberLength text) := by
  have whole := inked_wholePart text
  unfold numberLength
  dsimp only
  refine .max (.max (inked_radix text).withBigSuffix (inked_decimals text).withBigSuffix) (.max ?_ ?_)
  · split
    · split
      · split
        · exact .zero _
        · rw [Nat.add_assoc, Nat.add_comm]
          exact .cons rfl (inked_fraction _)
      · exact .zero _
    · split
      · next rest eq =>
        rw [Nat.add_assoc, Nat.add_assoc]
        refine whole.add ?_
        rw [eq, Nat.add_comm]
        exact .cons rfl (inked_fraction rest)
      · exact .zero _
  · split
    · exact .zero _
    · exact whole.add (inked_exponent _)

/-! ## Quoted texts and patterns -/

/-- The last of the first characters of a text is none that separates tokens. -/
def EndsInInk (text : List Char) (length : Nat) : Prop :=
  ∃ c, (text.take length).getLast? = some c ∧ isSeparator c = false

theorem Inked.endsInInk (inked : Inked text length) (some_ : length ≠ 0) (inside : text ≠ []) : EndsInInk text length := by
  have nonempty : text.take length ≠ [] := by simp [some_, inside]
  exact ⟨_, List.getLast?_eq_some_getLast nonempty, inked _ (List.getLast_mem nonempty)⟩

theorem EndsInInk.cons (ends : EndsInInk rest length) (c : Char) : EndsInInk (c :: rest) (length + 1) := by
  obtain ⟨last, eq, ink⟩ := ends
  exact ⟨last, by rw [List.take_succ_cons, List.getLast?_cons, eq]; rfl, ink⟩

theorem EndsInInk.one (ink : isSeparator c = false) : EndsInInk (c :: rest) 1 := ⟨c, rfl, ink⟩

theorem endsInInk_stringTail {quote : Char} (ink : isSeparator quote = false) (skip : Nat) (text : List Char)
    (found : stringTailLength quote skip text = some length) : EndsInInk text length := by
  induction text generalizing skip length with
  | nil => cases skip <;> cases found
  | cons c rest ends =>
    have past {skip : Nat} (found : (stringTailLength quote skip rest).map (· + 1) = some length) :
        EndsInInk (c :: rest) length := by
      obtain ⟨inner, eq, rfl⟩ := Option.map_eq_some_iff.mp found
      exact (ends skip eq).cons c
    cases skip with
    | succ skip => exact past found
    | zero =>
      unfold stringTailLength at found
      split at found
      · next same =>
        cases found
        subst same
        exact .one ink
      split at found
      · split at found
        · cases found
        · exact past found
      split at found
      · cases found
      · exact past found

theorem isSeparator_of_isQuote (quote : (decide (c = '"') || decide (c = '\'')) = true) : isSeparator c = false := by
  simp only [Bool.or_eq_true, decide_eq_true_eq] at quote
  rcases quote with rfl | rfl <;> rfl

theorem endsInInk_string (some_ : stringLength text ≠ 0) : EndsInInk text (stringLength text) := by
  unfold stringLength at some_ ⊢
  split at some_
  · next c rest =>
    split at some_
    · next quote =>
      rw [if_pos quote]
      split at some_
      · next length found =>
        exact (endsInInk_stringTail (isSeparator_of_isQuote quote) 0 rest found).cons c
      · exact absurd rfl some_
    · exact absurd rfl some_
  · exact absurd rfl some_

/-- A pattern closes with a slash. -/
theorem endsInInk_patternTail (bracketed : Bool) (text : List Char) (found : patternTailLength bracketed text = some length) :
    EndsInInk text length := by
  fun_induction patternTailLength bracketed text generalizing length with
  | case1 => cases found
  | case2 => cases found
  | case3 bracketed c rest other ends =>
    obtain ⟨size, eq, rfl⟩ := Option.map_eq_some_iff.mp found
    exact ((ends eq).cons c).cons '\\'
  | case4 => cases found
  | case5 c rest _ _ ends | case7 _ c rest _ _ _ _ ends =>
    obtain ⟨size, eq, rfl⟩ := Option.map_eq_some_iff.mp found
    exact (ends eq).cons c
  | case6 =>
    cases found
    exact .one rfl

theorem EndsInInk.add (ends : EndsInInk (text.drop length) more) : EndsInInk text (length + more) := by
  obtain ⟨c, eq, ink⟩ := ends
  exact ⟨c, by rw [List.take_add, List.getLast?_append, eq]; rfl, ink⟩

theorem endsInInk_regex (some_ : regexLength text ≠ 0) : EndsInInk text (regexLength text) := by
  unfold regexLength at some_ ⊢
  split at some_
  · next c rest =>
    split at some_
    · exact absurd rfl some_
    split at some_
    · next length found =>
      rw [if_neg ‹_›]
      dsimp only
      have ends := endsInInk_patternTail false (c :: rest) found
      rw [Nat.add_assoc, Nat.add_comm]
      apply EndsInInk.cons
      -- the flags are letters
      by_cases flags : (((c :: rest).drop length).takeWhile fun d => 'a' ≤ d && d ≤ 'z') = []
      · rw [flags]
        exact ends
      · refine .add (Inked.endsInInk (inked_takeWhile (fun d letter => ?_) _) (by simpa using flags) ?_)
        · simp only [Bool.and_eq_true, decide_eq_true_eq, Char.le_def, UInt32.le_iff_toNat_le] at letter
          have same : d.val.toNat = d.toNat := rfl
          simp only [same] at letter
          simp only [isSeparator, Bool.or_eq_false_iff, Bool.and_eq_false_iff, decide_eq_false_iff_not]
          simp at letter
          omega
        · rintro empty
          rw [empty] at flags
          exact flags rfl
    · exact absurd rfl some_
  · exact absurd rfl some_

/-! ## Markup -/

theorem isSeparator_of_isAlphanum (letter : c.isAlphanum = true) : isSeparator c = false := by
  change (decide (c.val ≥ 65 ∧ c.val ≤ 90) || (decide (c.val ≥ 97) && decide (c.val ≤ 122)) ||
    (decide (c.val ≥ 48) && decide (c.val ≤ 57))) = true at letter
  simp only [Bool.or_eq_true, Bool.and_eq_true, decide_eq_true_eq, ge_iff_le, UInt32.le_iff_toNat_le] at letter
  have same : c.val.toNat = c.toNat := rfl
  simp only [same] at letter
  simp only [isSeparator, Bool.or_eq_false_iff, Bool.and_eq_false_iff, decide_eq_false_iff_not]
  simp at letter
  omega

theorem inked_markupName (text : List Char) : Inked text (markupNameLength text) := by
  unfold markupNameLength
  split
  · exact .zero _
  · next c rest =>
    split
    · next begins =>
      dsimp only
      split
      · refine .cons ?_ (inked_takeWhile (fun d part => ?_) rest)
        · simp only [Bool.or_eq_true, decide_eq_true_eq] at begins
          rcases begins with (letter | rfl) | rfl
          · exact isSeparator_of_isAlphanum (by simp [Char.isAlphanum, letter])
          · rfl
          · rfl
        · simp only [Bool.or_eq_true, decide_eq_true_eq] at part
          rcases part with ((letter | rfl) | rfl) | rfl
          · exact isSeparator_of_isAlphanum letter
          · rfl
          · rfl
          · rfl
      · exact .zero _
    · exact .zero _

theorem getElem?_length_takeWhile {accepts : Char → Bool} (lt : (text.takeWhile accepts).length < text.length) :
    ∃ c later, text.drop (text.takeWhile accepts).length = c :: later ∧ accepts c = false := by
  induction text with
  | nil => cases lt
  | cons head rest found =>
    rw [List.takeWhile_cons] at lt ⊢
    split at lt
    · next accepted =>
      rw [if_pos accepted]
      exact found (Nat.lt_of_succ_lt_succ lt)
    · next refused =>
      rw [if_neg refused]
      exact ⟨head, rest, rfl, Bool.eq_false_iff.mpr refused⟩

theorem endsInInk_markupString (some_ : markupStringLength text ≠ 0) : EndsInInk text (markupStringLength text) := by
  unfold markupStringLength at some_ ⊢
  split at some_
  · next c rest =>
    split at some_
    · next quote =>
      rw [if_pos quote]
      dsimp only at some_ ⊢
      split at some_
      · next lt =>
        rw [if_pos lt]
        obtain ⟨d, later, eq, same⟩ := getElem?_length_takeWhile lt
        obtain rfl : d = c := by simpa using same
        refine .cons (.add ?_) d
        rw [eq]
        exact .one (isSeparator_of_isQuote quote)
      · exact absurd rfl some_
    · exact absurd rfl some_
  · exact absurd rfl some_

theorem endsInInk_characterReference (some_ : characterReferenceLength text ≠ 0) :
    EndsInInk text (characterReferenceLength text) := by
  have closed (rest : List Char) (fits : Bool)
      (some_ : (if fits && (rest.takeWhile (· ≠ ';')).length < rest.length then (rest.takeWhile (· ≠ ';')).length + 2 else 0) ≠ 0) :
      EndsInInk ('&' :: rest)
        (if fits && (rest.takeWhile (· ≠ ';')).length < rest.length then (rest.takeWhile (· ≠ ';')).length + 2 else 0) := by
    split at some_
    · next closed =>
      rw [if_pos closed]
      simp only [Bool.and_eq_true, decide_eq_true_eq] at closed
      obtain ⟨d, later, eq, same⟩ := getElem?_length_takeWhile closed.2
      obtain rfl : d = ';' := by simpa using same
      refine .cons (.add ?_) '&'
      rw [eq]
      exact .one rfl
    · exact absurd rfl some_
  unfold characterReferenceLength at some_ ⊢
  split at some_
  · exact closed _ _ some_
  · exact absurd rfl some_

/-! ## All terminals -/

/-- Whether a terminal ends in a character that stands inside tokens only. -/
def Terminal.closes : Terminal → Bool
  | .mark shape _ | .word shape => shape.toList.getLast?.any fun c => !isSeparator c
  | .templateChars | .escape | .markupText | .hashBang => false
  | _ => true

theorem endsInInk_of_shape {shape : String} (closes : shape.toList.getLast?.any (fun c => !isSeparator c) = true)
    (front : text.take shape.length = shape.toList) : EndsInInk text shape.length := by
  obtain ⟨c, eq, ink⟩ := Option.any_eq_true _ _ |>.mp closes
  exact ⟨c, by rw [front, eq], by simpa using ink⟩

theorem Terminal.endsInInk {terminal : Terminal} (closes : terminal.closes = true) (some_ : terminal.length text ≠ 0) :
    EndsInInk text (terminal.length text) := by
  have inside : text ≠ [] := by
    rintro rfl
    exact some_ terminal.length_nil
  cases terminal with
  | mark shape continuations =>
    obtain ⟨front, -, eq⟩ := of_length_mark some_
    rw [eq]
    apply endsInInk_of_shape closes
    rw [← String.length_toList]
    exact (List.prefix_iff_eq_take.mp front).symm
  | word shape =>
    obtain ⟨same, eq⟩ := of_length_word some_
    rw [eq]
    apply endsInInk_of_shape closes
    have list : shape.toList = text.take (nameLength text) := by rw [← same, frontName, String.toList_ofList]
    rw [← String.length_toList, list, List.length_take, List.take_eq_take_iff]
    omega
  | name reserved =>
    obtain ⟨-, solid, eq⟩ := of_length_name some_
    rw [eq]
    exact (inked_name text).endsInInk solid inside
  | privateName =>
    simp only [Terminal.length] at some_ ⊢
    split at some_
    · next rest =>
      split at some_
      · exact absurd rfl some_
      · next name =>
        rw [if_neg name]
        refine ((inked_name rest).endsInInk name ?_).cons '#'
        rintro rfl
        exact name rfl
    · exact absurd rfl some_
  | number => exact (inked_number text).endsInInk some_ inside
  | string => exact endsInInk_string some_
  | regex => exact endsInInk_regex some_
  | markupName => exact (inked_markupName text).endsInInk some_ inside
  | markupString => exact endsInInk_markupString some_
  | characterReference => exact endsInInk_characterReference some_
  | questionMark =>
    simp only [Terminal.length] at some_ ⊢
    split at some_
    · next opens =>
      rw [if_pos opens]
      unfold opensConditional at opens
      split at opens
      · exact .one rfl
      · cases opens
    · exact absurd rfl some_
  | templateChars | escape | markupText | hashBang => cases closes

/-- Whether a terminal is not recognised at a semicolon. -/
def Terminal.sparesSemicolon : Terminal → Bool
  | .mark shape _ => shape.toList.head? ≠ some ';'
  | .templateChars | .markupText => false
  | _ => true

theorem Terminal.sparesSemicolon_eq_false {terminal : Terminal} {rest : List Char} (found : terminal.length (';' :: rest) ≠ 0) :
    terminal.sparesSemicolon = false := by
  cases terminal with
  | mark shape continuations =>
    obtain ⟨⟨more, split⟩, -, eq⟩ := of_length_mark found
    cases shape_eq : shape.toList with
    | nil =>
      rw [eq, ← String.length_toList, shape_eq] at found
      exact absurd rfl found
    | cons head later =>
      rw [shape_eq] at split
      cases split
      simp [sparesSemicolon, shape_eq]
  | word shape =>
    obtain ⟨rfl, eq⟩ := of_length_word found
    exact absurd eq found
  | templateChars => rfl
  | markupText => rfl
  | name reserved => exact absurd rfl found
  | privateName => exact absurd rfl found
  | number => exact absurd rfl found
  | string => exact absurd rfl found
  | regex => exact absurd rfl found
  | escape => exact absurd rfl found
  | markupName => exact absurd rfl found
  | markupString => exact absurd rfl found
  | characterReference => exact absurd rfl found
  | questionMark => exact absurd rfl found
  | hashBang => exact absurd rfl found

/-! ## Comments -/

/-- A character that is neither a separator nor a semicolon stands at an offset. -/
def BeginsToken (text : List Char) (position : Nat) : Prop :=
  ∃ before c after, text = before ++ c :: after ∧ position = width before ∧ isSeparator c = false ∧ c ≠ ';'

/-- In front of an offset stands a character that is no separator, or there a line or the text ends. -/
def EndsToken (text : List Char) (position : Nat) : Prop :=
  ∃ before after, text = before ++ after ∧ position = width before ∧
    ((∃ c, before.getLast? = some c ∧ isSeparator c = false) ∨ ∀ c ∈ after.head?, isLineEnd c = true)

theorem endsInInk_blockCommentTail (text : List Char) (found : blockCommentTailLength text = some length) :
    EndsInInk text length := by
  fun_induction blockCommentTailLength text generalizing length with
  | case1 => cases found
  | case2 rest =>
    cases found
    exact EndsInInk.cons (.one rfl) '*'
  | case3 head rest _ ends =>
    obtain ⟨size, eq, rfl⟩ := Option.map_eq_some_iff.mp found
    exact (ends eq).cons head

section Comments

variable {holds : Tree → Prop} (each : ∀ before rest, text = before ++ rest → commentLength rest ≠ 0 →
  holds (.node .comment none (width before) (width before + width (rest.take (commentLength rest))) []))
include each

/-- What holds of a comment wherever one stands holds of those in front of a token. -/
theorem forall_triviaFrom (before : List Char) (skip : Nat) (rest : List Char) (split : text = before ++ rest) :
    ∀ tree ∈ (triviaFrom (width before) skip rest).1, holds tree := by
  induction rest generalizing before skip with
  | nil => cases skip <;> simp [triviaFrom]
  | cons c rest ends =>
    have next := split.trans (List.append_cons before c rest)
    have step : width (before ++ [c]) = width before + charWidth c := by
      rw [width_append, width_cons, width_nil, Nat.add_zero]
    cases skip with
    | succ skip =>
      have later := ends (before ++ [c]) skip next
      rwa [step] at later
    | zero =>
      unfold triviaFrom
      split
      · have later := ends (before ++ [c]) 0 next
        rwa [step] at later
      · split
        · simp
        · next skip eq =>
          have later := ends (before ++ [c]) skip next
          rw [step] at later
          have own := each before (c :: rest) split (by rw [eq]; exact Nat.succ_ne_zero skip)
          rw [eq] at own
          intro tree mem
          rcases List.mem_cons.mp mem with rfl | mem
          · exact own
          · exact later tree mem

/-- It holds of those too that an omitted semicolon leaves to its statement. -/
theorem forall_readEnding {ending : StatementEnd} (before : List Char) (fresh : Bool) (skip : Nat) (rest : List Char)
    {trees : List Tree} {next : Cursor} (split : text = before ++ rest)
    (found : readEnding ending (width before) fresh skip rest = some (trees, next)) : ∀ tree ∈ trees, holds tree := by
  induction rest generalizing before fresh skip trees next with
  | nil =>
    cases skip <;>
      (simp only [readEnding] at found
       split at found
       · cases found
         simp
       · cases found)
  | cons c rest ends =>
    have after := split.trans (List.append_cons before c rest)
    have step : width (before ++ [c]) = width before + charWidth c := by
      rw [width_append, width_cons, width_nil, Nat.add_zero]
    cases skip with
    | succ skip =>
      rw [readEnding, ← step] at found
      exact ends _ _ _ after found
    | zero =>
      rw [readEnding] at found
      split at found
      · cases found
        simp
      · split at found
        · rw [← step] at found
          exact ends _ _ _ after found
        · split at found
          · cases found
          · next skip eq =>
            dsimp only at found
            split at found
            · cases found
            · next later_found =>
              cases found
              rw [← step] at later_found
              have own := each before (c :: rest) split (by rw [eq]; exact Nat.succ_ne_zero skip)
              rw [eq] at own
              intro tree mem
              rcases List.mem_cons.mp mem with rfl | mem
              · exact own
              · exact ends _ _ _ after later_found tree mem

end Comments

end Scaffold.Syntax
