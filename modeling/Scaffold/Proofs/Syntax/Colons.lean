import Mathlib.Logic.Basic
import Scaffold.Proofs.Syntax.Relocation

/-! # In front of a colon

Names and numbers halt at a colon, and everything else that is read in front of one holds its own end. So what is read
there is read in the same way whatever stands behind the colon.
-/

namespace Scaffold.Syntax

open Scaffold.Text

variable {front back more other : List Char} {c : Char} {length skip offset : Nat}

/-! ## Stretches -/

theorem takeWhile_colon {accepts : Char → Bool} (halts : accepts ':' = false) (front more : List Char) :
    (front ++ ':' :: more).takeWhile accepts = front.takeWhile accepts := by
  rw [List.takeWhile_append, List.takeWhile_cons_of_neg (Bool.eq_false_iff.mp halts), List.append_nil]
  split
  · next whole => exact (List.takeWhile_prefix accepts).eq_of_length whole |>.symm
  · rfl

/-- A stretch that ends in front of the colon is the same whatever is behind that. -/
theorem takeWhile_of_le {accepts : Char → Bool} (fits : ((front ++ ':' :: more).takeWhile accepts).length ≤ front.length)
    (other : List Char) : (front ++ ':' :: other).takeWhile accepts = (front ++ ':' :: more).takeWhile accepts := by
  cases halts : accepts ':' with
  | false => rw [takeWhile_colon halts, takeWhile_colon halts]
  | true =>
    rw [List.takeWhile_append] at fits ⊢
    rw [List.takeWhile_append]
    split at fits
    · rw [List.takeWhile_cons_of_pos halts, List.length_append, List.length_cons] at fits
      omega
    · next part => rw [if_neg part, if_neg part]

theorem dropWhile_colon {accepts : Char → Bool} (halts : accepts ':' = false) (front more : List Char) :
    (front ++ ':' :: more).dropWhile accepts = front.dropWhile accepts ++ ':' :: more := by
  induction front with
  | nil => rw [List.nil_append, List.dropWhile_cons_of_neg (Bool.eq_false_iff.mp halts)]; rfl
  | cons c front same =>
    rw [List.cons_append, List.dropWhile_cons, List.dropWhile_cons, same]
    split <;> rfl

theorem isPrefixOf_colon {shape : List Char} (spares : ':' ∉ shape) (front more : List Char) :
    shape.isPrefixOf (front ++ ':' :: more) = shape.isPrefixOf front := by
  induction front generalizing shape with
  | nil =>
    cases shape with
    | nil => rfl
    | cons c shape =>
      have other : c ≠ ':' := fun same => spares (same ▸ List.mem_cons_self)
      simp [List.isPrefixOf, other]
  | cons c front same =>
    cases shape with
    | nil => rfl
    | cons d shape =>
      rw [List.cons_append, List.isPrefixOf, List.isPrefixOf, same fun mem => spares (List.mem_cons_of_mem _ mem)]

/-! ## Names and numbers -/

/-- What halts at a colon. -/
structure HaltsAtColon (measure : List Char → Nat) : Prop where
  le : ∀ front more, measure (front ++ ':' :: more) ≤ front.length
  eq : ∀ front more other, measure (front ++ ':' :: more) = measure (front ++ ':' :: other)

/-- It halts there if what it measures of any such text is a part of the front, and there in front of another one. -/
theorem HaltsAtColon.of_le {measure : List Char → Nat}
    (halts : ∀ front more other, measure (front ++ ':' :: more) ≤ front.length ∧
      measure (front ++ ':' :: more) ≤ measure (front ++ ':' :: other)) : HaltsAtColon measure where
  le front more := (halts front more []).1
  eq front more other := Nat.le_antisymm (halts front more other).2 (halts front other more).2

theorem HaltsAtColon.max {first second : List Char → Nat} (left : HaltsAtColon first) (right : HaltsAtColon second) :
    HaltsAtColon fun text => max (first text) (second text) where
  le front more := Nat.max_le.mpr ⟨left.le front more, right.le front more⟩
  eq front more other := by simp only [left.eq front more other, right.eq front more other]

theorem drop_colon (fits : length ≤ front.length) (more : List Char) :
    (front ++ ':' :: more).drop length = front.drop length ++ ':' :: more := List.drop_append_of_le_length fits

theorem IsUnicodeEscape.colon_not_mem {token : List Char} (escape : IsUnicodeEscape token) : ':' ∉ token := by
  have unlike {d : Char} (hex : isHexDigit d = true) : ':' ≠ d := by
    rintro rfl
    cases hex
  cases escape with
  | braced _ hex => simpa using fun mem => unlike (hex _ mem) rfl
  | plain hex =>
    simp only [List.all_cons, List.all_nil, Bool.and_eq_true, and_true] at hex
    simp [unlike hex.1, unlike hex.2.1, unlike hex.2.2.1, unlike hex.2.2.2]

theorem haltsAtColon_unicodeEscape : HaltsAtColon unicodeEscapeLength := by
  refine .of_le fun front more other => ?_
  by_cases some_ : unicodeEscapeLength (front ++ ':' :: more) = 0
  · omega
  · obtain ⟨token, behind, split, escape⟩ := exists_unicodeEscape some_
    have inside : token <+: front := by
      rcases List.prefix_or_prefix_of_prefix ⟨behind, split.symm⟩ (List.prefix_append front (':' :: more)) with short | ⟨rest, rfl⟩
      · exact short
      · cases rest with
        | nil => simp
        | cons d rest =>
          rw [List.append_assoc, List.append_cancel_left_eq] at split
          obtain ⟨rfl, -⟩ := List.cons.inj split
          exact absurd (List.mem_append_right _ List.mem_cons_self) escape.colon_not_mem
    obtain ⟨rest, rfl⟩ := inside
    rw [List.append_assoc, List.append_assoc, escape.length_eq, escape.length_eq, List.length_append]
    omega

theorem nameTailLength_colon (fits : skip ≤ front.length) (more other : List Char) :
    nameTailLength skip (front ++ ':' :: more) ≤ front.length ∧
      nameTailLength skip (front ++ ':' :: more) = nameTailLength skip (front ++ ':' :: other) := by
  induction front generalizing skip with
  | nil =>
    obtain rfl : skip = 0 := Nat.le_zero.mp fits
    exact ⟨Nat.le_refl 0, rfl⟩
  | cons c front halts =>
    cases skip with
    | succ skip =>
      obtain ⟨le, eq⟩ := halts (Nat.le_of_succ_le_succ fits)
      exact ⟨Nat.succ_le_succ le, congrArg (· + 1) eq⟩
    | zero =>
      have escape := haltsAtColon_unicodeEscape.eq (c :: front) more other
      have least := haltsAtColon_unicodeEscape.le (c :: front) more
      simp only [List.cons_append, nameTailLength, List.length_cons] at escape least ⊢
      split
      · obtain ⟨le, eq⟩ := halts (Nat.zero_le _)
        exact ⟨Nat.succ_le_succ le, congrArg (· + 1) eq⟩
      · rw [← escape]
        split
        · exact ⟨Nat.zero_le _, rfl⟩
        · next skip found =>
          rw [found] at least
          obtain ⟨le, eq⟩ := halts (Nat.le_of_succ_le_succ least)
          exact ⟨Nat.succ_le_succ le, congrArg (· + 1) eq⟩

theorem haltsAtColon_name : HaltsAtColon nameLength := by
  refine .of_le fun front more other => ?_
  cases front with
  | nil => exact ⟨Nat.le_refl 0, Nat.le_refl 0⟩
  | cons c front =>
    obtain ⟨le, eq⟩ := @nameTailLength_colon (c :: front) 0 (Nat.zero_le _) more other
    simp only [List.cons_append, nameLength] at le eq ⊢
    split
    · exact ⟨Nat.zero_le _, Nat.le_refl 0⟩
    · exact ⟨le, Nat.le_of_eq eq⟩

section Digits

variable {isDigit : Char → Bool} (halts : isDigit ':' = false)
include halts

theorem moreDigitsLength_colon : ∀ front more other : List Char,
    moreDigitsLength isDigit (front ++ ':' :: more) ≤ front.length ∧
      moreDigitsLength isDigit (front ++ ':' :: more) ≤ moreDigitsLength isDigit (front ++ ':' :: other)
  | [], more, other => by
    have none_ (more : List Char) : moreDigitsLength isDigit (':' :: more) = 0 := by
      cases more <;> simp [moreDigitsLength, halts]
    simp [none_]
  | [c], more, other => by
    have none_ (more : List Char) : moreDigitsLength isDigit (':' :: more) = 0 := by
      cases more <;> simp [moreDigitsLength, halts]
    simp only [List.cons_append, List.nil_append, moreDigitsLength, none_, halts, List.length_cons]
    split <;> simp
  | c :: d :: rest, more, other => by
    have later := moreDigitsLength_colon (d :: rest) more other
    have skipped := moreDigitsLength_colon rest more other
    simp only [List.cons_append, moreDigitsLength, List.length_cons] at later skipped ⊢
    split
    · omega
    · split <;> omega

theorem haltsAtColon_moreDigits : HaltsAtColon (moreDigitsLength isDigit) := .of_le (moreDigitsLength_colon halts)

theorem haltsAtColon_digits : HaltsAtColon (digitsLength isDigit) := by
  refine .of_le fun front more other => ?_
  cases front with
  | nil => simp [digitsLength, halts]
  | cons c front =>
    have le := (haltsAtColon_moreDigits halts).le front more
    have eq := (haltsAtColon_moreDigits halts).eq front more other
    simp only [List.cons_append, digitsLength, List.length_cons]
    split <;> omega

end Digits

theorem haltsAtColon_decimals : HaltsAtColon decimalsLength := haltsAtColon_digits rfl

theorem haltsAtColon_exponent : HaltsAtColon exponentLength := by
  have digits {size : Nat} {front : List Char} (fits : size ≤ front.length) (more other : List Char) :
      decimalsLength ((front ++ ':' :: more).drop size) + size ≤ front.length ∧
        decimalsLength ((front ++ ':' :: other).drop size) = decimalsLength ((front ++ ':' :: more).drop size) := by
    have le := haltsAtColon_decimals.le (front.drop size) more
    rw [List.length_drop] at le
    rw [drop_colon fits, drop_colon fits, haltsAtColon_decimals.eq _ other more]
    omega
  refine .of_le fun front more other => ?_
  rcases front with _ | ⟨e, _ | ⟨sign, front⟩⟩
  · exact ⟨Nat.le_refl 0, Nat.le_refl 0⟩
  · simp [exponentLength, decimalsLength, digitsLength]
  · have plain := digits (Nat.zero_le (sign :: front).length) more other
    have signed := @digits 1 (sign :: front) (Nat.succ_le_succ (Nat.zero_le _)) more other
    simp only [List.cons_append, List.length_cons, exponentLength] at plain signed ⊢
    split
    · split
      · rw [signed.2]
        split <;> omega
      · rw [plain.2]
        split <;> omega
    · omega

theorem haltsAtColon_wholePart : HaltsAtColon wholePartLength := by
  refine .of_le fun front more other => ?_
  have all := haltsAtColon_decimals
  have plain {text : List Char} (other : ∀ rest, text ≠ '0' :: rest) : wholePartLength text = decimalsLength text := by
    unfold wholePartLength
    split
    · exact absurd rfl (other _)
    · rfl
  cases front with
  | nil => exact ⟨Nat.le_refl 0, Nat.le_refl 0⟩
  | cons c front =>
    by_cases zero : c = '0'
    · subst zero
      cases front with
      | nil => exact ⟨Nat.le_refl 1, Nat.le_refl 1⟩
      | cons d front =>
        have le := all.le (d :: front) more
        have eq := all.eq (d :: front) more other
        simp only [List.cons_append, wholePartLength, List.length_cons] at le eq ⊢
        split <;> omega
    · have differs (more rest : List Char) : c :: (front ++ ':' :: more) ≠ '0' :: rest :=
        fun same => zero (List.cons.inj same).1
      rw [List.cons_append, List.cons_append, plain (differs more), plain (differs other)]
      exact ⟨all.le (c :: front) more, Nat.le_of_eq (all.eq (c :: front) more other)⟩

theorem haltsAtColon_radix : HaltsAtColon radixLength := by
  refine .of_le fun front more other => ?_
  have none_ {text : List Char} (other : ∀ r rest, text ≠ '0' :: r :: rest) : radixLength text = 0 := by
    unfold radixLength
    split
    · exact absurd rfl (other _ _)
    · rfl
  rcases front with _ | ⟨c, _ | ⟨r, front⟩⟩
  · rw [none_ (by simp)]
    simp
  · by_cases zero : c = '0'
    · subst zero
      exact ⟨Nat.zero_le _, Nat.zero_le _⟩
    · rw [none_ (by simp [zero])]
      simp
  · by_cases zero : c = '0'
    · subst zero
      have hex := @haltsAtColon_digits isHexDigit rfl
      have octal := @haltsAtColon_digits isOctalDigit rfl
      have binary := @haltsAtColon_digits (fun c => c = '0' || c = '1') rfl
      have longer {digits : Nat} (fits : digits ≤ front.length) : (if digits = 0 then 0 else digits + 2) ≤ front.length + 2 := by
        split <;> omega
      simp only [List.cons_append, radixLength, List.length_cons]
      rw [hex.eq front other more, octal.eq front other more, binary.eq front other more]
      refine ⟨longer ?_, Nat.le_refl _⟩
      split
      · exact hex.le front more
      · split
        · exact octal.le front more
        · split
          · exact binary.le front more
          · exact Nat.zero_le _
    · rw [none_ (by simp [zero])]
      simp

theorem HaltsAtColon.withBigSuffix {measure : List Char → Nat} (halts : HaltsAtColon measure) :
    HaltsAtColon fun text => withBigSuffix text (measure text) := by
  refine .of_le fun front more other => ?_
  have le := halts.le front more
  simp only [Scaffold.Syntax.withBigSuffix, halts.eq front other more, drop_colon le]
  generalize measure (front ++ ':' :: more) = length at le
  have head (more : List Char) :
      (front.drop length ++ ':' :: more).head? = some 'n' ↔ (front.drop length).head? = some 'n' := by
    cases front.drop length <;> simp
  have longer (goesOn : (front.drop length).head? = some 'n') : length + 1 ≤ front.length := by
    obtain ⟨rest, split⟩ := List.head?_eq_some_iff.mp goesOn
    have size := congrArg List.length split
    rw [List.length_drop, List.length_cons] at size
    omega
  simp only [head]
  refine ⟨?_, Nat.le_refl _⟩
  split
  · next both =>
    simp only [Bool.and_eq_true, decide_eq_true_eq] at both
    exact longer both.2
  · exact le

/-- The digits behind a point, and an exponent behind them. -/
theorem haltsAtColon_fraction :
    HaltsAtColon fun text => decimalsLength text + exponentLength (text.drop (decimalsLength text)) := by
  refine .of_le fun front more other => ?_
  have le := haltsAtColon_decimals.le front more
  simp only [haltsAtColon_decimals.eq front other more, drop_colon le]
  generalize decimalsLength (front ++ ':' :: more) = length at le
  have inner := haltsAtColon_exponent.le (front.drop length) more
  rw [haltsAtColon_exponent.eq _ other more]
  rw [List.length_drop] at inner
  omega

/-- A point with digits on one side of it, or on both. -/
def pointedLength (text : List Char) : Nat :=
  if wholePartLength text = 0 then
    match text with
    | '.' :: rest =>
      if decimalsLength rest = 0 then 0 else 1 + decimalsLength rest + exponentLength (rest.drop (decimalsLength rest))
    | _ => 0
  else
    match text.drop (wholePartLength text) with
    | '.' :: rest => wholePartLength text + 1 + decimalsLength rest + exponentLength (rest.drop (decimalsLength rest))
    | _ => 0

/-- A whole part with an exponent. -/
def scaledLength (text : List Char) : Nat :=
  if wholePartLength text = 0 || exponentLength (text.drop (wholePartLength text)) = 0 then 0
  else wholePartLength text + exponentLength (text.drop (wholePartLength text))

theorem pointedLength_eq (text : List Char) : pointedLength text =
    if wholePartLength text = 0 then
      if text.head? = some '.' then
        if decimalsLength text.tail = 0 then 0
        else 1 + decimalsLength text.tail + exponentLength (text.tail.drop (decimalsLength text.tail))
      else 0
    else if (text.drop (wholePartLength text)).head? = some '.' then
      wholePartLength text + 1 + decimalsLength (text.drop (wholePartLength text)).tail +
        exponentLength ((text.drop (wholePartLength text)).tail.drop (decimalsLength (text.drop (wholePartLength text)).tail))
    else 0 := by
  unfold pointedLength
  split
  · split
    · rfl
    · next other =>
      rw [if_neg fun point => (List.head?_eq_some_iff.mp point).elim other]
  · split
    · next split =>
      rw [split]
      rfl
    · next other =>
      rw [if_neg fun point => (List.head?_eq_some_iff.mp point).elim other]

theorem haltsAtColon_pointed : HaltsAtColon pointedLength := by
  refine .of_le fun front more other => ?_
  have whole := haltsAtColon_wholePart.le front more
  simp only [pointedLength_eq, haltsAtColon_wholePart.eq front other more, drop_colon whole]
  generalize wholePartLength (front ++ ':' :: more) = size at whole
  have digits (rest : List Char) := haltsAtColon_decimals.eq rest other more
  have fraction (rest : List Char) := haltsAtColon_fraction.le rest more
  have same (rest : List Char) := haltsAtColon_fraction.eq rest other more
  simp only [digits] at same
  split
  · cases front with
    | nil => exact ⟨Nat.le_refl 0, Nat.le_refl 0⟩
    | cons c front =>
      have inner := fraction front
      have equal := same front
      simp only [List.cons_append, List.head?_cons, List.tail_cons, digits, List.length_cons]
      by_cases point : c = '.'
      · by_cases none_ : decimalsLength (front ++ ':' :: more) = 0 <;> simp only [point, none_, if_true, if_false] <;> omega
      · simp only [Option.some.injEq, point, if_false]
        omega
  · have left : (front.drop size).length = front.length - size := List.length_drop
    cases later : front.drop size with
    | nil => exact ⟨Nat.zero_le _, Nat.le_refl 0⟩
    | cons c rest =>
      have inner := fraction rest
      have equal := same rest
      rw [later, List.length_cons] at left
      simp only [List.cons_append, List.head?_cons, List.tail_cons, digits]
      by_cases point : c = '.'
      · simp only [point, if_true]
        omega
      · simp only [Option.some.injEq, point, if_false]
        omega

theorem haltsAtColon_scaled : HaltsAtColon scaledLength := by
  refine .of_le fun front more other => ?_
  have whole := haltsAtColon_wholePart.le front more
  rw [scaledLength, scaledLength, haltsAtColon_wholePart.eq front other more, drop_colon whole, drop_colon whole,
    haltsAtColon_exponent.eq _ other more]
  have exponent := haltsAtColon_exponent.le (front.drop (wholePartLength (front ++ ':' :: more))) more
  rw [List.length_drop] at exponent
  split <;> omega

theorem haltsAtColon_number : HaltsAtColon numberLength := by
  have all := (haltsAtColon_radix.withBigSuffix.max haltsAtColon_decimals.withBigSuffix).max
    (haltsAtColon_pointed.max haltsAtColon_scaled)
  exact ⟨all.le, all.eq⟩

/-! ## What holds its own end -/

theorem patternTailLength_cons (bracketed : Bool) (c : Char) (rest : List Char) :
    patternTailLength bracketed (c :: rest) =
      if c = '\\' then
        match rest with
        | [] => none
        | d :: rest => if d = '\n' then none else (patternTailLength bracketed rest).map (· + 2)
      else if c = '\n' then none
      else if bracketed then (patternTailLength (c ≠ ']') rest).map (· + 1)
      else if c = '/' then some 1
      else (patternTailLength (c = '[') rest).map (· + 1) := by
  by_cases escape : c = '\\'
  · subst escape
    cases rest with
    | nil => rfl
    | cons d rest => rfl
  · rw [patternTailLength]
    · simp [escape]
    · exact fun _ _ same => absurd same escape

/-- A pattern that ends inside of a text ends there whatever follows the text. -/
theorem patternTailLength_append : ∀ (text more : List Char) (bracketed : Bool) (length : Nat),
    patternTailLength bracketed (text ++ more) = some length → length ≤ text.length →
      ∀ other, patternTailLength bracketed (text ++ other) = some length
  | [], more, bracketed, length, found, fits, other => by
    obtain ⟨c, some_, -⟩ := endsInInk_patternTail bracketed _ found
    rw [Nat.le_zero.mp fits] at some_
    cases some_
  | [c], more, bracketed, length, found, fits, other => by
    have least {bracketed : Bool} {text : List Char} {inner : Nat} (found : patternTailLength bracketed text = some inner) :
        inner ≠ 0 := by
      rintro rfl
      obtain ⟨c, some_, -⟩ := endsInInk_patternTail bracketed _ found
      cases some_
    rw [List.singleton_append, patternTailLength_cons] at found ⊢
    split at found
    · split at found
      · cases found
      · split at found
        · cases found
        · obtain ⟨inner, -, rfl⟩ := Option.map_eq_some_iff.mp found
          simp at fits
    · next plain =>
      have longer {inner : Nat} (le : inner + 1 ≤ [c].length) : inner = 0 := by simpa using le
      rw [if_neg plain]
      split at found
      · cases found
      · next inLine =>
        rw [if_neg inLine]
        split at found
        · obtain ⟨inner, inside, rfl⟩ := Option.map_eq_some_iff.mp found
          exact absurd (longer fits) (least inside)
        · next open_ =>
          rw [if_neg open_]
          split at found
          · next closes => rw [if_pos closes]; exact found
          · obtain ⟨inner, inside, rfl⟩ := Option.map_eq_some_iff.mp found
            exact absurd (longer fits) (least inside)
  | c :: d :: text, more, bracketed, length, found, fits, other => by
    rw [List.cons_append, patternTailLength_cons] at found ⊢
    have later {bracketed : Bool} (found : (patternTailLength bracketed (d :: text ++ more)).map (· + 1) = some length) :
        (patternTailLength bracketed (d :: text ++ other)).map (· + 1) = some length := by
      obtain ⟨inner, inside, rfl⟩ := Option.map_eq_some_iff.mp found
      rw [patternTailLength_append (d :: text) more bracketed inner inside (Nat.le_of_succ_le_succ fits) other]
      rfl
    split at found
    · next escape =>
      rw [if_pos escape]
      simp only [List.cons_append] at found ⊢
      split at found
      · cases found
      · next inLine =>
        obtain ⟨inner, inside, rfl⟩ := Option.map_eq_some_iff.mp found
        have within : inner ≤ text.length := by simpa using fits
        rw [if_neg inLine, patternTailLength_append text more bracketed inner inside within other]
        rfl
    · next plain =>
      rw [if_neg plain]
      split at found
      · cases found
      · next inLine =>
        rw [if_neg inLine]
        split at found
        · next inside => rw [if_pos inside]; exact later found
        · next open_ =>
          rw [if_neg open_]
          split at found
          · next closes => rw [if_pos closes]; exact found
          · next goesOn => rw [if_neg goesOn]; exact later found

theorem regexLength_colon (some_ : regexLength (front ++ ':' :: more) ≠ 0)
    (fits : regexLength (front ++ ':' :: more) ≤ front.length) (other : List Char) :
    regexLength (front ++ ':' :: other) = regexLength (front ++ ':' :: more) := by
  rcases front with _ | ⟨slash, _ | ⟨c, front⟩⟩
  · exact absurd (Nat.le_zero.mp fits) some_
  · have least : 2 ≤ regexLength ([slash] ++ ':' :: more) := by
      unfold regexLength at some_ ⊢
      split
      · next split =>
        simp only [List.singleton_append, List.cons.injEq] at split
        obtain ⟨rfl, rfl, rfl⟩ := split
        simp only [List.singleton_append] at some_
        split at some_
        · exact absurd rfl some_
        · next plain =>
          rw [if_neg plain]
          split at some_
          · next length found =>
            obtain ⟨d, last, -⟩ := endsInInk_patternTail _ _ found
            have some_ : length ≠ 0 := by
              rintro rfl
              cases last
            dsimp only
            omega
          · exact absurd rfl some_
      · next none_ => exact absurd (by simpa using some_) (by simp_all)
    exact absurd (Nat.le_trans least fits) (by simp)
  · by_cases opens : slash = '/'
    · subst opens
      simp only [List.cons_append, regexLength, List.length_cons] at some_ fits ⊢
      split at some_
      · exact absurd rfl some_
      · next plain =>
        rw [if_neg plain] at fits ⊢
        rw [if_neg plain]
        split at some_
        · next length found =>
          rw [found] at fits
          have within : length ≤ (c :: front).length := by
            simp only [List.length_cons] at fits ⊢
            omega
          have same := patternTailLength_append (c :: front) _ false length found within (':' :: other)
          rw [List.cons_append] at same
          rw [same]
          simp only [← List.cons_append, drop_colon within]
          rw [takeWhile_colon rfl, takeWhile_colon rfl]
        · exact absurd rfl some_
    · refine absurd ?_ some_
      unfold regexLength
      split <;> simp_all

theorem templateCharsLength_colon (fits : templateCharsLength (front ++ ':' :: more) ≤ front.length) (other : List Char) :
    templateCharsLength (front ++ ':' :: other) = templateCharsLength (front ++ ':' :: more) := by
  have equation (c : Char) (rest : List Char) : templateCharsLength (c :: rest) =
      if c = '$' ∧ rest.head? = some '\x7b' ∨ c = '\x60' ∨ c = '\\' then 0 else templateCharsLength rest + 1 := by
    by_cases substitutes : c = '$' ∧ rest.head? = some '\x7b'
    · obtain ⟨rfl, head⟩ := substitutes
      obtain ⟨rest, rfl⟩ := List.head?_eq_some_iff.mp head
      rfl
    · rw [templateCharsLength]
      · simp [substitutes]
      · exact fun rest dollar brace => substitutes ⟨dollar, by rw [brace]; rfl⟩
  induction front with
  | nil =>
    rw [List.nil_append, equation] at fits
    simp at fits
  | cons c front same =>
    have head (more : List Char) : (front ++ ':' :: more).head? = some '\x7b' ↔ front.head? = some '\x7b' := by
      cases front <;> simp
    simp only [List.cons_append, equation, head, List.length_cons] at fits ⊢
    split
    · rfl
    · next goesOn =>
      rw [if_neg goesOn] at fits
      rw [same (Nat.le_of_succ_le_succ fits)]

theorem markupTextLength_colon (some_ : markupTextLength (front ++ ':' :: more) ≠ 0)
    (fits : markupTextLength (front ++ ':' :: more) ≤ front.length) (other : List Char) :
    markupTextLength (front ++ ':' :: other) = markupTextLength (front ++ ':' :: more) := by
  have whole : ((front ++ ':' :: more).takeWhile fun c => c ∉ ['<', '>', '\x7b', '\x7d', '&']).length ≤ front.length := by
    simp only [markupTextLength] at some_ fits
    split at fits
    · exact fits
    · next none_ => exact absurd (if_neg none_) some_
  unfold markupTextLength
  rw [takeWhile_of_le whole]

theorem haltsAtColon_markupName : HaltsAtColon markupNameLength := by
  refine .of_le fun front more other => ?_
  cases front with
  | nil => exact ⟨Nat.le_refl 0, Nat.le_refl 0⟩
  | cons c front =>
    have stretch (more : List Char) := @takeWhile_colon (fun d => d.isAlphanum || d = '_' || d = '$' || d = '-') rfl front more
    simp only [List.cons_append, markupNameLength, stretch, List.length_cons]
    refine ⟨?_, Nat.le_refl _⟩
    split
    · split
      · exact Nat.succ_le_succ (List.takeWhile_prefix _).length_le
      · exact Nat.zero_le _
    · exact Nat.zero_le _

theorem markupStringLength_colon (some_ : markupStringLength (front ++ ':' :: more) ≠ 0)
    (fits : markupStringLength (front ++ ':' :: more) ≤ front.length) (other : List Char) :
    markupStringLength (front ++ ':' :: other) = markupStringLength (front ++ ':' :: more) := by
  cases front with
  | nil => exact absurd (Nat.le_zero.mp fits) some_
  | cons c front =>
    simp only [List.cons_append, markupStringLength, List.length_cons] at some_ fits ⊢
    split
    · next quote =>
      rw [if_pos quote] at some_ fits
      split at some_
      · next closed =>
        rw [if_pos closed] at fits
        have within : ((front ++ ':' :: more).takeWhile fun d => d ≠ c).length ≤ front.length := by omega
        have short : ((front ++ ':' :: more).takeWhile fun d => d ≠ c).length < (front ++ ':' :: other).length := by
          rw [List.length_append, List.length_cons]
          omega
        rw [takeWhile_of_le within, if_pos closed, if_pos short]
      · exact absurd rfl some_
    · rfl

theorem characterReferenceLength_colon (some_ : characterReferenceLength (front ++ ':' :: more) ≠ 0)
    (fits : characterReferenceLength (front ++ ':' :: more) ≤ front.length) (other : List Char) :
    characterReferenceLength (front ++ ':' :: other) = characterReferenceLength (front ++ ':' :: more) := by
  cases front with
  | nil => exact absurd (Nat.le_zero.mp fits) some_
  | cons c front =>
    by_cases opens : c = '&'
    · subst opens
      have size : characterReferenceLength ('&' :: (front ++ ':' :: more)) = ((front ++ ':' :: more).takeWhile (· ≠ ';')).length + 2 ∨
          characterReferenceLength ('&' :: (front ++ ':' :: more)) = 0 := ite_eq_or_eq _ _ _
      have within : ((front ++ ':' :: more).takeWhile (· ≠ ';')).length ≤ front.length := by
        rcases size with size | none_
        · rw [List.cons_append, size, List.length_cons] at fits
          omega
        · exact absurd none_ some_
      have short (more : List Char) (within : ((front ++ ':' :: more).takeWhile (· ≠ ';')).length ≤ front.length) :
          decide (((front ++ ':' :: more).takeWhile (· ≠ ';')).length < (front ++ ':' :: more).length) = true := by
        rw [List.length_append, List.length_cons]
        exact decide_eq_true (by omega)
      have same := takeWhile_of_le within other
      simp only [List.cons_append, characterReferenceLength]
      rw [short more within, short other (by rw [same]; exact within), same]
    · refine absurd ?_ some_
      unfold characterReferenceLength
      split <;> simp_all

/-- What opens a conditional expression behind a question mark and blanks. -/
def opensBranch : List Char → Bool
  | '.' :: d :: _ => d.isDigit
  | ['.'] => false
  | c :: _ => c ∉ [':', ')', ',']
  | [] => true

theorem opensConditional_cons {c : Char} (single : c ≠ '?') (rest : List Char) :
    opensConditional ('?' :: c :: rest) = opensBranch ((c :: rest).dropWhile isLineBlank) := by
  rw [opensConditional]
  · rfl
  · exact fun _ same => single (List.cons.inj same).1

theorem opensConditional_colon (solid : front ≠ []) (more other : List Char) :
    opensConditional (front ++ ':' :: other) = opensConditional (front ++ ':' :: more) := by
  obtain ⟨c, front, rfl⟩ := List.exists_cons_of_ne_nil solid
  by_cases opens : c = '?'
  · subst opens
    rcases front with _ | ⟨d, front⟩
    · rfl
    · by_cases doubled : d = '?'
      · subst doubled
        rfl
      · rw [List.cons_append, List.cons_append, List.cons_append, List.cons_append, opensConditional_cons doubled,
          opensConditional_cons doubled, ← List.cons_append, ← List.cons_append,
          dropWhile_colon (show isLineBlank ':' = false from rfl), dropWhile_colon (show isLineBlank ':' = false from rfl)]
        rcases (d :: front).dropWhile isLineBlank with _ | ⟨e, _ | ⟨f, rest⟩⟩
        · rfl
        · by_cases point : e = '.'
          · subst point
            rfl
          · simp [opensBranch, point]
        · by_cases point : e = '.'
          · subst point
            rfl
          · simp [opensBranch, point]
  · have none_ (rest : List Char) : opensConditional (c :: rest) = false := by
      unfold opensConditional
      split <;> simp_all
    rw [List.cons_append, List.cons_append, none_, none_]

theorem stringLength_colon (some_ : stringLength (front ++ ':' :: more) ≠ 0)
    (fits : stringLength (front ++ ':' :: more) ≤ front.length) (other : List Char) :
    stringLength (front ++ ':' :: other) = stringLength (front ++ ':' :: more) := by
  obtain ⟨token, behind, rfl, size⟩ : ∃ token behind, front = token ++ behind ∧
      token.length = stringLength (front ++ ':' :: more) :=
    ⟨_, _, (List.take_append_drop _ front).symm, by rw [List.length_take, Nat.min_eq_left fits]⟩
  rw [List.append_assoc] at some_ size ⊢
  rw [List.append_assoc, ← size]
  exact stringLength_append some_ size.symm _

/-! ## Terminals -/

/-- No mark is held back by what goes on with a colon. -/
def Terminal.sparesColon : Terminal → Bool
  | .mark _ continuations => continuations.all fun longer => ':' ∉ longer.toList
  | _ => true

/-- What a terminal measures in front of a colon, it measures there whatever is behind the colon. -/
theorem Terminal.length_colon {terminal : Terminal} (spares : terminal.sparesColon = true)
    (some_ : terminal.length (front ++ ':' :: more) ≠ 0) (fits : terminal.length (front ++ ':' :: more) ≤ front.length)
    (other : List Char) : terminal.length (front ++ ':' :: other) = terminal.length (front ++ ':' :: more) := by
  have solid : front ≠ [] := by
    rintro rfl
    exact some_ (Nat.le_zero.mp fits)
  have frontName_eq : frontName (front ++ ':' :: other) = frontName (front ++ ':' :: more) := by
    rw [frontName, frontName, haltsAtColon_name.eq front other more, List.take_append_of_le_length (haltsAtColon_name.le ..),
      List.take_append_of_le_length (haltsAtColon_name.le ..)]
  cases terminal with
  | mark shape continuations =>
    obtain ⟨begins, alone, eq⟩ := of_length_mark some_
    rw [eq] at fits ⊢
    have inside : shape.toList <+: front :=
      List.prefix_of_prefix_length_le begins (List.prefix_append _ _) (by rw [String.length_toList]; exact fits)
    refine length_mark (inside.trans (List.prefix_append _ _)) fun longer mem found => alone longer mem ?_
    have plain := of_decide_eq_true (List.all_eq_true.mp spares longer mem)
    rw [drop_colon fits, ← List.isPrefixOf_iff_prefix, isPrefixOf_colon plain] at found ⊢
    exact found
  | word shape =>
    simp only [Terminal.length, frontName_eq]
  | name reserved =>
    have eq (text : List Char) : (Terminal.name reserved).length text =
        if nameLength text = 0 then 0 else if frontName text ∈ reserved then 0 else nameLength text := rfl
    rw [eq, eq, frontName_eq, haltsAtColon_name.eq front other more]
  | privateName =>
    obtain ⟨c, front, rfl⟩ := List.exists_cons_of_ne_nil solid
    by_cases opens : c = '#'
    · subst opens
      simp only [List.cons_append, Terminal.length, haltsAtColon_name.eq front other more]
    · refine absurd ?_ some_
      simp only [Terminal.length]
      split <;> simp_all
  | number => exact haltsAtColon_number.eq front other more
  | string => exact stringLength_colon some_ fits other
  | regex => exact regexLength_colon some_ fits other
  | templateChars => exact templateCharsLength_colon fits other
  | escape =>
    have short : escapeLength (front ++ [':'] ++ more) < (front ++ [':']).length := by
      rw [List.append_assoc, List.length_append]
      exact Nat.lt_succ_of_le fits
    have same := escapeLength_append (by rw [List.append_assoc]; exact some_) short other
    rwa [List.append_assoc, List.append_assoc] at same
  | markupText => exact markupTextLength_colon some_ fits other
  | markupName => exact haltsAtColon_markupName.eq front other more
  | markupString => exact markupStringLength_colon some_ fits other
  | characterReference => exact characterReferenceLength_colon some_ fits other
  | questionMark => simp only [Terminal.length, opensConditional_colon solid more other]
  | hashBang =>
    rcases front with _ | ⟨c, _ | ⟨d, front⟩⟩
    · exact absurd rfl solid
    · refine absurd ?_ some_
      simp only [Terminal.length]
      split <;> simp_all
    · by_cases opens : c = '#' ∧ d = '!'
      · obtain ⟨rfl, rfl⟩ := opens
        simp only [List.cons_append, Terminal.length, List.length_cons] at fits ⊢
        rw [takeWhile_of_le (Nat.le_of_add_le_add_right fits)]
      · refine absurd ?_ some_
        simp only [Terminal.length]
        split <;> simp_all

end Scaffold.Syntax
