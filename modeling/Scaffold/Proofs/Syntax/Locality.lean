import Scaffold.Proofs.Syntax.Tokens

/-! # Where tokens end

How far a token reaches is settled by its own characters and by what directly follows it. A string, an escape and a
comment hold their own end; a name ends where no name goes on.
-/

namespace Scaffold.Syntax

open Scaffold.Text

variable {text token behind other more front : List Char} {c : Char} {length skip : Nat}

/-! ## Escapes -/

/-- The escape of a character by its number. -/
inductive IsUnicodeEscape : List Char → Prop
  | braced {digits : List Char} (some_ : digits ≠ []) (hex : ∀ c ∈ digits, isHexDigit c = true) :
      IsUnicodeEscape ('\\' :: 'u' :: '\x7b' :: (digits ++ ['\x7d']))
  | plain {first second third fourth : Char} (hex : [first, second, third, fourth].all isHexDigit = true) :
      IsUnicodeEscape ['\\', 'u', first, second, third, fourth]

theorem IsUnicodeEscape.length_eq (escape : IsUnicodeEscape token) (more : List Char) :
    unicodeEscapeLength (token ++ more) = token.length := by
  cases escape with
  | @braced digits some_ hex =>
    have stretch : (digits ++ '\x7d' :: more).takeWhile isHexDigit = digits := by
      rw [List.takeWhile_append_of_pos hex, List.takeWhile_cons_of_neg (by decide), List.append_nil]
    have shape : '\\' :: 'u' :: '\x7b' :: (digits ++ ['\x7d']) ++ more =
        '\\' :: 'u' :: '\x7b' :: (digits ++ '\x7d' :: more) := by simp
    rw [shape, unicodeEscapeLength]
    simp only [stretch, List.isEmpty_iff, some_, if_false, List.drop_left, List.head?_cons, if_true]
    simp
  | @plain first second third fourth hex =>
    have unbraced : first ≠ '\x7b' := by
      rintro rfl
      simp [isHexDigit] at hex
    change unicodeEscapeLength ('\\' :: 'u' :: first :: second :: third :: fourth :: more) = 6
    rw [unicodeEscapeLength]
    · exact if_pos hex
    · exact unbraced

theorem exists_unicodeEscape (some_ : unicodeEscapeLength text ≠ 0) :
    ∃ token behind, text = token ++ behind ∧ IsUnicodeEscape token := by
  unfold unicodeEscapeLength at some_
  split at some_
  · next rest =>
    dsimp only at some_
    split at some_
    · exact absurd rfl some_
    · next nonempty =>
      split at some_
      · next closed =>
        obtain ⟨behind, closed⟩ := List.head?_eq_some_iff.mp closed
        refine ⟨_, behind, ?_, .braced (by simpa using nonempty) fun c mem => List.all_eq_true.mp List.all_takeWhile c mem⟩
        have split := List.take_append_drop (rest.takeWhile isHexDigit).length rest
        rw [closed, ← List.prefix_iff_eq_take.mp (List.takeWhile_prefix _)] at split
        exact congrArg (fun tail => '\\' :: 'u' :: '\x7b' :: tail) (split.symm.trans (by simp))
      · exact absurd rfl some_
  · split at some_
    · next hex => exact ⟨_, _, rfl, .plain hex⟩
    · exact absurd rfl some_
  · exact absurd rfl some_

/-- An escape that ends inside of a text is there whatever follows the text. -/
theorem unicodeEscapeLength_append (some_ : unicodeEscapeLength (text ++ more) ≠ 0)
    (fits : unicodeEscapeLength (text ++ more) ≤ text.length) (other : List Char) :
    unicodeEscapeLength (text ++ other) = unicodeEscapeLength (text ++ more) := by
  obtain ⟨token, behind, split, escape⟩ := exists_unicodeEscape some_
  rw [split, escape.length_eq behind] at fits
  obtain ⟨rest, rfl⟩ := List.prefix_of_prefix_length_le ⟨behind, split.symm⟩ (List.prefix_append text more) fits
  rw [List.append_assoc, List.append_assoc, escape.length_eq, escape.length_eq]

theorem unicodeEscapeLength_le (text : List Char) : unicodeEscapeLength text ≤ text.length := by
  by_cases some_ : unicodeEscapeLength text = 0
  · omega
  · obtain ⟨token, behind, rfl, escape⟩ := exists_unicodeEscape some_
    rw [escape.length_eq, List.length_append]
    omega

/-- A text that no token goes on into. -/
def Halts (more : List Char) : Prop := ∃ c behind, more = c :: behind ∧ (c = ' ' ∨ c = ',')

theorem IsUnicodeEscape.not_mem (escape : IsUnicodeEscape token) (halts : c = ' ' ∨ c = ',') : c ∉ token := by
  have digit : isHexDigit c = false := by rcases halts with rfl | rfl <;> decide
  have mark : c ∉ ['\\', 'u', '\x7b', '\x7d'] := by rcases halts with rfl | rfl <;> decide
  have unlike {d : Char} (hex : isHexDigit d = true) : c ≠ d := by
    rintro rfl
    exact absurd hex (Bool.eq_false_iff.mp digit)
  simp only [List.mem_cons, List.not_mem_nil, or_false, not_or] at mark
  cases escape with
  | braced _ hex => simpa [mark] using fun mem => unlike (hex c mem) rfl
  | plain hex =>
    simp only [List.all_cons, List.all_nil, Bool.and_eq_true, and_true] at hex
    simp [mark, unlike hex.1, unlike hex.2.1, unlike hex.2.2.1, unlike hex.2.2.2]

/-- No escape goes on into such a text. -/
theorem unicodeEscapeLength_le_of_halts (halts : Halts more) : unicodeEscapeLength (text ++ more) ≤ text.length := by
  by_cases some_ : unicodeEscapeLength (text ++ more) = 0
  · omega
  · obtain ⟨token, behind, split, escape⟩ := exists_unicodeEscape some_
    rw [split, escape.length_eq]
    refine Nat.le_of_not_lt fun longer => ?_
    obtain ⟨rest, rfl⟩ := List.prefix_of_prefix_length_le (List.prefix_append text more) ⟨behind, split.symm⟩ (Nat.le_of_lt longer)
    obtain ⟨c, after, rfl, halts⟩ := halts
    rw [List.append_assoc, List.append_cancel_left_eq] at split
    cases rest with
    | nil => simp at longer
    | cons d rest =>
      obtain ⟨rfl, -⟩ := List.cons.inj split
      exact absurd (List.mem_append_right _ List.mem_cons_self) (escape.not_mem halts)

/-! ## Names -/

theorem le_nameTailLength (skip : Nat) (text : List Char) : min skip text.length ≤ nameTailLength skip text := by
  induction text generalizing skip with
  | nil => simp
  | cons c rest le =>
    cases skip with
    | zero => simp
    | succ skip =>
      have := le skip
      simp only [nameTailLength, List.length_cons]
      omega

/-- A name that ends with a text ends there in front of any text that it does not go on into. -/
theorem nameTailLength_append (ends : nameTailLength skip (text ++ more) = text.length) (fits : skip ≤ text.length)
    (quiet : nameTailLength 0 other = 0) : nameTailLength skip (text ++ other) = text.length := by
  induction text generalizing skip with
  | nil =>
    obtain rfl : skip = 0 := Nat.le_zero.mp fits
    exact quiet
  | cons c rest same =>
    cases skip with
    | succ skip =>
      simp only [List.cons_append, nameTailLength, List.length_cons, Nat.add_right_cancel_iff] at ends ⊢
      exact same ends (Nat.le_of_succ_le_succ fits)
    | zero =>
      simp only [List.cons_append, nameTailLength, List.length_cons] at ends ⊢
      split at ends
      · next plain =>
        rw [if_pos plain, same (Nat.add_right_cancel ends) (Nat.zero_le _)]
      · next plain =>
        rw [if_neg plain]
        split at ends
        · cases ends
        · next skip escape =>
          have tail := Nat.add_right_cancel ends
          have within : skip ≤ rest.length := by
            have all := unicodeEscapeLength_le (c :: (rest ++ more))
            have least := le_nameTailLength skip (rest ++ more)
            rw [escape, List.length_cons] at all
            omega
          have kept := @unicodeEscapeLength_append (c :: rest) more (by simp [escape])
            (by rw [List.cons_append, escape]; exact Nat.succ_le_succ within) other
          rw [List.cons_append, List.cons_append, escape] at kept
          rw [kept]
          simp only [same tail within]

theorem quiet_of_halts (halts : Halts more) : nameTailLength 0 more = 0 := by
  obtain ⟨c, behind, rfl, rfl | rfl⟩ := halts <;> rfl

/-- Where no name goes on, none does when the text is another from where a token halts. -/
theorem quiet_append (quiet : nameTailLength 0 (text ++ more) = 0) (halts : Halts other) :
    nameTailLength 0 (text ++ other) = 0 := by
  cases text with
  | nil => exact quiet_of_halts halts
  | cons c text =>
    simp only [List.cons_append, nameTailLength] at quiet ⊢
    split at quiet
    · cases quiet
    · next stops =>
      rw [if_neg stops]
      split at quiet
      · next none_ =>
        split
        · rfl
        · next escape =>
          have fits := @unicodeEscapeLength_le_of_halts (c :: text) _ halts
          have kept := @unicodeEscapeLength_append (c :: text) _ (by simp [escape]) fits more
          rw [List.cons_append, List.cons_append, none_, escape] at kept
          cases kept
      · cases quiet

theorem quiet_drop (skip : Nat) (text : List Char) : nameTailLength 0 (text.drop (nameTailLength skip text)) = 0 := by
  induction text generalizing skip with
  | nil => cases skip <;> rfl
  | cons c rest quiet =>
    cases skip with
    | succ skip => exact quiet skip
    | zero =>
      rw [nameTailLength]
      split
      · exact quiet 0
      · next stops =>
        split
        · next none_ =>
          rw [List.drop_zero, nameTailLength, if_neg stops, none_]
        · exact quiet _

theorem nameTailLength_le (skip : Nat) (text : List Char) : nameTailLength skip text ≤ text.length := by
  induction text generalizing skip with
  | nil => cases skip <;> exact Nat.le_refl _
  | cons c rest le =>
    cases skip with
    | succ skip => exact Nat.succ_le_succ (le skip)
    | zero =>
      rw [nameTailLength]
      split
      · exact Nat.succ_le_succ (le 0)
      · split
        · exact Nat.zero_le _
        · exact Nat.succ_le_succ (le _)

theorem nameLength_le (text : List Char) : nameLength text ≤ text.length := by
  unfold nameLength
  split
  · exact Nat.le_refl _
  · split
    · exact Nat.zero_le _
    · exact nameTailLength_le 0 _

/-- Behind a name no name goes on, and in front of any other such text it is the same name. -/
theorem nameLength_append (solid : token ≠ []) (found : nameLength (token ++ more) = token.length) :
    nameTailLength 0 more = 0 ∧ ∀ other, nameTailLength 0 other = 0 → nameLength (token ++ other) = token.length := by
  obtain ⟨c, rest, rfl⟩ := List.exists_cons_of_ne_nil solid
  simp only [List.cons_append, nameLength] at found ⊢
  split at found
  · cases found
  · next letter =>
    have quiet := quiet_drop 0 (c :: (rest ++ more))
    rw [found, ← List.cons_append, List.drop_left] at quiet
    refine ⟨quiet, fun other quiet' => ?_⟩
    rw [if_neg letter]
    exact @nameTailLength_append (c :: rest) _ _ _ found (Nat.zero_le _) quiet'

/-! ## Strings -/

theorem escapeLength_cons (c : Char) (rest : List Char) :
    escapeLength ('\\' :: c :: rest) =
      if c = 'u' then unicodeEscapeLength ('\\' :: 'u' :: rest)
      else if c = 'x' then if 2 ≤ rest.length ∧ (rest.take 2).all isHexDigit = true then 4 else 0
      else if c = '\r' ∧ rest.head? = some '\n' then 3
      else if isOctalDigit c = true then 1 + (((c :: rest).take 3).takeWhile isOctalDigit).length
      else 2 := by
  by_cases number : c = 'u'
  · subst number
    rfl
  · by_cases byte : c = 'x'
    · subst byte
      rcases rest with _ | ⟨first, _ | ⟨second, rest⟩⟩
      · rfl
      · rfl
      · simp [escapeLength]
    · by_cases newline : c = '\r' ∧ rest.head? = some '\n'
      · obtain ⟨rfl, head⟩ := newline
        obtain ⟨rest, rfl⟩ := List.head?_eq_some_iff.mp head
        rfl
      · rw [if_neg number, if_neg byte, if_neg newline, escapeLength]
        · exact number
        · exact fun _ _ _ same => absurd same byte
        · exact fun same => absurd same byte
        · exact fun _ same => absurd same byte
        · exact fun _ same next => newline ⟨same, by rw [next]; rfl⟩

/-- An escape with something behind it is there whatever follows that. -/
theorem escapeLength_append (some_ : escapeLength (text ++ more) ≠ 0) (fits : escapeLength (text ++ more) < text.length)
    (other : List Char) : escapeLength (text ++ other) = escapeLength (text ++ more) := by
  rcases text with _ | ⟨head, _ | ⟨c, text⟩⟩
  · cases fits
  · exact absurd (Nat.lt_one_iff.mp fits) some_
  · by_cases begins : head = '\\'
    · subst begins
      simp only [List.cons_append, escapeLength_cons] at some_ fits ⊢
      by_cases number : c = 'u'
      · simp only [if_pos number] at some_ fits ⊢
        exact @unicodeEscapeLength_append ('\\' :: 'u' :: text) _ some_ (Nat.le_of_lt fits) other
      · simp only [if_neg number] at some_ fits ⊢
        by_cases byte : c = 'x'
        · simp only [if_pos byte] at some_ fits ⊢
          split at some_
          · next digits =>
            rw [if_pos digits] at fits
            have long : 2 ≤ text.length := by
              simp only [List.length_cons] at fits
              omega
            have same (rest : List Char) : 2 ≤ (text ++ rest).length ∧ (text ++ rest).take 2 = text.take 2 := by
              refine ⟨?_, List.take_append_of_le_length long⟩
              rw [List.length_append]
              omega
            rw [(same more).2] at digits
            rw [if_pos ⟨(same other).1, (same other).2 ▸ digits.2⟩, if_pos ⟨(same more).1, (same more).2 ▸ digits.2⟩]
          · exact absurd rfl some_
        · simp only [if_neg byte] at some_ fits ⊢
          by_cases octal : isOctalDigit c = true
          · have solid : ¬ c = '\r' := by
              rintro rfl
              cases octal
            simp only [solid, false_and, if_false, octal, if_true] at fits ⊢
            rcases text with _ | ⟨first, _ | ⟨second, text⟩⟩
            · simp only [List.take_succ_cons, List.takeWhile_cons, octal, if_true, List.length_cons, List.length_nil] at fits
              omega
            · have stops : isOctalDigit first = false := by
                refine Bool.eq_false_iff.mpr fun digit => ?_
                simp [octal, digit] at fits
                omega
              simp [octal, stops]
            · simp
          · simp only [octal] at fits ⊢
            rcases text with _ | ⟨first, text⟩
            · exfalso
              split at fits <;> simp at fits
            · rfl
    · have none_ (rest : List Char) : escapeLength (head :: c :: rest) = 0 := by
        unfold escapeLength
        split <;> simp_all
      rw [List.cons_append, List.cons_append, List.cons_append, List.cons_append, none_, none_]

theorem lt_stringTailLength {quote : Char} (found : stringTailLength quote skip text = some length) : skip < length := by
  induction text generalizing skip length with
  | nil => cases skip <;> cases found
  | cons c rest lt =>
    cases skip with
    | succ skip =>
      obtain ⟨inner, inside, rfl⟩ := Option.map_eq_some_iff.mp found
      exact Nat.succ_lt_succ (lt inside)
    | zero =>
      refine Nat.pos_of_ne_zero ?_
      rintro rfl
      simp only [stringTailLength] at found
      split at found
      · cases found
      · split at found
        · split at found
          · cases found
          · simp at found
        · split at found
          · cases found
          · simp at found

theorem stringTailLength_le {quote : Char} (found : stringTailLength quote skip text = some length) :
    length ≤ text.length := by
  induction text generalizing skip length with
  | nil => cases skip <;> cases found
  | cons c rest le =>
    have later {skip : Nat} (found : (stringTailLength quote skip rest).map (· + 1) = some length) :
        length ≤ rest.length + 1 := by
      obtain ⟨inner, inside, rfl⟩ := Option.map_eq_some_iff.mp found
      exact Nat.succ_le_succ (le inside)
    cases skip with
    | succ skip => exact later found
    | zero =>
      simp only [stringTailLength] at found
      split at found
      · cases found
        exact Nat.le_add_left 1 _
      · split at found
        · split at found
          · cases found
          · exact later found
        · split at found
          · cases found
          · exact later found

/-- A string that ends with a text ends there whatever follows. -/
theorem stringTailLength_append {quote : Char} (found : stringTailLength quote skip (text ++ more) = some text.length)
    (other : List Char) : stringTailLength quote skip (text ++ other) = some text.length := by
  induction text generalizing skip with
  | nil => exact absurd (lt_stringTailLength found) (Nat.not_lt_zero _)
  | cons c rest same =>
    have later {skip : Nat} (found : (stringTailLength quote skip (rest ++ more)).map (· + 1) = some (rest.length + 1)) :
        (stringTailLength quote skip (rest ++ other)).map (· + 1) = some (rest.length + 1) ∧ skip < rest.length := by
      obtain ⟨inner, found, eq⟩ := Option.map_eq_some_iff.mp found
      obtain rfl := Nat.add_right_cancel eq
      exact ⟨by rw [same found]; rfl, lt_stringTailLength found⟩
    cases skip with
    | succ skip => exact (later found).1
    | zero =>
      simp only [List.cons_append, stringTailLength] at found ⊢
      split at found
      · next closes => rw [if_pos closes]; exact found
      · next goesOn =>
        rw [if_neg goesOn]
        split at found
        · next escapes =>
          rw [if_pos escapes]
          split at found
          · cases found
          · next skip escape =>
            obtain ⟨inner, lt⟩ := later found
            have kept := @escapeLength_append (c :: rest) more (by simp [escape])
              (by rw [List.cons_append, escape]; exact Nat.succ_lt_succ lt) other
            rw [List.cons_append, List.cons_append, escape] at kept
            rw [kept]
            exact inner
        · next plain =>
          rw [if_neg plain]
          split at found
          · cases found
          · next inLine =>
            rw [if_neg inLine]
            exact (later found).1

theorem stringLength_le (text : List Char) : stringLength text ≤ text.length := by
  unfold stringLength
  split
  · split
    · split
      · next found => exact Nat.succ_le_succ (stringTailLength_le found)
      · exact Nat.zero_le _
    · exact Nat.zero_le _
  · exact Nat.le_refl _

theorem stringLength_append (some_ : stringLength (text ++ more) ≠ 0) (fits : stringLength (text ++ more) = text.length)
    (other : List Char) : stringLength (text ++ other) = text.length := by
  cases text with
  | nil => exact absurd fits some_
  | cons c rest =>
    simp only [List.cons_append, stringLength] at fits ⊢
    split at fits
    · next quote =>
      rw [if_pos quote]
      split at fits
      · next length found =>
        obtain rfl : length = rest.length := Nat.add_right_cancel fits
        rw [stringTailLength_append found other]
        rfl
      · cases fits
    · cases fits

/-! ## Comments -/

theorem blockCommentTailLength_cons (c : Char) (rest : List Char) :
    blockCommentTailLength (c :: rest) =
      if c = '*' ∧ rest.head? = some '/' then some 2 else (blockCommentTailLength rest).map (· + 1) := by
  split
  · next closes =>
    obtain ⟨rfl, head⟩ := closes
    obtain ⟨rest, rfl⟩ := List.head?_eq_some_iff.mp head
    rfl
  · next goesOn =>
    rw [blockCommentTailLength]
    intro rest' star slash
    exact goesOn ⟨star, by rw [slash]; rfl⟩

theorem two_le_blockCommentTailLength (found : blockCommentTailLength text = some length) : 2 ≤ length := by
  induction text generalizing length with
  | nil => cases found
  | cons c rest le =>
    rw [blockCommentTailLength_cons] at found
    split at found
    · cases found
      exact Nat.le_refl 2
    · obtain ⟨inner, inside, rfl⟩ := Option.map_eq_some_iff.mp found
      exact Nat.le_succ_of_le (le inside)

theorem blockCommentTailLength_append (found : blockCommentTailLength (text ++ more) = some length)
    (fits : length ≤ text.length) (other : List Char) : blockCommentTailLength (text ++ other) = some length := by
  have least := two_le_blockCommentTailLength found
  induction text generalizing length with
  | nil => exact absurd (Nat.le_trans least fits) (by decide)
  | cons c rest same =>
    rw [List.cons_append, blockCommentTailLength_cons] at found ⊢
    have head (solid : rest ≠ []) (more : List Char) : (rest ++ more).head? = rest.head? := by
      cases rest with
      | nil => exact absurd rfl solid
      | cons c rest => rfl
    split at found
    · next closes =>
      cases found
      have solid : rest ≠ [] := by
        rintro rfl
        simp at fits
      rw [head solid] at closes
      rw [head solid, if_pos closes]
    · next goesOn =>
      obtain ⟨inner, inside, rfl⟩ := Option.map_eq_some_iff.mp found
      have inner_least := two_le_blockCommentTailLength inside
      have inner_fits := Nat.le_of_succ_le_succ fits
      have solid : rest ≠ [] := by
        rintro rfl
        simp only [List.length_nil] at inner_fits
        omega
      rw [head solid] at goesOn
      rw [head solid, if_neg goesOn, same inside inner_fits inner_least]
      rfl

theorem two_le_commentLength (some_ : commentLength text ≠ 0) : 2 ≤ commentLength text := by
  unfold commentLength at some_ ⊢
  split
  · exact Nat.le_add_left 2 _
  · split
    · exact Nat.le_add_left 2 _
    · next missing =>
      simp [missing] at some_
  · next line block =>
    revert some_
    split <;> simp_all

theorem isSeparator_of_isLineEnd (ends : isLineEnd c = true) : isSeparator c = true := by
  simp only [isLineEnd, Bool.or_eq_true, decide_eq_true_eq] at ends
  rcases ends with ((rfl | rfl) | rfl) | rfl <;> decide

/-- A comment with a token behind it is there whatever follows. -/
theorem commentLength_append (fits : commentLength (text ++ more) ≤ text.length) (some_ : commentLength (text ++ more) ≠ 0)
    (inked : ∀ c ∈ more.head?, isSeparator c = false) (ended : more = [] → other = []) :
    commentLength (text ++ other) = commentLength (text ++ more) := by
  rcases text with _ | ⟨first, _ | ⟨second, text⟩⟩
  · exact absurd (Nat.le_zero.mp fits) some_
  · exact absurd (Nat.le_trans (two_le_commentLength some_) fits) (by simp)
  · by_cases opens : first = '/'
    · subst opens
      by_cases line : second = '/'
      · subst line
        simp only [List.cons_append, commentLength, List.length_cons, Nat.add_le_add_iff_right] at fits ⊢
        rw [List.takeWhile_append] at fits ⊢
        rw [List.takeWhile_append]
        split at fits
        · next whole =>
          rw [if_pos whole, if_pos whole]
          cases more with
          | nil =>
            obtain rfl := ended rfl
            rfl
          | cons c more =>
            have ink := inked c rfl
            have goesOn : isLineEnd c = false := Bool.eq_false_iff.mpr fun ends =>
              absurd (isSeparator_of_isLineEnd ends) (Bool.eq_false_iff.mp ink)
            simp only [List.length_append, List.takeWhile_cons, goesOn, Bool.not_false, if_true, List.length_cons] at fits
            omega
        · next part => rw [if_neg part, if_neg part]
      · by_cases block : second = '*'
        · subst block
          simp only [List.cons_append, commentLength, List.length_cons] at fits some_ ⊢
          split at fits
          · next length found =>
            rw [blockCommentTailLength_append found (Nat.le_of_add_le_add_right fits) other]
          · next missing =>
            rw [missing] at some_
            exact absurd rfl some_
        · exfalso
          revert some_
          simp only [List.cons_append, commentLength]
          split <;> simp_all
    · exfalso
      revert some_
      simp only [List.cons_append, commentLength]
      split <;> simp_all

/-! ## Terminals -/

/-- A text that begins with a token, and not with a slash. -/
def Inky (text : List Char) : Prop := ∀ c ∈ text.head?, isSeparator c = false ∧ c ≠ '/'

/-- What is behind a token may be replaced: it stays, or a token halts in the new one no later than it differs. -/
def Alike (more other : List Char) : Prop :=
  other = more ∨ ∃ front behind halted, more = front ++ behind ∧ other = front ++ halted ∧ Halts halted

theorem Alike.append (alike : Alike more other) (front : List Char) : Alike (front ++ more) (front ++ other) := by
  rcases alike with rfl | ⟨common, behind, halted, rfl, rfl, halts⟩
  · exact .inl rfl
  · exact .inr ⟨front ++ common, behind, halted, (List.append_assoc ..).symm, (List.append_assoc ..).symm, halts⟩

theorem Alike.quiet (alike : Alike more other) (quiet : nameTailLength 0 more = 0) : nameTailLength 0 other = 0 := by
  rcases alike with rfl | ⟨front, behind, halted, rfl, rfl, halts⟩
  · exact quiet
  · exact quiet_append quiet halts

/-- The terminals whose end is settled by themselves and by whether a name goes on behind them. -/
def Terminal.isLocal : Terminal → Bool
  | .mark shape continuations =>
    continuations.isEmpty && shape.toList.head?.any fun c => !isSeparator c && c ≠ '/'
  | .word _ | .name _ | .string => true
  | _ => false

theorem inky_of_nameLength (some_ : nameLength text ≠ 0) : Inky text := by
  intro c mem
  obtain ⟨rest, rfl⟩ := List.head?_eq_some_iff.mp mem
  simp only [nameLength, nameTailLength] at some_
  split at some_
  · exact absurd rfl some_
  · split at some_
    · next letter =>
      have plain : isNameBreak c = false := by simpa using letter
      refine ⟨isSeparator_of_isNameBreak plain, ?_⟩
      rintro rfl
      cases plain
    · split at some_
      · exact absurd rfl some_
      · next escape =>
        obtain ⟨token, behind, split, escape⟩ := @exists_unicodeEscape (c :: rest) (by simp [escape])
        have head : c = '\\' := by
          cases escape <;> exact (List.cons.inj split).1
        subst head
        decide

/-- A token that is read by a local terminal. -/
structure Terminal.IsToken (terminal : Terminal) (token behind : List Char) : Prop where
  solid : token ≠ []
  inky : Inky token
  length_eq : ∀ other, (nameTailLength 0 behind = 0 → nameTailLength 0 other = 0) →
    terminal.length (token ++ other) = token.length

theorem inky_take (inky : Inky text) : Inky (text.take length) := by
  cases text with
  | nil => simpa using inky
  | cons c rest =>
    cases length with
    | zero => exact nofun
    | succ length => exact inky

/-- What a name measures is a token of a terminal where the terminal measures it so too. -/
theorem Terminal.isToken_of_name {terminal : Terminal} (solid : token ≠ [])
    (found : nameLength (token ++ behind) = token.length)
    (measures : ∀ other, nameLength (token ++ other) = token.length → terminal.length (token ++ other) = token.length) :
    terminal.IsToken token behind := by
  obtain ⟨quiet, same⟩ := nameLength_append solid found
  have some_ : nameLength (token ++ behind) ≠ 0 := fun none_ => solid (List.length_eq_zero_iff.mp (found.symm.trans none_))
  have inky := @inky_take _ token.length (inky_of_nameLength some_)
  rw [List.take_left] at inky
  exact ⟨solid, inky, fun other still => measures other (same other (still quiet))⟩

namespace Terminal

variable {shape : String} {reserved : List String}

theorem exists_token_mark (inky : shape.toList.head?.any (fun c => !isSeparator c && c ≠ '/') = true)
    (some_ : (mark shape []).length text ≠ 0) : ∃ token behind, text = token ++ behind ∧
      token.length = (mark shape []).length text ∧ (mark shape []).IsToken token behind := by
  obtain ⟨⟨behind, rfl⟩, -, eq⟩ := of_length_mark some_
  refine ⟨shape.toList, behind, rfl, String.length_toList.trans eq.symm, ?_, ?_, fun other _ => ?_⟩
  · intro none_
    rw [none_] at inky
    cases inky
  · intro c mem
    rw [Option.mem_def.mp mem] at inky
    simpa using inky
  · rw [length_mark (List.prefix_append _ _) (by simp), String.length_toList]

/-- A text is a name and what stands behind it. -/
theorem exists_name (text : List Char) : ∃ token behind, text = token ++ behind ∧ nameLength text = token.length := by
  refine ⟨_, _, (List.take_append_drop (nameLength text) text).symm, ?_⟩
  rw [List.length_take, Nat.min_eq_left (nameLength_le text)]

theorem frontName_append (length : nameLength (token ++ other) = token.length) :
    frontName (token ++ other) = String.ofList token := by
  rw [frontName, length, List.take_left]

theorem exists_token_word (some_ : (word shape).length text ≠ 0) : ∃ token behind, text = token ++ behind ∧
    token.length = (word shape).length text ∧ (word shape).IsToken token behind := by
  obtain ⟨same, eq⟩ := of_length_word some_
  obtain ⟨token, behind, rfl, length⟩ := exists_name text
  rw [frontName_append length] at same
  have size : shape.length = token.length := by rw [← same, String.length_ofList]
  refine ⟨token, behind, rfl, (eq.trans size).symm, isToken_of_name ?_ length fun other length => ?_⟩
  · rintro rfl
    exact some_ (eq.trans size)
  · rw [length_word ((frontName_append length).trans same), size]

theorem exists_token_name (some_ : (name reserved).length text ≠ 0) : ∃ token behind, text = token ++ behind ∧
    token.length = (name reserved).length text ∧ (name reserved).IsToken token behind := by
  obtain ⟨free, solid, eq⟩ := of_length_name some_
  obtain ⟨token, behind, rfl, length⟩ := exists_name text
  rw [frontName_append length] at free
  refine ⟨token, behind, rfl, (eq.trans length).symm, isToken_of_name ?_ length fun other length => ?_⟩
  · rintro rfl
    exact solid length
  · rw [length_name (by rwa [frontName_append length]), length]

theorem exists_token_string (some_ : string.length text ≠ 0) : ∃ token behind, text = token ++ behind ∧
    token.length = string.length text ∧ string.IsToken token behind := by
  change stringLength text ≠ 0 at some_
  have size : (text.take (stringLength text)).length = stringLength text := by
    rw [List.length_take, Nat.min_eq_left (stringLength_le text)]
  refine ⟨_, _, (List.take_append_drop (stringLength text) text).symm, size, ?_, ?_, fun other _ => ?_⟩
  · intro none_
    rw [none_] at size
    exact some_ size.symm
  · refine inky_take fun c mem => ?_
    obtain ⟨rest, rfl⟩ := List.head?_eq_some_iff.mp mem
    simp only [stringLength] at some_
    split at some_
    · next quote =>
      rcases (Bool.or_eq_true _ _).mp quote with quote | quote <;> obtain rfl := of_decide_eq_true quote <;> decide
    · exact absurd rfl some_
  · refine @stringLength_append _ (text.drop (stringLength text)) ?_ ?_ other
    · rwa [List.take_append_drop]
    · rw [List.take_append_drop, size]

theorem exists_token {terminal : Terminal} (isLocal : terminal.isLocal = true) (some_ : terminal.length text ≠ 0) :
    ∃ token behind, text = token ++ behind ∧ token.length = terminal.length text ∧ terminal.IsToken token behind := by
  cases terminal with
  | mark shape continuations =>
    obtain ⟨empty, inky⟩ := (Bool.and_eq_true _ _).mp isLocal
    obtain rfl := List.isEmpty_iff.mp empty
    exact exists_token_mark inky some_
  | word shape => exact exists_token_word some_
  | name reserved => exact exists_token_name some_
  | string => exact exists_token_string some_
  | _ => cases isLocal

end Terminal

end Scaffold.Syntax
