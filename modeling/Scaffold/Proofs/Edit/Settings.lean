import Scaffold.Edit.TypeCheck
import Scaffold.Proofs.Text.Matching

/-! # The setting for the type check in a text

A setting is its name, a colon and a value, with blanks between them. What follows decides whether the value is `false`,
another word or a quote, or nothing of the kind. The patterns that look for a setting find it exactly where it is.
-/

namespace Scaffold.Edit

open Scaffold.Text Pattern

variable {text front name value rest front' name' rest' : List Char} {x : Char}

/-- The name of the setting, up to the place of its value. -/
def IsName (name : List Char) : Prop :=
  ∃ gap space, name = "typeCheck".toList ++ (gap ++ ':' :: space) ∧ (∀ c ∈ gap, isBlank c = true) ∧
    ∀ c ∈ space, isBlank c = true

/-- The word `false` comes first. -/
def BeginsOff (rest : List Char) : Prop :=
  ∃ later, rest = "false".toList ++ later ∧ ∀ c ∈ later.head?, isWord c = false

/-- Another word or a quote comes first. -/
def BeginsOther (rest : List Char) : Prop := rest.head?.any isValueChar = true ∧ ¬ BeginsOff rest

/-- The setting is in a text, with a value of a kind. -/
def HasSetting (begins : List Char → Prop) (text : List Char) : Prop :=
  ∃ front name rest, text = front ++ (name ++ rest) ∧ IsName name ∧ begins rest

/-! ## The parts of a setting -/

theorem isValueChar_of_isBlank (blank : isBlank x = true) : isValueChar x = false := by
  have known : x.toNat ∈ [9, 10, 11, 12, 13, 28, 29, 30, 31, 32, 0x85, 0xA0, 0x1680, 0x2000, 0x2001, 0x2002, 0x2003,
      0x2004, 0x2005, 0x2006, 0x2007, 0x2008, 0x2009, 0x200A, 0x2028, 0x2029, 0x202F, 0x205F, 0x3000] := by
    simp only [isBlank, Bool.or_eq_true, Bool.and_eq_true, decide_eq_true_eq] at blank
    simp only [List.mem_cons, List.not_mem_nil, or_false]
    omega
  have each : ∀ n ∈ [9, 10, 11, 12, 13, 28, 29, 30, 31, 32, 0x85, 0xA0, 0x1680, 0x2000, 0x2001, 0x2002, 0x2003,
      0x2004, 0x2005, 0x2006, 0x2007, 0x2008, 0x2009, 0x200A, 0x2028, 0x2029, 0x202F, 0x205F, 0x3000],
      isValueChar (Char.ofNat n) = false := by decide +kernel
  simpa only [Char.ofNat_toNat] using each _ known

theorem isWord_eq_false_of_isValueChar (other : isValueChar x = false) : isWord x = false := by
  simp only [isValueChar, Bool.or_eq_false_iff] at other
  exact other.1.1

theorem IsName.head? (named : IsName name) (rest : List Char) : (name ++ rest).head? = some 't' := by
  obtain ⟨gap, space, rfl, -, -⟩ := named
  rfl

theorem IsName.colon_mem (named : IsName name) : ':' ∈ name := by
  obtain ⟨gap, space, rfl, -, -⟩ := named
  simp

/-- The first letter of the name is nowhere else in it. -/
theorem IsName.not_mem_tail (named : IsName name) : 't' ∉ name.tail := by
  obtain ⟨gap, space, rfl, gapBlank, spaceBlank⟩ := named
  have other {blanks : List Char} (each : ∀ c ∈ blanks, isBlank c = true) : 't' ∉ blanks := fun mem =>
    absurd (each 't' mem) (by decide)
  have word : 't' ∉ "typeCheck".toList.tail := by decide
  rw [List.tail_append_of_ne_nil (by decide)]
  simp only [List.mem_append, List.mem_cons, not_or]
  exact ⟨word, other gapBlank, by decide, other spaceBlank⟩

theorem IsName.eq_nil_of_append (named : IsName (front ++ rest)) (head : rest.head? = some 't') : front = [] := by
  cases front with
  | nil => rfl
  | cons c front => exact absurd (List.mem_append_right front (List.mem_of_mem_head? head)) named.not_mem_tail

theorem IsName.append (named : IsName name) {blanks : List Char} (each : ∀ c ∈ blanks, isBlank c = true) :
    IsName (name ++ blanks) := by
  obtain ⟨gap, space, rfl, gapBlank, spaceBlank⟩ := named
  refine ⟨gap, space ++ blanks, by simp, gapBlank, fun c mem => ?_⟩
  exact (List.mem_append.mp mem).elim (spaceBlank c) (each c)

theorem dropWhile_of_forall {accepts : Char → Bool} (each : ∀ c ∈ front, accepts c = true)
    (ends : rest.head?.any accepts = false) : (front ++ rest).dropWhile accepts = rest := by
  rw [List.dropWhile_append_of_pos each]
  cases rest with
  | nil => rfl
  | cons c rest => exact List.dropWhile_cons_of_neg (Bool.eq_false_iff.mp ends)

/-- The name in full is found in one way only. -/
theorem IsName.unique (named : IsName name) (named' : IsName name') (same : name ++ rest = name' ++ rest')
    (ends : rest.head?.any isBlank = false) (ends' : rest'.head?.any isBlank = false) : name = name' ∧ rest = rest' := by
  have behind {name rest : List Char} (named : IsName name) (ends : rest.head?.any isBlank = false) :
      ((((name ++ rest).drop 9).dropWhile isBlank).drop 1).dropWhile isBlank = rest := by
    obtain ⟨gap, space, rfl, gapBlank, spaceBlank⟩ := named
    have word : ("typeCheck".toList ++ (gap ++ ':' :: space) ++ rest).drop 9 = gap ++ ':' :: (space ++ rest) := by simp
    rw [word, dropWhile_of_forall gapBlank (by rfl), List.drop_one, List.tail_cons, dropWhile_of_forall spaceBlank ends]
  have rests : rest = rest' := by rw [← behind named ends, same, behind named' ends']
  exact ⟨List.append_cancel_right (rests ▸ same), rests⟩

theorem not_isBlank_of_head (value : rest.head?.any isValueChar = true) : rest.head?.any isBlank = false := by
  cases rest with
  | nil => rfl
  | cons c rest =>
    refine Bool.eq_false_iff.mpr fun blank => ?_
    exact absurd (show isValueChar c = true from value) (Bool.eq_false_iff.mp (isValueChar_of_isBlank blank))

theorem head_of_beginsOff (off : BeginsOff rest) : rest.head?.any isValueChar = true := by
  obtain ⟨later, rfl, -⟩ := off
  rfl

/-- Whether `false` comes first is settled in front of an element that is not in the word. -/
theorem beginsOff_append_cons (outside : x ∉ "false".toList) (rest' : List Char) :
    BeginsOff (rest ++ x :: rest') ↔
      ∃ later, rest = "false".toList ++ later ∧ ∀ c ∈ (later ++ [x]).head?, isWord c = false := by
  have head (later : List Char) : (later ++ x :: rest').head? = (later ++ [x]).head? := by cases later <;> rfl
  constructor
  · rintro ⟨later, split, ends⟩
    rcases List.append_eq_append_iff.mp split with ⟨more, whole, tail⟩ | ⟨more, rfl, tail⟩
    · cases more with
      | nil =>
        rw [List.append_nil] at whole
        refine ⟨[], by rw [whole, List.append_nil], ?_⟩
        rwa [← show x :: rest' = later from tail] at ends
      | cons c more =>
        obtain ⟨rfl, -⟩ := List.cons.inj tail
        exact absurd (whole ▸ List.mem_append_right _ List.mem_cons_self) outside
    · refine ⟨more, rfl, ?_⟩
      rwa [tail, head] at ends
  · rintro ⟨later, rfl, ends⟩
    refine ⟨later ++ x :: rest', List.append_assoc .., ?_⟩
    rwa [head]

theorem beginsOther_append_cons_iff (outside : x ∉ "false".toList) (more more' : List Char) :
    BeginsOther (rest ++ x :: more) ↔ BeginsOther (rest ++ x :: more') := by
  have head : (rest ++ x :: more).head? = (rest ++ x :: more').head? := by cases rest <;> rfl
  rw [BeginsOther, BeginsOther, head, beginsOff_append_cons outside, beginsOff_append_cons outside]

/-- What stands behind an element that belongs to no value says nothing about the value in front of it. -/
theorem beginsOther_append_cons (outside : isValueChar x = false) (more : List Char) :
    BeginsOther (rest ++ x :: more) ↔ BeginsOther rest := by
  have apart : x ∉ "false".toList := fun mem =>
    absurd outside (Bool.not_eq_false _ ▸ List.all_eq_true.mp (by decide : "false".toList.all isValueChar = true) x mem)
  rw [BeginsOther, BeginsOther, beginsOff_append_cons apart]
  cases rest with
  | nil =>
    have empty : ¬ BeginsOff [] := fun off => absurd (head_of_beginsOff off) (by decide)
    simp [outside]
  | cons c rest =>
    have same : (∃ later, c :: rest = "false".toList ++ later ∧ ∀ d ∈ (later ++ [x]).head?, isWord d = false) ↔
        BeginsOff (c :: rest) := by
      refine exists_congr fun later => and_congr_right fun _ => ?_
      cases later with
      | nil => simp [isWord_eq_false_of_isValueChar outside]
      | cons d later => rfl
    rw [same]
    rfl

/-! ## Where the patterns match -/

theorem takes_checkName {taken : List Char} (takes : checkName.Takes taken) : IsName taken := by
  obtain ⟨word, later, rfl, isWord, gap, behind, rfl, gapBlank, colon, space, rfl, isColon, spaceBlank⟩ := takes
  rw [takes_literal isWord, takes_literal isColon]
  exact ⟨gap, space, rfl, gapBlank, spaceBlank⟩

/-- A pattern that begins at no blank is looked for behind the name in full. -/
theorem ends_seq_checkName {second : Pattern Char}
    (parted : ∀ before c rest, isBlank c = true → second.ends ⟨before, c :: rest⟩ = [])
    (named : IsName name) (closed : rest.head?.any isBlank = false) (before : Option Char) :
    ∃ last, (seq checkName second).ends ⟨before, name ++ rest⟩ = second.ends ⟨last, rest⟩ := by
  obtain ⟨gap, space, rfl, gapBlank, spaceBlank⟩ := named
  have apart : ∀ before c rest, isBlank c = true →
      (seq (chars ":") (seq (many isBlank) second)).ends ⟨before, c :: rest⟩ = [] := by
    intro before c rest blank
    refine List.eq_nil_iff_forall_not_mem.mpr fun next mem => ?_
    obtain ⟨between, first, -⟩ := List.mem_flatMap.mp mem
    obtain ⟨taken, split, -, takes⟩ := takes_of_mem_ends first
    rw [takes_literal takes] at split
    obtain ⟨rfl, -⟩ := List.cons.inj split
    exact absurd blank (by decide)
  obtain ⟨first, behindWord⟩ := ends_seq_many apart (some 'k') (gap ++ ':' :: (space ++ rest))
  obtain ⟨last, behindColon⟩ := ends_seq_many parted (some ':') (space ++ rest)
  refine ⟨last, ?_⟩
  calc (seq checkName second).ends ⟨before, "typeCheck".toList ++ (gap ++ ':' :: space) ++ rest⟩
    _ = (seq (chars "typeCheck") (seq (many isBlank) (seq (chars ":") (seq (many isBlank) second)))).ends
          ⟨before, "typeCheck".toList ++ (gap ++ ':' :: (space ++ rest))⟩ := by
        simp only [checkName, seqs, ends, List.flatMap_assoc, List.append_assoc, List.cons_append]
    _ = (seq (chars ":") (seq (many isBlank) second)).ends ⟨first, ":".toList ++ (space ++ rest)⟩ := by
        rw [chars, ends_seq_literal, show ("typeCheck".toList).getLast?.or before = some 'k' from rfl, behindWord,
          dropWhile_of_forall gapBlank (by rfl)]
        rfl
    _ = second.ends ⟨last, rest⟩ := by
        rw [chars, ends_seq_literal, show (":".toList).getLast?.or first = some ':' from rfl, behindColon,
          dropWhile_of_forall spaceBlank closed]

/-- The setting matches where its name and a value of the kind follow each other. -/
theorem ends_seq_checkName_ne_nil_iff {second : Pattern Char} {begins : List Char → Prop}
    (matched : ∀ before rest, second.ends ⟨before, rest⟩ ≠ [] ↔ begins rest)
    (value : ∀ rest, begins rest → rest.head?.any isValueChar = true) (before : Option Char) :
    (seq checkName second).ends ⟨before, text⟩ ≠ [] ↔ ∃ name rest, text = name ++ rest ∧ IsName name ∧ begins rest := by
  constructor
  · intro found
    obtain ⟨next, mem⟩ := List.exists_mem_of_ne_nil _ found
    obtain ⟨between, first, mem⟩ := List.mem_flatMap.mp mem
    obtain ⟨taken, split, -, takes⟩ := takes_of_mem_ends first
    exact ⟨taken, between.rest, split, takes_checkName takes, (matched _ _).mp (List.ne_nil_of_mem mem)⟩
  · rintro ⟨name, rest, rfl, named, begun⟩
    have parted : ∀ before c rest, isBlank c = true → second.ends ⟨before, c :: rest⟩ = [] := by
      intro before c rest blank
      refine Classical.not_not.mp fun found => ?_
      have other := not_isBlank_of_head (value _ ((matched _ _).mp found))
      exact absurd blank (Bool.eq_false_iff.mp other)
    obtain ⟨last, same⟩ := ends_seq_checkName parted named (not_isBlank_of_head (value rest begun)) before
    rw [same]
    exact (matched _ _).mpr begun

theorem occurs_seq_checkName_iff {second : Pattern Char} {begins : List Char → Prop}
    (matched : ∀ before rest, second.ends ⟨before, rest⟩ ≠ [] ↔ begins rest)
    (value : ∀ rest, begins rest → rest.head?.any isValueChar = true) :
    (seq checkName second).occurs text = true ↔ HasSetting begins text := by
  rw [occurs_eq_true_iff]
  constructor
  · rintro ⟨front, behind, rfl, found⟩
    obtain ⟨name, rest, rfl, named, begun⟩ := (ends_seq_checkName_ne_nil_iff matched value _).mp found
    exact ⟨front, name, rest, rfl, named, begun⟩
  · rintro ⟨front, name, rest, rfl, named, begun⟩
    exact ⟨front, _, rfl, (ends_seq_checkName_ne_nil_iff matched value _).mpr ⟨name, rest, rfl, named, begun⟩⟩

theorem ends_falseWord_ne_nil_iff (before : Option Char) (rest : List Char) :
    falseWord.ends ⟨before, rest⟩ ≠ [] ↔ BeginsOff rest := by
  have next (before : Option Char) (later : List Char) :
      (notBefore (one isWord)).ends ⟨before, later⟩ ≠ [] ↔ ∀ c ∈ later.head?, isWord c = false := by
    cases later with
    | nil => simp [ends]
    | cons c later => cases other : isWord c <;> simp [ends, other]
  constructor
  · intro found
    obtain ⟨spot, mem⟩ := List.exists_mem_of_ne_nil _ found
    obtain ⟨between, first, mem⟩ := List.mem_flatMap.mp mem
    obtain ⟨taken, split, -, takes⟩ := takes_of_mem_ends first
    rw [takes_literal takes] at split
    exact ⟨between.rest, split, (next _ _).mp (List.ne_nil_of_mem mem)⟩
  · rintro ⟨later, rfl, ends⟩
    rw [falseWord, chars, ends_seq_literal]
    exact (next _ _).mpr ends

/-- The value in full is what is matched first. -/
theorem head?_ends_otherValue (other : BeginsOther rest) (before : Option Char) :
    ∃ last, ((seq (notBefore falseWord) (some_ isValueChar)).ends ⟨before, rest⟩).head? =
      some ⟨last, rest.dropWhile isValueChar⟩ := by
  obtain ⟨value, different⟩ := other
  have passes : falseWord.ends ⟨before, rest⟩ = [] :=
    Classical.not_not.mp fun found => different ((ends_falseWord_ne_nil_iff before rest).mp found)
  cases rest with
  | nil => cases value
  | cons c rest =>
    have accepted : isValueChar c = true := value
    obtain ⟨last, longest⟩ := head?_ends_many isValueChar (some c) rest
    refine ⟨last, ?_⟩
    have first : (notBefore falseWord).ends ⟨before, c :: rest⟩ = [⟨before, c :: rest⟩] := by
      rw [Pattern.ends, passes]
      rfl
    have second : (some_ isValueChar).ends ⟨before, c :: rest⟩ = (many isValueChar).ends ⟨some c, rest⟩ := by
      simp [some_, Pattern.ends, accepted]
    rw [Pattern.ends, first, List.flatMap_singleton, second, longest, List.dropWhile_cons_of_pos accepted]

theorem ends_otherValue_ne_nil_iff (before : Option Char) (rest : List Char) :
    (seq (notBefore falseWord) (some_ isValueChar)).ends ⟨before, rest⟩ ≠ [] ↔ BeginsOther rest := by
  constructor
  · intro found
    obtain ⟨next, mem⟩ := List.exists_mem_of_ne_nil _ found
    obtain ⟨between, first, mem⟩ := List.mem_flatMap.mp mem
    rw [Pattern.ends] at first
    split at first
    · next empty =>
      obtain rfl := List.mem_singleton.mp first
      obtain ⟨taken, split, -, c, later, rfl, ⟨d, rfl, accepted⟩, -⟩ := takes_of_mem_ends mem
      refine ⟨by rw [show rest = [d] ++ later ++ next.rest from split]; exact accepted, fun off => ?_⟩
      exact (ends_falseWord_ne_nil_iff before rest).mpr off (List.isEmpty_iff.mp empty)
    · cases first
  · intro other
    obtain ⟨last, found⟩ := head?_ends_otherValue other before
    exact List.ne_nil_of_mem (List.mem_of_mem_head? found)

theorem occurs_checkPattern_iff : checkPattern.occurs text = true ↔ HasSetting BeginsOther text :=
  occurs_seq_checkName_iff ends_otherValue_ne_nil_iff fun _ other => other.1

theorem occurs_checkOff_iff : (seq checkName falseWord).occurs text = true ↔ HasSetting BeginsOff text :=
  occurs_seq_checkName_iff ends_falseWord_ne_nil_iff fun _ off => head_of_beginsOff off

/-- A setting is matched up to the end of its value. -/
theorem matchLength?_checkPattern (named : IsName name) (other : BeginsOther rest) (before : Option Char) :
    checkPattern.matchLength? before (name ++ rest) = some (name ++ rest.takeWhile isValueChar).length := by
  have parted : ∀ before c rest, isBlank c = true →
      (seq (notBefore falseWord) (some_ isValueChar)).ends ⟨before, c :: rest⟩ = [] := by
    intro before c rest blank
    refine Classical.not_not.mp fun found => ?_
    have other := not_isBlank_of_head ((ends_otherValue_ne_nil_iff before _).mp found).1
    exact absurd blank (Bool.eq_false_iff.mp other)
  obtain ⟨last, same⟩ := ends_seq_checkName parted named (not_isBlank_of_head other.1) before
  obtain ⟨first, longest⟩ := head?_ends_otherValue other last
  have lengths := congrArg List.length (List.takeWhile_append_dropWhile (p := isValueChar) (l := rest))
  rw [List.length_append] at lengths
  rw [matchLength?, show checkPattern = seq checkName (seq (notBefore falseWord) (some_ isValueChar)) from rfl, same, longest]
  simp only [Option.map_some, Option.some.injEq, List.length_append]
  omega

end Scaffold.Edit
