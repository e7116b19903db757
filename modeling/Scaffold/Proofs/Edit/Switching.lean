import Scaffold.Proofs.Edit.Settings

/-! # One pass that switches the type check off in a text

A pass replaces the value of the leftmost setting that is another than `false`, or puts the setting in where there is none.
A text may have more such settings, and it may end in the name of one, which then takes what is put in as its value. In all
other texts the goal is reached, and another pass changes nothing.
-/

namespace Scaffold.Edit

open Scaffold.Text Pattern

variable {text front name value rest name' rest' : List Char} {begins : List Char → Prop} {x : Char}

/-- A setting with another value than `false` is followed by one more. -/
def SetsTwice (text : List Char) : Prop :=
  ∃ front name value rest, text = front ++ (name ++ (value ++ rest)) ∧ IsName name ∧ BeginsOther (value ++ rest) ∧
    (∀ c ∈ value, isValueChar c = true) ∧ rest.head?.any isValueChar = false ∧ HasSetting BeginsOther rest

/-- A text without the setting, and without a place for it, ends in the name of the setting. -/
def Dangles (text : List Char) : Prop :=
  ¬ HasSetting BeginsOther text ∧ ¬ HasSetting BeginsOff text ∧ ¬ configOpening <:+: text ∧
    ∃ front name, text = front ++ name ∧ IsName name

/-! ## The leftmost setting -/

/-- The leftmost setting with another value than `false`, taken apart. -/
structure IsFirst (text front name value rest : List Char) : Prop where
  split : text = front ++ (name ++ (value ++ rest))
  named : IsName name
  other : BeginsOther (value ++ rest)
  word : ∀ c ∈ value, isValueChar c = true
  closed : rest.head?.any isValueChar = false
  leftmost : ∀ earlier name rest, text = earlier ++ (name ++ rest) → earlier.length < front.length → IsName name →
    ¬ BeginsOther rest

theorem withFalse_append (named : IsName name) (word : ∀ c ∈ value, isValueChar c = true) :
    withFalse (name ++ value) = name ++ "false".toList := by
  obtain ⟨gap, space, rfl, -, spaceBlank⟩ := named
  have ends : ("typeCheck".toList ++ (gap ++ ':' :: space)).reverse.head?.any isValueChar = false := by
    rcases List.eq_nil_or_concat space with rfl | ⟨space, c, rfl⟩
    · simpa using show isValueChar ':' = false by decide
    · have blank := isValueChar_of_isBlank (spaceBlank c (by simp))
      simpa using blank
  rw [withFalse, List.reverse_append, dropWhile_of_forall (fun c mem => word c (List.mem_reverse.mp mem)) ends,
    List.reverse_reverse]

theorem exists_first (has : HasSetting BeginsOther text) :
    ∃ front name value rest, IsFirst text front name value rest ∧
      typeCheckText text = front ++ (name ++ ("false".toList ++ rest)) := by
  have occurs := occurs_checkPattern_iff.mpr has
  have matched (before : Option Char) (text : List Char) :
      checkPattern.ends ⟨before, text⟩ ≠ [] ↔ ∃ name rest, text = name ++ rest ∧ IsName name ∧ BeginsOther rest :=
    ends_seq_checkName_ne_nil_iff ends_otherValue_ne_nil_iff (fun _ other => other.1) before
  have taking (before : Option Char) (text : List Char) : checkPattern.matchLength? before text ≠ some 0 := by
    intro found
    obtain ⟨name, rest, rfl, named, other⟩ := (matched before text).mp fun none => by
      rw [matchLength?_eq_none_iff.mpr none] at found
      cases found
    rw [matchLength?_checkPattern named other] at found
    obtain rfl : name = [] := (List.append_eq_nil_iff.mp (List.length_eq_zero_iff.mp (Option.some.inj found))).1
    exact absurd named.colon_mem List.not_mem_nil
  obtain ⟨front, taken, later, split, found, leftmost, replaced⟩ := replaceFrom_of_occursFrom withFalse taking occurs
  obtain ⟨name, rest, eq, named, other⟩ := (matched _ _).mp fun none => by
    rw [matchLength?_eq_none_iff.mpr none] at found
    cases found
  rw [eq, matchLength?_checkPattern named other, Option.some.injEq] at found
  obtain ⟨rfl, rfl⟩ : taken = name ++ rest.takeWhile isValueChar ∧ later = rest.dropWhile isValueChar := by
    refine List.append_inj ?_ found.symm
    rw [eq, List.append_assoc, List.takeWhile_append_dropWhile]
  have word : ∀ c ∈ rest.takeWhile isValueChar, isValueChar c = true := fun c mem => List.all_eq_true.mp List.all_takeWhile c mem
  refine ⟨front, name, rest.takeWhile isValueChar, rest.dropWhile isValueChar, ⟨?_, named, ?_, word, ?_, ?_⟩, ?_⟩
  · rw [split, List.append_assoc]
  · rwa [List.takeWhile_append_dropWhile]
  · have stops := List.head?_dropWhile_not isValueChar rest
    cases head : (rest.dropWhile isValueChar).head? with
    | none => rfl
    | some c =>
      rw [head] at stops
      exact stops
  · intro earlier name rest split short named other
    exact (matched _ _).mpr ⟨name, rest, rfl, named, other⟩ (leftmost _ _ split short)
  · rw [typeCheckText, if_pos occurs, replaceFirst, replaced, withFalse_append named word, List.append_assoc]

/-- A setting does not begin inside of a text without the first letter of its name. -/
theorem IsName.exists_behind (named : IsName name) {word between : List Char} (outside : 't' ∉ word)
    (split : word ++ text = between ++ (name ++ rest)) : ∃ later, between = word ++ later ∧ text = later ++ (name ++ rest) := by
  rcases List.append_eq_append_iff.mp split with ⟨later, rfl, same⟩ | ⟨later, rfl, same⟩
  · exact ⟨later, rfl, same⟩
  · cases later with
    | nil => exact ⟨[], by simp, same.symm⟩
    | cons c later =>
      have head := named.head? rest
      rw [same] at head
      obtain rfl := Option.some.inj head
      exact absurd (List.mem_append_right _ List.mem_cons_self) outside

/-- A setting that begins where another does, or behind the name of it. -/
theorem IsName.eq_or_behind (named : IsName name) (named' : IsName name') {between : List Char}
    (split : name ++ text = between ++ (name' ++ rest)) :
    (between = [] ∧ name ++ text = name' ++ rest) ∨ ∃ later, text = later ++ (name' ++ rest) := by
  cases between with
  | nil => exact .inl ⟨rfl, split⟩
  | cons c between =>
    obtain ⟨tail, rfl⟩ : ∃ tail, name = 't' :: tail := List.head?_eq_some_iff.mp (by simpa using named.head? [])
    obtain ⟨later, -, same⟩ := named'.exists_behind named.not_mem_tail (List.cons.inj split).2
    exact .inr ⟨later, same⟩

/-- A setting that begins in front of the leftmost one has no other value, whatever the leftmost one is set to. -/
theorem IsFirst.not_other_before (first : IsFirst text front name value rest) (more : List Char)
    {earlier name' rest' : List Char} (split : front ++ (name ++ more) = earlier ++ (name' ++ rest'))
    (short : earlier.length < front.length) (named' : IsName name') : ¬ BeginsOther rest' := by
  intro other
  obtain ⟨between, rfl⟩ : earlier <+: front := by
    exact List.prefix_of_prefix_length_le ⟨_, split.symm⟩ (List.prefix_append _ _) (Nat.le_of_lt short)
  rw [List.append_assoc, List.append_cancel_left_eq] at split
  obtain ⟨tail, rfl⟩ : ∃ tail, name = 't' :: tail := List.head?_eq_some_iff.mp (by simpa using first.named.head? [])
  rcases List.append_eq_append_iff.mp split with ⟨later, rfl, same⟩ | ⟨later, rfl, rfl⟩
  · cases later with
    | nil =>
      -- The name of the leftmost setting is itself another value.
      refine first.leftmost earlier between ('t' :: tail ++ (value ++ rest)) ?_ short (by simpa using named') ?_
      · rw [first.split, List.append_assoc]
      · rw [List.nil_append] at same
        rw [← same] at other
        exact (@beginsOther_append_cons_iff [] _ (by decide) _ _).mp other
    | cons c later =>
      obtain rfl := (List.cons.inj same).1
      obtain rfl := @IsName.eq_nil_of_append between _ named' rfl
      simp at short
  · refine first.leftmost earlier name' (later ++ ('t' :: tail ++ (value ++ rest))) ?_ short named' ?_
    · rw [first.split, List.append_assoc, List.append_assoc]
    · exact (beginsOther_append_cons_iff (by decide) _ _).mp other

/-- Once the leftmost setting is off, the others are those behind it. -/
theorem IsFirst.hasSetting_iff (first : IsFirst text front name value rest) :
    HasSetting BeginsOther (front ++ (name ++ ("false".toList ++ rest))) ↔ HasSetting BeginsOther rest := by
  constructor
  · rintro ⟨front', name', rest', split, named', other⟩
    have behind : front.length ≤ front'.length := Nat.le_of_not_lt fun short =>
      first.not_other_before _ split short named' other
    obtain ⟨between, rfl⟩ := List.prefix_of_prefix_length_le (List.prefix_append _ _) ⟨_, split.symm⟩ behind
    rw [List.append_assoc, List.append_cancel_left_eq] at split
    rcases first.named.eq_or_behind named' split with ⟨-, same⟩ | ⟨later, same⟩
    · obtain ⟨-, rfl⟩ := first.named.unique named' same (by rfl) (not_isBlank_of_head other.1)
      refine absurd ⟨rest, rfl, fun c head => ?_⟩ other.2
      have stops := first.closed
      rw [head] at stops
      exact isWord_eq_false_of_isValueChar stops
    · obtain ⟨behind, -, rfl⟩ := named'.exists_behind (by decide) same
      exact ⟨behind, name', rest', rfl, named', other⟩
  · rintro ⟨front', name', rest', rfl, named', other⟩
    exact ⟨front ++ (name ++ ("false".toList ++ front')), name', rest', by simp, named', other⟩

/-- Where a setting with another value is followed by one more, so is the leftmost one. -/
theorem IsFirst.setsTwice_iff (first : IsFirst text front name value rest) :
    SetsTwice text ↔ HasSetting BeginsOther rest := by
  constructor
  · rintro ⟨front', name', value', rest', split, named', other, word', closed', more⟩
    have behind : front.length ≤ front'.length := Nat.le_of_not_lt fun short =>
      first.leftmost _ _ _ split short named' other
    rw [first.split] at split
    obtain ⟨between, rfl⟩ := List.prefix_of_prefix_length_le (List.prefix_append _ _) ⟨_, split.symm⟩ behind
    rw [List.append_assoc, List.append_cancel_left_eq] at split
    rcases first.named.eq_or_behind named' split with ⟨-, same⟩ | ⟨later, same⟩
    · obtain ⟨-, values⟩ := first.named.unique named' same (not_isBlank_of_head first.other.1) (not_isBlank_of_head other.1)
      have rests := congrArg (List.dropWhile isValueChar) values
      rw [dropWhile_of_forall first.word first.closed, dropWhile_of_forall word' closed'] at rests
      rwa [rests]
    · obtain ⟨others, name'', rest'', rfl, named'', other''⟩ := more
      have whole : value ++ rest = later ++ (name' ++ value') ++ (others ++ (name'' ++ rest'')) := by simpa using same
      rcases List.append_eq_append_iff.mp whole with ⟨back, -, eq⟩ | ⟨back, eq, -⟩
      · exact ⟨back ++ others, name'', rest'', by rw [eq, List.append_assoc], named'', other''⟩
      · have colon : ':' ∈ value := by simp [eq, named'.colon_mem]
        exact absurd (first.word ':' colon) (by decide)
  · intro more
    exact ⟨front, name, value, rest, first.split, first.named, first.other, first.word, first.closed, more⟩

/-! ## What is put in -/

/-- A character that belongs to no setting. -/
def IsApart (x : Char) : Prop := isValueChar x = false ∧ isBlank x = false ∧ x ≠ ':'

instance (x : Char) : Decidable (IsApart x) := inferInstanceAs (Decidable (_ ∧ _))

theorem IsName.not_mem (named : IsName name) (apart : IsApart x) : x ∉ name := by
  obtain ⟨gap, space, rfl, gapBlank, spaceBlank⟩ := named
  obtain ⟨value, solid, colon⟩ := apart
  have unlike {blanks : List Char} (each : ∀ c ∈ blanks, isBlank c = true) : x ∉ blanks := fun mem =>
    absurd (each x mem) (Bool.eq_false_iff.mp solid)
  have word : x ∉ "typeCheck".toList := fun mem =>
    absurd (List.all_eq_true.mp (by decide : "typeCheck".toList.all isValueChar = true) x mem) (Bool.eq_false_iff.mp value)
  simp only [List.mem_append, List.mem_cons, not_or]
  exact ⟨word, unlike gapBlank, colon, unlike spaceBlank⟩

/-- Such a character parts a text. -/
theorem hasSetting_append_cons (apart : IsApart x) :
    HasSetting BeginsOther (front ++ x :: rest) ↔ HasSetting BeginsOther front ∨ HasSetting BeginsOther rest := by
  constructor
  · rintro ⟨front', name', rest', split, named', other⟩
    rcases List.append_eq_append_iff.mp split with ⟨back, rfl, same⟩ | ⟨back, rfl, same⟩
    · cases back with
      | nil =>
        have head := named'.head? rest'
        rw [← List.nil_append (name' ++ rest'), ← same] at head
        obtain rfl := Option.some.inj head
        exact absurd apart.1 (by decide)
      | cons c back =>
        obtain ⟨rfl, rfl⟩ := List.cons.inj same
        exact .inr ⟨back, name', rest', rfl, named', other⟩
    · rcases List.append_eq_append_iff.mp same with ⟨later, rfl, rfl⟩ | ⟨later, rfl, eq⟩
      · exact .inl ⟨front', name', later, rfl, named', (beginsOther_append_cons apart.1 rest).mp other⟩
      · cases later with
        | nil =>
          rw [List.nil_append] at eq
          rw [← eq] at other
          exact absurd (show isValueChar x = true from other.1) (Bool.eq_false_iff.mp apart.1)
        | cons c later =>
          obtain rfl := (List.cons.inj eq).1
          exact absurd (List.mem_append_right _ List.mem_cons_self) (named'.not_mem apart)
  · rintro (⟨front', name', rest', rfl, named', other⟩ | ⟨front', name', rest', rfl, named', other⟩)
    · exact ⟨front', name', rest' ++ x :: rest, by simp, named', (beginsOther_append_cons apart.1 rest).mpr other⟩
    · exact ⟨front ++ x :: front', name', rest', by simp, named', other⟩

theorem not_hasSetting (absent : checkPattern.occurs text = false) : ¬ HasSetting BeginsOther text := fun has =>
  absurd (occurs_checkPattern_iff.mpr has) (Bool.eq_false_iff.mp absent)

/-- The setting on a line of its own. -/
def entryText : List Char := "\n  ".toList ++ checkEntry.toList

theorem hasSetting_entry (rest : List Char) : HasSetting BeginsOther (entryText ++ rest) ↔ HasSetting BeginsOther rest := by
  have parts : entryText ++ rest =
      "\n  typescript: ".toList ++ '\x7b' :: (" typeCheck: false \x7d".toList ++ ',' :: rest) := by
    rw [entryText, checkEntry]
    simp
  rw [parts, hasSetting_append_cons (by decide), hasSetting_append_cons (by decide)]
  have before : ¬ HasSetting BeginsOther "\n  typescript: ".toList := not_hasSetting (by decide +kernel)
  have inside : ¬ HasSetting BeginsOther " typeCheck: false \x7d".toList := not_hasSetting (by decide +kernel)
  rw [or_iff_right before, or_iff_right inside]

theorem hasOff_entry (rest : List Char) : HasSetting BeginsOff (front ++ (entryText ++ rest)) := by
  refine ⟨front ++ "\n  typescript: \x7b ".toList, "typeCheck: ".toList, "false \x7d,".toList ++ rest, ?_, ?_, ?_⟩
  · simp [entryText, checkEntry]
  · exact ⟨[], [' '], rfl, nofun, List.all_eq_true.mp rfl⟩
  · exact ⟨" \x7d,".toList ++ rest, rfl, by rintro c ⟨⟩; decide⟩

theorem insertAfter_eq_none_iff {mark : List Char} (solid : mark ≠ []) (entry : List Char) :
    insertAfter mark entry text = none ↔ ¬ mark <:+: text := by
  induction text with
  | nil => simpa [insertAfter] using solid
  | cons c text later =>
    rw [insertAfter, List.infix_cons_iff, ← List.isPrefixOf_iff_prefix]
    split
    · next here => simp [here]
    · next absent => rw [Option.map_eq_none_iff, later]; simp [absent]

theorem exists_of_insertAfter {mark entry changed : List Char} (found : insertAfter mark entry text = some changed) :
    ∃ front rest, text = front ++ (mark ++ rest) ∧ changed = front ++ (mark ++ (entry ++ rest)) := by
  induction text generalizing changed with
  | nil => cases found
  | cons c text later =>
    rw [insertAfter] at found
    split at found
    · next here =>
      obtain ⟨rest, split⟩ := List.isPrefixOf_iff_prefix.mp here
      cases found
      exact ⟨[], rest, split.symm, by rw [← split, List.drop_left, List.append_assoc]; rfl⟩
    · obtain ⟨behind, inner, rfl⟩ := Option.map_eq_some_iff.mp found
      obtain ⟨front, rest, rfl, rfl⟩ := later inner
      exact ⟨c :: front, rest, rfl, rfl⟩

theorem configOpening_eq : configOpening = "export default defineNuxtConfig".toList ++ ['(', '\x7b'] := by decide

/-- The opening parts a text. -/
theorem hasSetting_opening (front rest : List Char) :
    HasSetting BeginsOther (front ++ (configOpening ++ rest)) ↔
      HasSetting BeginsOther (front ++ "export default defineNuxtConfig".toList) ∨ HasSetting BeginsOther rest := by
  have parts : front ++ (configOpening ++ rest) =
      front ++ "export default defineNuxtConfig".toList ++ '(' :: ([] ++ '\x7b' :: rest) := by
    simp only [configOpening_eq, List.append_assoc, List.cons_append, List.nil_append]
  have empty : ¬ HasSetting BeginsOther [] := not_hasSetting (by decide +kernel)
  rw [parts, hasSetting_append_cons (by decide), hasSetting_append_cons (by decide), or_iff_right empty]

theorem IsName.of_append (named : IsName (name ++ rest)) (outside : ':' ∉ rest) : IsName name := by
  obtain ⟨gap, space, split, gapBlank, spaceBlank⟩ := named
  have whole : name ++ rest = "typeCheck".toList ++ (gap ++ [':']) ++ space := by simp [split]
  rcases List.append_eq_append_iff.mp whole with ⟨back, eq, rfl⟩ | ⟨back, rfl, rfl⟩
  · rcases List.eq_nil_or_concat back with rfl | ⟨back, c, rfl⟩
    · rw [List.append_nil] at eq
      exact ⟨gap, [], eq.symm, gapBlank, nofun⟩
    · simp only [List.concat_eq_append, ← List.append_assoc] at eq
      obtain rfl := List.singleton_inj.mp (List.append_inj_right' eq rfl)
      simp at outside
  · exact ⟨gap, back, by simp, gapBlank, fun c mem => spaceBlank c (List.mem_append_left _ mem)⟩

/-- The block that is put behind a text. -/
def newBlock : List Char := configOpening ++ (entryText ++ "\n\x7d)\n".toList)

/-- A block behind a text becomes the value of a setting whose name the text ends in. -/
theorem hasSetting_block {c : Char} {gap : List Char} (blank : ∀ d ∈ c :: gap, isBlank d = true)
    (absent : ¬ HasSetting BeginsOther text) :
    HasSetting BeginsOther (text ++ (c :: gap ++ newBlock)) ↔ ∃ front name, text = front ++ name ∧ IsName name := by
  have closing : ¬ HasSetting BeginsOther "\n\x7d)\n".toList := not_hasSetting (by decide +kernel)
  rw [newBlock, ← List.append_assoc, hasSetting_opening, hasSetting_entry, or_iff_left closing, List.append_assoc]
  constructor
  · rintro ⟨front', name', rest', split, named', other⟩
    have outside : ':' ∉ c :: gap ++ "export default defineNuxtConfig".toList := by
      rw [List.mem_append, not_or]
      exact ⟨fun mem => absurd (blank _ mem) (by decide), by decide⟩
    rcases List.append_eq_append_iff.mp split with ⟨back, -, same⟩ | ⟨back, rfl, same⟩
    · exact absurd (same ▸ List.mem_append_right _ (List.mem_append_left _ named'.colon_mem)) outside
    · rcases List.append_eq_append_iff.mp same with ⟨later, rfl, rfl⟩ | ⟨later, rfl, eq⟩
      · have inner := (beginsOther_append_cons (isValueChar_of_isBlank (blank c List.mem_cons_self)) _).mp other
        exact absurd ⟨front', name', later, rfl, named', inner⟩ absent
      · refine ⟨front', back, rfl, named'.of_append fun mem => outside ?_⟩
        rw [eq]
        exact List.mem_append_left _ mem
  · rintro ⟨front, name, rfl, named⟩
    refine ⟨front, name ++ c :: gap, "export default defineNuxtConfig".toList, by simp, named.append blank, ?_⟩
    refine ⟨rfl, fun off => ?_⟩
    obtain ⟨later, same, -⟩ := off
    have head : some 'e' = some 'f' := congrArg List.head? same
    exact absurd head (by decide)

/-! ## The pass -/

/-- What a pass does with a text without another value. -/
theorem typeCheckText_of_not_other (absent : ¬ HasSetting BeginsOther text) :
    (HasSetting BeginsOff text ∧ typeCheckText text = text) ∨
      (¬ HasSetting BeginsOff text ∧ ∃ front rest, text = front ++ (configOpening ++ rest) ∧
        typeCheckText text = front ++ (configOpening ++ (entryText ++ rest))) ∨
      (¬ HasSetting BeginsOff text ∧ ¬ configOpening <:+: text ∧
        ∃ c gap, (∀ d ∈ c :: gap, isBlank d = true) ∧ typeCheckText text = text ++ (c :: gap ++ newBlock)) := by
  have other : checkPattern.occurs text ≠ true := fun occurs => absent (occurs_checkPattern_iff.mp occurs)
  rw [typeCheckText, if_neg other]
  split
  · next off => exact .inl ⟨occurs_checkOff_iff.mp off, rfl⟩
  · next off =>
    rw [occurs_checkOff_iff] at off
    refine .inr ?_
    split
    · next changed found =>
      obtain ⟨front, rest, split, rfl⟩ := exists_of_insertAfter found
      exact .inl ⟨off, front, rest, split, rfl⟩
    · next none =>
      have missing := (insertAfter_eq_none_iff (by decide) _).mp none
      refine .inr ⟨off, missing, ?_⟩
      by_cases ends : text.isEmpty || text.getLast? = some '\n'
      · refine ⟨'\n', [], List.all_eq_true.mp rfl, ?_⟩
        rw [if_pos ends]
        simp only [newBlock, entryText, List.append_assoc, List.cons_append, List.nil_append]
      · refine ⟨'\n', ['\n'], List.all_eq_true.mp rfl, ?_⟩
        rw [if_neg ends]
        simp only [newBlock, entryText, List.append_assoc, List.cons_append, List.nil_append]

/-- After a pass the setting is off somewhere. -/
theorem hasOff_typeCheckText (text : List Char) : HasSetting BeginsOff (typeCheckText text) := by
  by_cases has : HasSetting BeginsOther text
  · obtain ⟨front, name, value, rest, first, changed⟩ := exists_first has
    refine ⟨front, name, _, changed, first.named, rest, rfl, fun c head => ?_⟩
    have stops := first.closed
    rw [head] at stops
    exact isWord_eq_false_of_isValueChar stops
  · rcases typeCheckText_of_not_other has with
      ⟨off, same⟩ | ⟨-, front, rest, -, changed⟩ | ⟨-, -, c, gap, -, changed⟩
    · rwa [same]
    · rw [changed, ← List.append_assoc]
      exact hasOff_entry _
    · rw [changed, newBlock, ← List.append_assoc, ← List.append_assoc]
      exact hasOff_entry _

/-- Where the setting is off, a pass changes nothing unless the setting has another value too. -/
theorem typeCheckText_eq_self_iff (off : HasSetting BeginsOff text) :
    typeCheckText text = text ↔ ¬ HasSetting BeginsOther text := by
  constructor
  · intro same has
    obtain ⟨front, name, value, rest, first, changed⟩ := exists_first has
    rw [changed, first.split, List.append_cancel_left_eq, List.append_cancel_left_eq] at same
    refine first.other.2 ⟨rest, same.symm, fun c head => ?_⟩
    have stops := first.closed
    rw [head] at stops
    exact isWord_eq_false_of_isValueChar stops
  · intro absent
    rcases typeCheckText_of_not_other absent with ⟨-, same⟩ | ⟨missing, -⟩ | ⟨missing, -⟩
    · exact same
    · exact absurd off missing
    · exact absurd off missing

theorem SetsTwice.hasSetting (twice : SetsTwice text) : HasSetting BeginsOther text := by
  obtain ⟨front, name, value, rest, split, named, other, -⟩ := twice
  exact ⟨front, name, value ++ rest, split, named, other⟩

/-- Another value is left exactly where one followed another, or where what was put in became the value of a name at the
end. -/
theorem hasOther_typeCheckText_iff (text : List Char) :
    HasSetting BeginsOther (typeCheckText text) ↔ SetsTwice text ∨ Dangles text := by
  by_cases has : HasSetting BeginsOther text
  · obtain ⟨front, name, value, rest, first, changed⟩ := exists_first has
    have fixed : ¬ Dangles text := fun dangles => dangles.1 has
    rw [changed, first.hasSetting_iff, first.setsTwice_iff, or_iff_left fixed]
  · have once : ¬ SetsTwice text := fun twice => has twice.hasSetting
    rw [or_iff_right once]
    rcases typeCheckText_of_not_other has with
      ⟨off, same⟩ | ⟨-, front, rest, split, changed⟩ | ⟨missing, closed, c, gap, blank, changed⟩
    · rw [same]
      exact iff_of_false has fun dangles => dangles.2.1 off
    · rw [changed, hasSetting_opening, hasSetting_entry, ← hasSetting_opening, ← split]
      exact iff_of_false has fun dangles => dangles.2.2.1 ⟨front, rest, by rw [split, List.append_assoc]⟩
    · rw [changed, hasSetting_block blank has]
      exact ⟨fun named => ⟨has, missing, closed, named⟩, fun dangles => dangles.2.2.2⟩

/-- After a pass the setting is off somewhere in the text, and another pass changes nothing unless it has another value
elsewhere. That is so exactly when the setting had another value twice, or the text has neither the setting nor a place for
it and ends in its name. -/
theorem check_is_switched_off (text : List Char) :
    HasSetting BeginsOff (typeCheckText text) ∧
      (typeCheckText (typeCheckText text) = typeCheckText text ↔ ¬ HasSetting BeginsOther (typeCheckText text)) ∧
      (HasSetting BeginsOther (typeCheckText text) ↔ SetsTwice text ∨ Dangles text) :=
  ⟨hasOff_typeCheckText text, typeCheckText_eq_self_iff (hasOff_typeCheckText text), hasOther_typeCheckText_iff text⟩

/-- A comment that ends in the name of the setting takes the first word of the block that is put in as its value, and the next
pass replaces this word. -/
theorem second_pass_takes_export :
    typeCheckText (typeCheckText "// typeCheck:\n".toList) ≠ typeCheckText "// typeCheck:\n".toList ∧
      typeCheckText (typeCheckText "// typeCheck:\n".toList) =
        "// typeCheck:\n\nfalse default defineNuxtConfig(\x7b\n  typescript: \x7b typeCheck: false \x7d,\n\x7d)\n".toList := by
  decide +kernel

/-- Of two settings with another value only the first is replaced. -/
example : typeCheckText "typeCheck: a, typeCheck: 'b'".toList = "typeCheck: false, typeCheck: 'b'".toList := by
  decide +kernel

end Scaffold.Edit
