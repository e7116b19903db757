import Scaffold.Proofs.Json.Keys
import Scaffold.Proofs.Json.Numeral
import Scaffold.Proofs.Json.Quoted

/-! # Documents that are written and read again

A document whose objects hold no key twice is read back from its text as it was, with the keys in their order.
Of a number with a point or an exponent it is only said that it is read as one again, so two values are compared
by what is left when all these numbers are made the same.
-/

namespace Scaffold.Json

open Scaffold.Text Scaffold.Number

namespace Value

mutual

/-- The value with all numbers that have a point or an exponent made the same. -/
def coarse : Value → Value
  | .float _ => .float .notANumber
  | .array items => .array (coarseItems items)
  | .object members => .object (coarseMembers members)
  | other => other

def coarseItems : List Value → List Value
  | [] => []
  | item :: later => coarse item :: coarseItems later

def coarseMembers : List (String × Value) → List (String × Value)
  | [] => []
  | (key, value) :: later => (key, coarse value) :: coarseMembers later

end

mutual

/-- Whether all numbers of a value are integers. -/
def isIntegral : Value → Bool
  | .float _ => false
  | .array items => areIntegral items
  | .object members => membersIntegral members
  | _ => true

def areIntegral : List Value → Bool
  | [] => true
  | item :: later => isIntegral item && areIntegral later

def membersIntegral : List (String × Value) → Bool
  | [] => true
  | (_, value) :: later => isIntegral value && membersIntegral later

end

@[simp]
theorem membersIntegral_iff {members : Members} :
    membersIntegral members = true ↔ ∀ member ∈ members, member.2.isIntegral = true := by
  induction members with
  | nil => simp [membersIntegral]
  | cons member later iff => simp [membersIntegral, iff]

theorem coarseMembers_eq_map (members : Members) :
    coarseMembers members = members.map fun member => (member.1, member.2.coarse) := by
  induction members with
  | nil => rfl
  | cons member later eq => rw [coarseMembers, eq, List.map_cons]

mutual

/-- Where all numbers are integers nothing is made the same. -/
theorem eq_of_coarse : ∀ {other value : Value}, value.isIntegral = true → other.coarse = value.coarse → other = value
  | other, .null, _, same => by cases other <;> first | rfl | cases same
  | other, .boolean flag, _, same => by cases other <;> first | exact same | cases same
  | other, .integer number, _, same => by cases other <;> first | exact same | cases same
  | other, .text _, _, same => by cases other <;> first | exact same | cases same
  | _, .float _, integral, _ => by cases integral
  | other, .array items, integral, same => by
    cases other with
    | array others => rw [eq_of_coarseItems integral (Value.array.inj same)]
    | _ => cases same
  | other, .object members, integral, same => by
    cases other with
    | object others => rw [eq_of_coarseMembers integral (Value.object.inj same)]
    | _ => cases same

theorem eq_of_coarseItems : ∀ {others items : List Value}, areIntegral items = true →
    coarseItems others = coarseItems items → others = items
  | [], [], _, _ => rfl
  | [], _ :: _, _, same => by cases same
  | _ :: _, [], _, same => by cases same
  | other :: others, item :: items, integral, same => by
    obtain ⟨own, later⟩ := (Bool.and_eq_true _ _).mp integral
    obtain ⟨first, rest⟩ := List.cons.inj same
    rw [eq_of_coarse own first, eq_of_coarseItems later rest]

theorem eq_of_coarseMembers : ∀ {others members : List (String × Value)}, membersIntegral members = true →
    coarseMembers others = coarseMembers members → others = members
  | [], [], _, _ => rfl
  | [], _ :: _, _, same => by cases same
  | _ :: _, [], _, same => by cases same
  | (other, otherValue) :: others, (key, value) :: members, integral, same => by
    obtain ⟨own, later⟩ := (Bool.and_eq_true _ _).mp integral
    obtain ⟨first, rest⟩ := List.cons.inj same
    obtain ⟨rfl, own_⟩ := Prod.mk.inj first
    rw [eq_of_coarse own own_, eq_of_coarseMembers later rest]

end

end Value

/-! ## White space -/

theorem skipWhite_append (position : Nat) (white : List Char) {rest : List Char} (all : ∀ c ∈ white, isWhite c = true)
    (dark : ∀ c, rest.head? = some c → isWhite c = false) :
    (Place.mk position (white ++ rest)).skipWhite = ⟨position + white.length, rest⟩ := by
  rw [Place.skipWhite, takeWhile_append_of_stop all dark, Place.advance, List.drop_left]

theorem skipWhite_of_dark {position : Nat} {c : Char} {rest : List Char} (dark : isWhite c = false) :
    (Place.mk position (c :: rest)).skipWhite = ⟨position, c :: rest⟩ :=
  skipWhite_append position [] (by simp) (by simpa using dark)

theorem skipWhite_lineBreak {position level : Nat} {c : Char} {rest : List Char} (dark : isWhite c = false) :
    (Place.mk position (lineBreak level ++ c :: rest)).skipWhite =
      ⟨position + (lineBreak level).length, c :: rest⟩ := by
  refine skipWhite_append _ _ ?_ (by simpa using dark)
  intro c mem
  rcases List.mem_cons.mp mem with rfl | mem
  · rfl
  · rw [List.eq_of_mem_replicate mem]
    rfl

theorem ended_lineBreak (level : Nat) (rest : List Char) : Ended (lineBreak level ++ rest) := .inr rfl

theorem ended_comma (rest : List Char) : Ended (',' :: rest) := .inl rfl

/-! ## Values -/

theorem isWhite_eq_false_of_isDigit {c : Char} (digit : c.isDigit = true) :
    isWhite c = false ∧ c ≠ ']' ∧ c ≠ '\uFEFF' := by
  have other (d : Char) (letter : d.isDigit = false) : c ≠ d := by
    rintro rfl
    rw [letter] at digit
    cases digit
  have space := other ' ' (by decide)
  have tab := other '\t' (by decide)
  have feed := other '\n' (by decide)
  have return_ := other '\r' (by decide)
  exact ⟨by simp [isWhite, space, tab, feed, return_], other ']' (by decide), other '\uFEFF' (by decide)⟩

/-- A value begins with a character that is no white space, not the bracket that ends an array, and no byte
order mark. -/
theorem exists_head_render (level : Nat) (value : Value) :
    ∃ c rest, render level value = c :: rest ∧ isWhite c = false ∧ c ≠ ']' ∧ c ≠ '\uFEFF' := by
  have numeral {numeral : Numeral} (sound : numeral.Sound) :
      ∃ c rest, numeral.text = c :: rest ∧ isWhite c = false ∧ c ≠ ']' ∧ c ≠ '\uFEFF' := by
    rcases exists_head_text sound with ⟨digit, others, eq, isDigit⟩ | ⟨digit, others, eq, -⟩
    · exact ⟨digit, others, eq, isWhite_eq_false_of_isDigit isDigit⟩
    · exact ⟨'-', _, eq, by decide⟩
  cases value with
  | null => exact ⟨_, _, rfl, by decide⟩
  | boolean value => cases value <;> exact ⟨_, _, rfl, by decide⟩
  | integer value =>
    rw [render, ← text_integerNumeral]
    exact numeral (sound_integerNumeral value)
  | float value =>
    cases value with
    | notANumber => exact ⟨_, _, rfl, by decide⟩
    | infinite negative => cases negative <;> exact ⟨_, _, rfl, by decide⟩
    | finite negative significand exponent =>
      obtain ⟨written, sound, -, text⟩ := exists_numeral_floatText negative significand exponent
      rw [render, ← text]
      exact numeral sound
  | text value => exact ⟨'"', _, rfl, by decide⟩
  | array items => cases items <;> exact ⟨_, _, rfl, by decide⟩
  | object members => cases members <;> exact ⟨_, _, rfl, by decide⟩

/-- What does not begin like a text, an object or an array is a plain value. -/
theorem readValue_of_plain (fuel position : Nat) {c : Char} {rest : List Char} (quote : c ≠ '"') (brace : c ≠ '\x7b')
    (bracket : c ≠ '[') : readValue (fuel + 1) ⟨position, c :: rest⟩ = readPlain ⟨position, c :: rest⟩ := by
  rw [readValue]
  split
  · next eq => exact absurd (List.cons.inj eq).1 quote
  · next eq => exact absurd (List.cons.inj eq).1 brace
  · next eq => exact absurd (List.cons.inj eq).1 bracket
  · next eq => cases eq
  · rfl

theorem readValue_text {numeral : Numeral} (sound : numeral.Sound) (fuel position : Nat) (rest : List Char) :
    readValue (fuel + 1) ⟨position, numeral.text ++ rest⟩ = readNumber ⟨position, numeral.text ++ rest⟩ := by
  rw [← readPlain_text sound]
  have other {digit c : Char} (isDigit : digit.isDigit = true) (letter : c.isDigit = false) : digit ≠ c := by
    rintro rfl
    rw [letter] at isDigit
    cases isDigit
  rcases exists_head_text sound with ⟨digit, others, eq, isDigit⟩ | ⟨digit, others, eq, -⟩
  · rw [eq]
    exact readValue_of_plain _ _ (other isDigit (by decide)) (other isDigit (by decide)) (other isDigit (by decide))
  · rw [eq]
    exact readValue_of_plain _ _ (by decide) (by decide) (by decide)

/-- What is read from a place is a value that is coarsely the given one, and the reader stops before `rest`. -/
def ReadsAs (read : Read Value) (value : Value) (rest : List Char) : Prop :=
  ∃ other position, read = .ok (other, ⟨position, rest⟩) ∧ other.coarse = value.coarse

theorem readsAs_integer (fuel position : Nat) (value : Int) {rest : List Char} (ended : Ended rest) :
    ReadsAs (readValue (fuel + 1) ⟨position, (toString value).toList ++ rest⟩) (.integer value) rest := by
  have sound := sound_integerNumeral value
  obtain ⟨read, position', found, whole, -⟩ := readNumber_text sound ended position
  rw [decimalValue_integerNumeral] at whole
  rw [← text_integerNumeral, readValue_text sound, found, whole rfl]
  exact ⟨_, _, rfl, rfl⟩

theorem readsAs_float (fuel position : Nat) (value : Binary64) {rest : List Char} (ended : Ended rest) :
    ReadsAs (readValue (fuel + 1) ⟨position, (floatText value).toList ++ rest⟩) (.float value) rest := by
  cases value with
  | notANumber => exact ⟨.float .notANumber, position + 3, rfl, rfl⟩
  | infinite negative =>
    cases negative with
    | false => exact ⟨.float (.infinite false), position + 8, rfl, rfl⟩
    | true => exact ⟨.float (.infinite true), position + 9, rfl, rfl⟩
  | finite negative significand exponent =>
    obtain ⟨numeral, sound, notWhole, text⟩ := exists_numeral_floatText negative significand exponent
    obtain ⟨read, position', found, -, float⟩ := readNumber_text sound ended position
    obtain ⟨number, rfl⟩ := float notWhole
    rw [← text, readValue_text sound, found]
    exact ⟨_, _, rfl, rfl⟩

theorem readsAs_text (fuel position : Nat) (text : String) (rest : List Char) :
    ReadsAs (readValue (fuel + 1) ⟨position, quote .unicode text.toList ++ rest⟩) (.text text) rest := by
  obtain ⟨position', read⟩ := readText_quote .unicode position (position + 1) text.toList rest
  refine ⟨.text text, position', ?_, rfl⟩
  simp only [quote, List.cons_append, List.append_assoc, List.nil_append, readValue, read, String.ofList_toList]

theorem set_of_notMem {members : Members} {key : String} (value : Value) (fresh : key ∉ members.keys) :
    members.set key value = members ++ [(key, value)] := if_neg fresh

/-- With this fuel, the text of a value is read as the value. -/
private def ReadsValues (fuel : Nat) : Prop :=
  ∀ value level position rest, value.Distinct → 2 * (render level value).length ≤ fuel → Ended rest →
    ReadsAs (readValue fuel ⟨position, render level value ++ rest⟩) value rest

/-- With this fuel, the items of an array are read up to its closing bracket. -/
private def ReadsItems (fuel : Nat) : Prop :=
  ∀ first later level outer position rest, first.Distinct ∧ Value.AreDistinct later →
    2 * (render level first ++ renderItems level later).length + 1 ≤ fuel →
    ∃ items position', readItems fuel ⟨position, render level first ++
        (renderItems level later ++ (lineBreak outer ++ ']' :: rest))⟩ = .ok (items, ⟨position', rest⟩) ∧
      Value.coarseItems items = Value.coarseItems (first :: later)

/-- With this fuel, the members of an object are read up to its closing brace, behind those that were read
before. -/
private def ReadsMembers (fuel : Nat) : Prop :=
  ∀ key value (later : Members) level outer position rest (before : Members),
    (before.keys ++ key :: later.map (·.1)).Nodup → value.Distinct ∧ Value.MembersDistinct later →
    2 * (quote .unicode key.toList ++ ':' :: ' ' :: render level value ++ renderMembers level later).length + 1 ≤ fuel →
    ∃ members position', readMembers fuel before ⟨position, quote .unicode key.toList ++ ':' :: ' ' ::
        (render level value ++ (renderMembers level later ++ (lineBreak outer ++ '\x7d' :: rest)))⟩ =
        .ok (before ++ members, ⟨position', rest⟩) ∧
      Value.coarseMembers members = Value.coarseMembers ((key, value) :: later)

private theorem readsValues_succ {fuel : Nat} (readsItems : ReadsItems fuel) (readsMembers : ReadsMembers fuel) :
    ReadsValues (fuel + 1) := by
  intro value level position rest distinct enough ended
  cases value with
  | null => exact ⟨.null, position + 4, rfl, rfl⟩
  | boolean value =>
    cases value with
    | true => exact ⟨.boolean true, position + 4, rfl, rfl⟩
    | false => exact ⟨.boolean false, position + 5, rfl, rfl⟩
  | integer value => exact readsAs_integer fuel position value ended
  | float value => exact readsAs_float fuel position value ended
  | text text => exact readsAs_text fuel position text rest
  | array items =>
    cases items with
    | nil => exact ⟨.array [], position + 2, rfl, rfl⟩
    | cons first later =>
      obtain ⟨c, tail, head, dark, notBracket, -⟩ := exists_head_render (level + 1) first
      simp only [render, List.length_append, List.length_cons] at enough
      obtain ⟨items, position', read, coarse⟩ := readsItems first later (level + 1) level
        (position + 1 + (lineBreak (level + 1)).length) rest distinct (by simp only [List.length_append]; omega)
      refine ⟨.array items, position', ?_, congrArg Value.array coarse⟩
      simp only [render, List.cons_append, List.append_assoc, List.nil_append, head, readValue,
        skipWhite_lineBreak dark, List.head?_cons, Option.some.injEq, if_neg notBracket] at read ⊢
      rw [read]
  | object members =>
    cases members with
    | nil => exact ⟨.object [], position + 2, rfl, rfl⟩
    | cons first later =>
      obtain ⟨key, value⟩ := first
      simp only [render, List.length_append, List.length_cons] at enough
      obtain ⟨members, position', read, coarse⟩ := readsMembers key value later (level + 1) level
        (position + 1 + (lineBreak (level + 1)).length) rest [] distinct.1 distinct.2
        (by simp only [List.length_append, List.length_cons]; omega)
      refine ⟨.object members, position', ?_, congrArg Value.object coarse⟩
      simp only [render, quote, List.cons_append, List.append_assoc, List.nil_append, readValue,
        skipWhite_lineBreak (show isWhite '"' = false by decide), List.head?_cons, Option.some.injEq,
        if_neg (show ¬ '"' = '\x7d' by decide)] at read ⊢
      rw [read]

private theorem readsItems_succ {fuel : Nat} (readsValues : ReadsValues fuel) (readsItems : ReadsItems fuel) :
    ReadsItems (fuel + 1) := by
  intro first later level outer position rest distinct enough
  rw [List.length_append] at enough
  have ended : Ended (renderItems level later ++ (lineBreak outer ++ ']' :: rest)) := by
    cases later with
    | nil => exact ended_lineBreak _ _
    | cons second others => exact ended_comma _
  obtain ⟨item, place, read, coarse⟩ := readsValues first level position _ distinct.1 (by omega) ended
  cases later with
  | nil =>
    refine ⟨[item], place + (lineBreak outer).length + 1, ?_, congrArg (fun item => [item]) coarse⟩
    simp only [renderItems, List.nil_append, readItems] at read ⊢
    rw [read]
    simp only [skipWhite_lineBreak (show isWhite ']' = false by decide), Place.advance, List.drop_one, List.tail_cons]
  | cons second others =>
    obtain ⟨c, tail, head, dark, -⟩ := exists_head_render level second
    simp only [renderItems, List.length_cons, List.length_append] at enough
    obtain ⟨items, position', readLater, coarseLater⟩ := readsItems second others level outer
      (place + 1 + (lineBreak level).length) rest distinct.2 (by rw [List.length_append]; omega)
    refine ⟨item :: items, position', ?_, congrArg₂ List.cons coarse coarseLater⟩
    simp only [renderItems, readItems, List.cons_append, List.append_assoc] at read ⊢
    rw [read]
    simp only [skipWhite_of_dark (show isWhite ',' = false by decide), Place.advance, List.drop_one, List.tail_cons]
    rw [head, List.cons_append, skipWhite_lineBreak dark, ← List.cons_append, ← head, readLater]

private theorem readsMembers_succ {fuel : Nat} (readsValues : ReadsValues fuel) (readsMembers : ReadsMembers fuel) :
    ReadsMembers (fuel + 1) := by
  intro key value later level outer position rest before fresh distinct enough
  simp only [List.length_append, List.length_cons] at enough
  have ended : Ended (renderMembers level later ++ (lineBreak outer ++ '\x7d' :: rest)) := by
    cases later with
    | nil => exact ended_lineBreak _ _
    | cons second others => exact ended_comma _
  have absent : key ∉ before.keys := by
    intro mem
    exact (List.nodup_append.mp fresh).2.2 key mem key List.mem_cons_self rfl
  obtain ⟨afterKey, readKey⟩ := readText_quote .unicode position (position + 1) key.toList
    (':' :: ' ' :: (render level value ++ (renderMembers level later ++ (lineBreak outer ++ '\x7d' :: rest))))
  obtain ⟨c, tail, head, dark, -⟩ := exists_head_render level value
  obtain ⟨item, place, read, coarse⟩ := readsValues value level (afterKey + 1 + 1) _ distinct.1 (by omega) ended
  have colon : (Place.mk (afterKey + 1) (' ' :: (render level value ++
      (renderMembers level later ++ (lineBreak outer ++ '\x7d' :: rest))))).skipWhite =
      ⟨afterKey + 1 + 1, render level value ++ (renderMembers level later ++ (lineBreak outer ++ '\x7d' :: rest))⟩ := by
    rw [head]
    exact skipWhite_append _ [' '] (by simp [isWhite]) (by simpa using dark)
  cases later with
  | nil =>
    refine ⟨[(key, item)], place + (lineBreak outer).length + 1, ?_, congrArg (fun item => [(key, item)]) coarse⟩
    simp only [renderMembers, quote, List.cons_append, List.append_assoc, List.nil_append] at read readKey colon ⊢
    simp only [readMembers, readKey,
      skipWhite_of_dark (show isWhite ':' = false by decide), List.head?_cons, Place.advance, List.drop_one,
      List.tail_cons, colon, read, String.ofList_toList, set_of_notMem item absent,
      skipWhite_lineBreak (show isWhite '\x7d' = false by decide), if_true]
  | cons second others =>
    obtain ⟨nextKey, nextValue⟩ := second
    simp only [renderMembers, List.length_cons, List.length_append] at enough
    have freshLater : (Members.keys (before ++ [(key, item)]) ++ nextKey :: others.map (·.1)).Nodup := by
      simpa [Members.keys] using fresh
    obtain ⟨members, position', readLater, coarseLater⟩ := readsMembers nextKey nextValue others level outer
      (place + 1 + (lineBreak level).length) rest (before ++ [(key, item)]) freshLater distinct.2
      (by simp only [List.length_append, List.length_cons]; omega)
    refine ⟨(key, item) :: members, position', ?_, congrArg₂ (fun item => List.cons (key, item)) coarse coarseLater⟩
    simp only [renderMembers, quote, List.cons_append, List.append_assoc, List.nil_append]
      at read readKey colon readLater ⊢
    simp only [readMembers, readKey,
      skipWhite_of_dark (show isWhite ':' = false by decide), List.head?_cons, Place.advance, List.drop_one,
      List.tail_cons, colon, read, String.ofList_toList, set_of_notMem item absent,
      skipWhite_of_dark (show isWhite ',' = false by decide), if_true,
      skipWhite_lineBreak (show isWhite '"' = false by decide), readLater]

private theorem reads_of_fuel (fuel : Nat) : ReadsValues fuel ∧ ReadsItems fuel ∧ ReadsMembers fuel := by
  induction fuel with
  | zero =>
    refine ⟨?_, ?_, ?_⟩
    · intro value level position rest _ enough _
      obtain ⟨c, tail, head, -⟩ := exists_head_render level value
      rw [head, List.length_cons] at enough
      omega
    · intro first later level outer position rest _ enough
      omega
    · intro key value later level outer position rest before _ _ enough
      omega
  | succ fuel earlier =>
    obtain ⟨readsValues, readsItems, readsMembers⟩ := earlier
    exact ⟨readsValues_succ readsItems readsMembers, readsItems_succ readsValues readsItems,
      readsMembers_succ readsValues readsMembers⟩

/-- A document that is written is read back, its numbers with a point or an exponent as such numbers. -/
theorem parse_document {value : Value} (distinct : value.Distinct) :
    ∃ other, parse (document value).toList = .ok other ∧ other.coarse = value.coarse := by
  obtain ⟨c, tail, head, dark, -, mark⟩ := exists_head_render 0 value
  have length : (render 0 value ++ ['\n']).length = (render 0 value).length + 1 := by
    rw [List.length_append, List.length_singleton]
  obtain ⟨other, position, read, coarse⟩ := (reads_of_fuel (2 * (render 0 value ++ ['\n']).length + 2)).1 value 0 0 ['\n']
    distinct (by omega) (.inr rfl)
  refine ⟨other, ?_, coarse⟩
  rw [document, String.toList_ofList, parse]
  rw [head, List.cons_append] at read ⊢
  rw [if_neg (by simpa using mark), skipWhite_of_dark dark, read]
  rfl

/-! ## Lines -/

private theorem return_notMem_text {numeral : Numeral} (sound : numeral.Sound) : '\r' ∉ numeral.text := by
  have notDigit {c : Char} (digit : c.isDigit = true) : '\r' ≠ c := by
    rintro rfl
    cases digit
  have notSign (mem : '\r' ∈ numeral.signText) : False := by
    unfold Numeral.signText at mem
    split at mem <;> simp at mem
  have notFraction (mem : '\r' ∈ numeral.fractionText) : False := by
    unfold Numeral.fractionText at mem
    split at mem
    · cases mem
    · rcases List.mem_cons.mp mem with same | mem
      · cases same
      · exact notDigit (sound.fraction _ mem) rfl
  have notExponent (mem : '\r' ∈ numeral.exponentText) : False := by
    unfold Numeral.exponentText at mem
    split at mem
    · cases mem
    · next sign digits written =>
      obtain ⟨signs, digits⟩ := sound.exponent sign digits written
      rcases List.mem_cons.mp mem with same | mem
      · cases same
      rcases List.mem_cons.mp mem with rfl | mem
      · rcases signs with same | same <;> cases same
      · exact notDigit (digits.all _ mem) rfl
  intro mem
  simp only [Numeral.text, List.mem_append] at mem
  rcases mem with mem | mem | mem | mem
  · exact notSign mem
  · exact notDigit (sound.whole.all _ mem) rfl
  · exact notFraction mem
  · exact notExponent mem

theorem return_notMem_hexDigit (n : Nat) : '\r' ≠ hexDigit (n % 16) :=
  have : ∀ digit < 16, '\r' ≠ hexDigit digit := by decide
  this _ (Nat.mod_lt _ (by decide))

private theorem return_notMem_quoteChar (c : Char) : '\r' ∉ quoteChar .unicode c := by
  have notUnit (unit : Nat) : '\r' ∉ unitEscape unit := by
    simp [unitEscape, return_notMem_hexDigit]
  have notEscape : '\r' ∉ charEscape c := by
    unfold charEscape
    dsimp only
    split <;> simp [notUnit]
  by_cases return_ : c = '\r'
  · subst return_
    decide
  · unfold quoteChar
    split_ifs <;> first | exact notEscape | simp [Ne.symm return_]

private theorem return_notMem_quote (text : List Char) : '\r' ∉ quote .unicode text := by
  simp [quote, return_notMem_quoteChar]

private theorem return_notMem_lineBreak (level : Nat) : '\r' ∉ lineBreak level := by
  simp [lineBreak, List.mem_replicate]

private theorem return_notMem_floatText (value : Binary64) : '\r' ∉ (floatText value).toList := by
  cases value with
  | notANumber => decide
  | infinite negative => cases negative <;> decide
  | finite negative significand exponent =>
    obtain ⟨numeral, sound, -, text⟩ := exists_numeral_floatText negative significand exponent
    rw [← text]
    exact return_notMem_text sound

mutual

private theorem return_notMem_render (level : Nat) : ∀ value : Value, '\r' ∉ render level value
  | .null => by simp [render]
  | .boolean true => by simp [render]
  | .boolean false => by simp [render]
  | .integer value => by
    rw [render, ← text_integerNumeral]
    exact return_notMem_text (sound_integerNumeral value)
  | .float value => return_notMem_floatText value
  | .text value => return_notMem_quote value.toList
  | .array [] => by simp [render]
  | .array (first :: later) => by
    simp [render, return_notMem_lineBreak, return_notMem_render (level + 1) first,
      return_notMem_renderItems (level + 1) later]
  | .object [] => by simp [render]
  | .object ((key, value) :: later) => by
    simp [render, return_notMem_lineBreak, return_notMem_quote, return_notMem_render (level + 1) value,
      return_notMem_renderMembers (level + 1) later]

private theorem return_notMem_renderItems (level : Nat) : ∀ items : List Value, '\r' ∉ renderItems level items
  | [] => by simp [renderItems]
  | item :: later => by
    simp [renderItems, return_notMem_lineBreak, return_notMem_render level item, return_notMem_renderItems level later]

private theorem return_notMem_renderMembers (level : Nat) :
    ∀ members : List (String × Value), '\r' ∉ renderMembers level members
  | [] => by simp [renderMembers]
  | (key, value) :: later => by
    simp [renderMembers, return_notMem_lineBreak, return_notMem_quote, return_notMem_render level value,
      return_notMem_renderMembers level later]

end

/-- A document holds line feeds only, so that reading it as lines leaves it as it is. -/
theorem return_notMem_document (value : Value) : '\r' ∉ (document value).toList := by
  rw [document, String.toList_ofList]
  simp [return_notMem_render]

end Scaffold.Json
