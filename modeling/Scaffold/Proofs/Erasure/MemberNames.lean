import Scaffold.Proofs.Erasure.Carrying
import Scaffold.Proofs.Erasure.Counting

/-! # What the names of members mean

A string literal of a script means a sequence of UTF-16 units. A backslash in it stands in front of an escape, which is
longer than what it means. The literals that an enumeration names its members by are made from what stands between the
quotes in the source, and mean exactly that. So they mean what the source means just where it has no escape.
-/

namespace Scaffold.Erasure

open Scaffold.Text Scaffold.Syntax

/-! ## String literals -/

/-- The UTF-16 units of a code point. -/
def pointUnits (n : Nat) : List Nat :=
  if n < 0x10000 then [n] else [0xD800 + (n - 0x10000) / 1024, 0xDC00 + (n - 0x10000) % 1024]

/-- The UTF-16 units of a text. -/
def units (text : List Char) : List Nat := text.flatMap fun c => pointUnits c.toNat

/-- The characters that mean a control character behind a backslash. -/
def controlMarks : List (Char × Nat) := [('b', 8), ('t', 9), ('n', 10), ('v', 11), ('f', 12), ('r', 13)]

/-- The digits of an escape in base eight: up to three of them, as long as they make a byte. -/
def octalDigits (text : List Char) : List Char :=
  let digits := (text.take 3).takeWhile isOctalDigit
  if digits.foldl (fun value c => value * 8 + digitValue c) 0 < 256 then digits else digits.take 2

/-- The value of so many digits in base sixteen at the front of a text. -/
def hexFront? (count : Nat) (text : List Char) : Option Nat :=
  if count ≤ text.length then digitsValue? 16 (text.take count) else none

/-- What an escape means, and how many characters it takes behind its backslash. -/
def escape? : List Char → Option (List Nat × Nat)
  | [] => none
  | 'x' :: rest => (hexFront? 2 rest).map fun value => ([value], 3)
  | 'u' :: '\x7b' :: rest =>
    let digits := rest.takeWhile (· ≠ '\x7d')
    match digitsValue? 16 digits with
    | some value =>
      if value ≤ 0x10FFFF && digits.length < rest.length then some (pointUnits value, digits.length + 3) else none
    | none => none
  | 'u' :: rest => (hexFront? 4 rest).map fun value => ([value], 5)
  | '\r' :: '\n' :: _ => some ([], 2)
  | c :: rest =>
    if isLineEnd c then some ([], 1)
    else if isOctalDigit c then
      let digits := octalDigits (c :: rest)
      some ([digits.foldl (fun value c => value * 8 + digitValue c) 0], digits.length)
    else match controlMarks.lookup c with
      | some value => some ([value], 1)
      | none => some (pointUnits c.toNat, 1)

/-- What a literal means from behind its opening quote on; `skip` characters still belong to an escape. -/
def meaningFrom? (quote : Char) : Nat → List Char → Option (List Nat)
  | _, [] => none
  | skip + 1, _ :: rest => meaningFrom? quote skip rest
  | 0, c :: rest =>
    if c = quote then (if rest = [] then some [] else none)
    else if c = '\\' then
      match escape? rest with
      | some (meant, taken) => (meaningFrom? quote taken rest).map (meant ++ ·)
      | none => none
    else if c = '\n' || c = '\r' then none
    else (meaningFrom? quote 0 rest).map (pointUnits c.toNat ++ ·)

/-- What a string literal of a script means. -/
def meaning? : List Char → Option (List Nat)
  | quote :: rest => if quote = '"' || quote = '\'' then meaningFrom? quote 0 rest else none
  | [] => none

example : meaning? "'\\x41\\u{1F600}\\\n\\u00e9\\18'".toList = some [0x41, 0xD83D, 0xDE00, 0xE9, 1, 0x38] := by decide

variable {quote c : Char} {text rest taken : List Char} {value meant : List Nat} {count n : Nat}

theorem meaningFrom?_skip (quote : Char) (skip : Nat) (text : List Char) :
    meaningFrom? quote skip text = meaningFrom? quote 0 (text.drop skip) := by
  induction text generalizing skip with
  | nil => cases skip <;> rfl
  | cons c rest skips =>
    cases skip with
    | zero => rfl
    | succ skip => exact skips skip

theorem meaningFrom?_escape {taken : Nat} (other : '\\' ≠ quote) (means : escape? rest = some (meant, taken)) :
    meaningFrom? quote 0 ('\\' :: rest) = (meaningFrom? quote 0 (rest.drop taken)).map (meant ++ ·) := by
  rw [meaningFrom?, if_neg other, if_pos rfl, means]
  dsimp only
  rw [meaningFrom?_skip]

/-! ## Literals that are written -/

theorem digitValue_hexDigit : ∀ digit < 16, digitValue (hexDigit digit) = digit := by decide

theorem hexFront?_unitEscape {unit : Nat} (lt : unit < 0x10000) (rest : List Char) :
    hexFront? 4 ((Json.unitEscape unit).drop 2 ++ rest) = some unit := by
  have digit (n : Nat) : digitValue (hexDigit (n % 16)) = n % 16 := digitValue_hexDigit _ (Nat.mod_lt _ (by decide))
  have below (n : Nat) : n % 16 < 16 := Nat.mod_lt _ (by decide)
  rw [hexFront?, if_pos (by simp [Json.unitEscape]), List.take_left' (by rfl)]
  refine digitsValue?_eq_some_iff.mpr ⟨List.cons_ne_nil _ _, ?_, ?_⟩
  · simp only [Json.unitEscape, List.drop_succ_cons, List.drop_zero, List.forall_mem_cons, digit, below, true_and]
    exact List.forall_mem_nil _
  · simp only [Json.unitEscape, List.drop_succ_cons, List.drop_zero, List.foldl_cons, List.foldl_nil, digit]
    omega

theorem hexDigit_ne_brace : ∀ digit < 16, hexDigit digit ≠ '\x7b' := by decide

/-- The escape of a unit means the unit. -/
theorem escape?_unitEscape {unit : Nat} (lt : unit < 0x10000) (rest : List Char) :
    escape? ((Json.unitEscape unit).tail ++ rest) = some ([unit], 5) := by
  have value := hexFront?_unitEscape lt rest
  have plain : hexDigit (unit / 4096 % 16) ≠ '\x7b' := hexDigit_ne_brace _ (Nat.mod_lt _ (by decide))
  simp only [Json.unitEscape, List.drop_succ_cons, List.drop_zero, List.tail_cons, List.cons_append, List.nil_append] at value ⊢
  unfold escape?
  split
  · next same => cases same
  · next same => exact absurd (List.cons.inj same).1 (by decide)
  · next same => exact absurd (List.cons.inj (List.cons.inj same).2).1 plain
  · next same =>
    obtain ⟨-, rfl⟩ := List.cons.inj same
    rw [value]
    rfl
  · next same => exact absurd (List.cons.inj same).1 (by decide)
  · next unmarked _ same =>
    obtain ⟨rfl, rfl⟩ := List.cons.inj same
    exact absurd rfl unmarked

theorem meaningFrom?_unitEscape {unit : Nat} (lt : unit < 0x10000) (rest : List Char) :
    meaningFrom? '"' 0 (Json.unitEscape unit ++ rest) = (meaningFrom? '"' 0 rest).map ([unit] ++ ·) :=
  meaningFrom?_escape (by decide) (escape?_unitEscape lt rest)

theorem meaningFrom?_charEscape (c : Char) (rest : List Char) :
    meaningFrom? '"' 0 (Json.charEscape c ++ rest) = (meaningFrom? '"' 0 rest).map (pointUnits c.toNat ++ ·) := by
  have valid : c.toNat < 0xD800 ∨ 0xDFFF < c.toNat ∧ c.toNat < 0x110000 := c.valid
  unfold Json.charEscape pointUnits
  dsimp only
  split
  · next plane => exact meaningFrom?_unitEscape plane rest
  · next beyond =>
    rw [List.append_assoc, meaningFrom?_unitEscape (by omega), meaningFrom?_unitEscape (by omega), Option.map_map]
    rfl

theorem meaningFrom?_mark {mark : Char} (means : escape? (mark :: rest) = some (pointUnits c.toNat, 1)) :
    meaningFrom? '"' 0 ('\\' :: mark :: rest) = (meaningFrom? '"' 0 rest).map (pointUnits c.toNat ++ ·) :=
  meaningFrom?_escape (by decide) means

/-- A character in a literal that is written means itself. -/
theorem meaningFrom?_quoteChar (c : Char) (rest : List Char) :
    meaningFrom? '"' 0 (Json.quoteChar .ascii c ++ rest) = (meaningFrom? '"' 0 rest).map (pointUnits c.toNat ++ ·) := by
  unfold Json.quoteChar
  split
  · next same =>
    subst same
    exact meaningFrom?_mark rfl
  split
  · next same =>
    subst same
    exact meaningFrom?_mark rfl
  split
  · next same =>
    subst same
    exact meaningFrom?_mark rfl
  split
  · next same =>
    subst same
    exact meaningFrom?_mark rfl
  split
  · next same =>
    subst same
    exact meaningFrom?_mark rfl
  split
  · next same =>
    subst same
    exact meaningFrom?_mark rfl
  split
  · next same =>
    subst same
    exact meaningFrom?_mark rfl
  split
  · exact meaningFrom?_charEscape c rest
  split
  · exact meaningFrom?_charEscape c rest
  · next quote backslash feed return_ _ _ _ _ _ =>
    rw [List.singleton_append, meaningFrom?, if_neg quote, if_neg backslash, if_neg (by simp [feed, return_])]

/-- A text in quotes means the text. -/
theorem meaning?_quotedName (name : String) : meaning? (quotedName name).toList = some (units name.toList) := by
  have inner (text : List Char) : meaningFrom? '"' 0 (text.flatMap (Json.quoteChar .ascii) ++ ['"']) = some (units text) := by
    induction text with
    | nil => rfl
    | cons c text means =>
      rw [List.flatMap_cons, List.append_assoc, meaningFrom?_quoteChar, means]
      rfl
  rw [quotedName, String.toList_ofList, Json.quote, List.cons_append, meaning?, if_pos (by decide), inner]

/-! ## Literals that are read -/

theorem length_pointUnits (n : Nat) : 0 < (pointUnits n).length ∧ (pointUnits n).length ≤ 2 := by
  unfold pointUnits
  split <;> exact ⟨Nat.succ_pos _, by simp only [List.length_cons, List.length_nil]; omega⟩

theorem units_append (front back : List Char) : units (front ++ back) = units front ++ units back := List.flatMap_append

theorem length_le_units (text : List Char) : text.length ≤ (units text).length := by
  induction text with
  | nil => exact Nat.le_refl 0
  | cons c text le =>
    have own := (length_pointUnits c.toNat).1
    rw [units, List.flatMap_cons, List.length_append, List.length_cons]
    rw [units] at le
    omega

/-- An escape means no more units than it has characters behind its backslash. -/
theorem length_le_of_escape? {taken : Nat} (means : escape? rest = some (meant, taken)) :
    meant.length ≤ (units (rest.take taken)).length := by
  have enough {least : Nat} (short : meant.length ≤ least) (takes : least ≤ (rest.take taken).length) :
      meant.length ≤ (units (rest.take taken)).length := short.trans (takes.trans (length_le_units _))
  unfold escape? at means
  split at means
  · cases means
  · obtain ⟨value, -, same⟩ := Option.map_eq_some_iff.mp means
    cases same
    exact enough (Nat.le_refl 1) (by simp)
  · dsimp only at means
    split at means
    · split at means
      · cases means
        exact enough (length_pointUnits _).2 (by simp)
      · cases means
    · cases means
  · obtain ⟨value, -, same⟩ := Option.map_eq_some_iff.mp means
    cases same
    exact enough (Nat.le_refl 1) (by simp)
  · cases means
    exact Nat.zero_le _
  · next c rest _ _ _ _ =>
    split at means
    · cases means
      exact Nat.zero_le _
    split at means
    · next octal =>
      cases means
      refine enough (Nat.le_refl 1) ?_
      have some_ : 0 < (octalDigits (c :: rest)).length := by
        unfold octalDigits
        dsimp only
        rw [List.take_succ_cons, List.takeWhile_cons_of_pos octal]
        split
        · exact Nat.succ_pos _
        · rw [List.take_succ_cons]
          exact Nat.succ_pos _
      rw [List.length_take, List.length_cons]
      omega
    · split at means
      · cases means
        exact enough (Nat.le_refl 1) (by simp)
      · cases means
        rw [List.take_succ_cons, List.take_zero, units, List.flatMap_singleton]

/-- A literal that means something ends with its quote. Without a backslash it means what stands in front of that, and with
one it means less. -/
theorem exists_of_meaningFrom? (means : meaningFrom? quote 0 text = some value) :
    ∃ body, text = body ++ [quote] ∧ ('\\' ∉ body → value = units body) ∧ ('\\' ∈ body → value.length < (units body).length) := by
  induction length : text.length using Nat.strong_induction_on generalizing text value with
  | _ length' shorter =>
    subst length
    cases text with
    | nil => cases means
    | cons c rest =>
      rw [meaningFrom?] at means
      split at means
      · next closes =>
        split at means
        · next last =>
          cases means
          exact ⟨[], by rw [last, closes]; rfl, fun _ => rfl, nofun⟩
        · cases means
      split at means
      · next backslash =>
        split at means
        · next meant taken escape =>
          rw [meaningFrom?_skip] at means
          obtain ⟨later, inner, rfl⟩ := Option.map_eq_some_iff.mp means
          have smaller : (rest.drop taken).length < (c :: rest).length := by
            rw [List.length_drop, List.length_cons]
            omega
          obtain ⟨body, split, plain, escaped⟩ := shorter _ smaller inner rfl
          have short : later.length ≤ (units body).length := by
            by_cases more : '\\' ∈ body
            · exact Nat.le_of_lt (escaped more)
            · rw [plain more]
          have own := length_le_of_escape? escape
          refine ⟨c :: (rest.take taken ++ body), ?_, fun none_ => absurd (backslash ▸ List.mem_cons_self) none_, fun _ => ?_⟩
          · rw [List.cons_append, List.append_assoc, ← split, List.take_append_drop]
          · have first := (length_pointUnits c.toNat).1
            rw [← List.singleton_append, units_append, units_append, List.length_append, List.length_append, List.length_append]
            rw [show (units [c]).length = (pointUnits c.toNat).length by rw [units, List.flatMap_singleton]]
            omega
        · cases means
      · next other =>
        split at means
        · cases means
        · obtain ⟨later, inner, rfl⟩ := Option.map_eq_some_iff.mp means
          obtain ⟨body, rfl, plain, escaped⟩ := shorter _ (Nat.lt_succ_self _) inner rfl
          refine ⟨c :: body, rfl, fun none_ => ?_, fun mem => ?_⟩
          · rw [plain (List.not_mem_of_not_mem_cons none_)]
            rfl
          · have less := escaped ((List.mem_cons.mp mem).resolve_left fun same => other same.symm)
            rw [← List.singleton_append, units_append, List.length_append, List.length_append, units, List.flatMap_singleton]
            omega

/-- Only a literal without an escape means what stands between its quotes. -/
theorem exists_of_meaning? {literal : List Char} (means : meaning? literal = some value) :
    ∃ quote body, charWidth quote = 1 ∧ literal = quote :: (body ++ [quote]) ∧ (value = units body ↔ '\\' ∉ literal) := by
  cases literal with
  | nil => cases means
  | cons quote rest =>
    rw [meaning?] at means
    split at means
    · next isQuote =>
      obtain ⟨body, rfl, plain, escaped⟩ := exists_of_meaningFrom? means
      have known : quote = '"' ∨ quote = '\'' := by simpa using isQuote
      have other : '\\' ≠ quote := by rcases known with rfl | rfl <;> decide
      refine ⟨quote, body, by rcases known with rfl | rfl <;> rfl, rfl, ?_⟩
      have mem_iff : '\\' ∈ quote :: (body ++ [quote]) ↔ '\\' ∈ body := by simp [other]
      rw [mem_iff]
      refine ⟨fun same mem => ?_, plain⟩
      have less := escaped mem
      rw [same] at less
      exact Nat.lt_irrefl _ less
    · cases means

/-! ## Members -/

variable {dialect : Dialect} {source : Bytes} {root tree member key : Tree} {state : MemberState} {index : Nat}
variable {statement : Assignment} {literal name : String}

/-- The tree that names a member. -/
def nameTree (member : Tree) : Tree := (memberParts member).1

theorem nameTree_mem_preorder (member : Tree) : nameTree member ∈ member.preorder := by
  unfold nameTree memberParts
  split
  · cases has : member.child? .name with
    | none => exact member.mem_preorder_self
    | some key => exact Binding.mem_preorder_of_child? has
  · exact member.mem_preorder_self

/-- A string names a member by what stands between its quotes. -/
theorem memberKey_of_string {body : List Char} (edged : key.Edged text) (ordered : key.start ≤ key.stop) (kind : key.kind = .string)
    (one : charWidth quote = 1) (literal : (key.text (encodeChars text)).toList = quote :: (body ++ [quote])) :
    memberKey (encodeChars text) key = String.ofList body := by
  obtain ⟨before, taken, behind, rfl, start_eq, stop_eq⟩ := edged.start.exists_parts edged.stop ordered
  rw [Tree.text, start_eq, stop_eq, sliceText_middle, String.toList_ofList] at literal
  subst literal
  have whole : before ++ (quote :: (body ++ [quote]) ++ behind) = (before ++ [quote]) ++ (body ++ (quote :: behind)) := by simp
  have first : key.start + 1 = width (before ++ [quote]) := by
    rw [start_eq, width_append, width_cons, width_nil, one]
  have last : key.stop - 1 = width (before ++ [quote]) + width body := by
    rw [stop_eq, width_append, width_cons, width_append, width_cons, width_nil, one]
    omega
  rw [memberKey, Tree.stringValue?, if_pos kind, Option.getD_some, whole, first, last, sliceText_middle]

/-- The statement that a member becomes. -/
def memberStatement (source : Bytes) (state : MemberState) (member : Tree) : Assignment :=
  let quoted := quotedName (memberKey source (nameTree member))
  match (memberParts member).2, state.count with
  | none, some number => .number quoted (.other number.text) quoted
  | none, none => .number quoted (.following (quotedName state.previous)) quoted
  | some value, _ =>
    if value.kind = .string || value.kind = .templateString then .text quoted (value.text source)
    else .number quoted (.other (value.text source)) quoted

/-- The statements that members become. -/
def memberStatements (source : Bytes) (name : String) : MemberState → List Tree → List Assignment
  | _, [] => []
  | state, member :: later =>
    memberStatement source state member :: memberStatements source name (memberLine source name state member).2 later

theorem memberLine_fst (source : Bytes) (name : String) (state : MemberState) (member : Tree) :
    (memberLine source name state member).1 = (memberStatement source state member).written name := by
  unfold memberLine memberStatement nameTree
  generalize memberParts member = parts
  obtain ⟨key, value⟩ := parts
  cases value with
  | none => cases state.count <;> rfl
  | some value =>
    dsimp only
    split <;> rfl

theorem previous_memberLine (source : Bytes) (name : String) (state : MemberState) (member : Tree) :
    (memberLine source name state member).2.previous = memberKey source (nameTree member) := by
  unfold memberLine nameTree
  generalize memberParts member = parts
  obtain ⟨key, value⟩ := parts
  cases value with
  | none => cases state.count <;> rfl
  | some value =>
    dsimp only
    split <;> rfl

theorem memberLines_eq_map (source : Bytes) (name : String) (state : MemberState) (members : List Tree) :
    memberLines source name state members = (memberStatements source name state members).map (Assignment.written name) := by
  induction members generalizing state with
  | nil => rfl
  | cons member later lines =>
    rw [memberLines, memberStatements, List.map_cons, ← memberLine_fst, ← lines]

/-- The literals of a statement that name the member itself. -/
def Assignment.ownNames : Assignment → List String
  | .text literal _ => [literal]
  | .number literal _ back => [literal, back]

/-- The literals of a statement that name the member in front of it. -/
def Assignment.namesBefore : Assignment → List String
  | .number _ (.following literal) _ => [literal]
  | .number _ _ _ | .text _ _ => []

theorem eq_of_mem_ownNames (mem : literal ∈ (memberStatement source state member).ownNames) :
    literal = quotedName (memberKey source (nameTree member)) := by
  unfold memberStatement at mem
  cases found : (memberParts member).2 with
  | none =>
    rw [found] at mem
    cases count : state.count with
    | none => simpa [count, Assignment.ownNames] using mem
    | some number => simpa [count, Assignment.ownNames] using mem
  | some value =>
    rw [found] at mem
    dsimp only at mem
    split at mem
    · simpa [Assignment.ownNames] using mem
    · simpa [Assignment.ownNames] using mem

theorem eq_of_mem_namesBefore (mem : literal ∈ (memberStatement source state member).namesBefore) :
    literal = quotedName state.previous ∧ state.count = none := by
  unfold memberStatement at mem
  cases found : (memberParts member).2 with
  | none =>
    rw [found] at mem
    cases count : state.count with
    | none => exact ⟨by simpa [count, Assignment.namesBefore] using mem, rfl⟩
    | some number => simp [count, Assignment.namesBefore] at mem
  | some value =>
    rw [found] at mem
    dsimp only at mem
    split at mem
    · simp [Assignment.namesBefore] at mem
    · simp [Assignment.namesBefore] at mem

theorem length_memberStatements (source : Bytes) (name : String) (state : MemberState) (members : List Tree) :
    (memberStatements source name state members).length = members.length := by
  induction members generalizing state with
  | nil => rfl
  | cons member later same => rw [memberStatements, List.length_cons, List.length_cons, same]

/-- A statement names its own member. -/
theorem own_of_memberStatements {members : List Tree} (at_ : members[index]? = some member)
    (stands : (memberStatements source name state members)[index]? = some statement) (mem : literal ∈ statement.ownNames) :
    literal = quotedName (memberKey source (nameTree member)) := by
  induction members generalizing state index with
  | nil => cases at_
  | cons first later below =>
    cases index with
    | zero =>
      cases at_
      cases stands
      exact eq_of_mem_ownNames mem
    | succ index => exact below at_ stands

/-- A statement names the member in front of it. -/
theorem before_of_memberStatements {members : List Tree} (at_ : members[index]? = some member)
    (stands : (memberStatements source name state members)[index + 1]? = some statement) (mem : literal ∈ statement.namesBefore) :
    literal = quotedName (memberKey source (nameTree member)) := by
  induction members generalizing state index with
  | nil => cases at_
  | cons first later below =>
    cases index with
    | zero =>
      cases at_
      cases later with
      | nil => cases stands
      | cons second later =>
        cases stands
        rw [← previous_memberLine source name state member]
        exact (eq_of_mem_namesBefore mem).1
    | succ index => exact below at_ stands

/-! ## Enumerations -/

/-- The statements that the members of an enumeration become. -/
def enumerationStatements (source : Bytes) (tree : Tree) : List Assignment :=
  memberStatements source (enumerationName source tree) ⟨some (.integer 0), ""⟩ (enumerated tree)

theorem enumerationText_eq (source : Bytes) (tree : Tree) :
    enumerationText source tree = scriptText (enumerationName source tree)
      (sliceText (indentationAt source tree.start) 0 tree.start)
      ((enumerationStatements source tree).map (Assignment.written (enumerationName source tree))) := by
  rw [enumerationStatements, ← memberLines_eq_map]
  rfl

/-- A literal means what stands between the quotes of another one, and what that one means where it has no backslash. -/
structure Repeats (original literal : List Char) : Prop where
  means : ∃ quote body, original = quote :: (body ++ [quote]) ∧ meaning? literal = some (units body)
  agrees : ∀ value, meaning? original = some value → (meaning? literal = some value ↔ '\\' ∉ original)

/-- The literal that a member is written with repeats the one that names it. -/
theorem repeats_quotedName (parsed : dialect.parse (encodeChars text) = .ok root) (inside : key ∈ root.preorder)
    (kind : key.kind = .string) (means : meaning? (key.text (encodeChars text)).toList = some value) :
    Repeats (key.text (encodeChars text)).toList (quotedName (memberKey (encodeChars text) key)).toList := by
  obtain ⟨quote, body, one, split, plain⟩ := exists_of_meaning? means
  have ordered := ((Dialect.describes_of_parse parsed).placed.inner inside).1.start_le_stop
  rw [memberKey_of_string (edged_of_parse parsed inside) ordered kind one split]
  have written := meaning?_quotedName (String.ofList body)
  rw [String.toList_ofList] at written
  refine ⟨⟨quote, body, split, written⟩, fun other same => ?_⟩
  rw [← Option.some.inj (means.symm.trans same), written, Option.some_inj, eq_comm]
  exact plain

/-- An enumeration becomes statements, one for each member, and the literals in them that stand for a member named by a
string literal mean what stands between its quotes. They mean the same as that literal where it has no backslash, and only
there. -/
theorem string_names_are_repeated (parsed : dialect.parse (encodeChars text) = .ok root) (inside : tree ∈ root.preorder) :
    (rewriteEnumeration (encodeChars text) tree).edits =
      [⟨tree.start, tree.stop, encode (scriptText (enumerationName (encodeChars text) tree)
        (sliceText (indentationAt (encodeChars text) tree.start) 0 tree.start)
        ((enumerationStatements (encodeChars text) tree).map
          (Assignment.written (enumerationName (encodeChars text) tree))))⟩] ∧
    (enumerationStatements (encodeChars text) tree).length = (enumerated tree).length ∧
    (∀ statement ∈ (enumerationStatements (encodeChars text) tree).head?, statement.namesBefore = []) ∧
    ∀ index member value, (enumerated tree)[index]? = some member → (nameTree member).kind = .string →
      meaning? ((nameTree member).text (encodeChars text)).toList = some value →
      (∀ statement, (enumerationStatements (encodeChars text) tree)[index]? = some statement →
        ∀ literal ∈ statement.ownNames, Repeats ((nameTree member).text (encodeChars text)).toList literal.toList) ∧
      ∀ statement, (enumerationStatements (encodeChars text) tree)[index + 1]? = some statement →
        ∀ literal ∈ statement.namesBefore, Repeats ((nameTree member).text (encodeChars text)).toList literal.toList := by
  refine ⟨by rw [← enumerationText_eq]; rfl, length_memberStatements .., ?_, ?_⟩
  · intro statement first
    refine List.eq_nil_iff_forall_not_mem.mpr fun literal mem => ?_
    rw [enumerationStatements] at first
    generalize enumerated tree = members at first
    cases members with
    | nil => cases first
    | cons member later =>
      cases first
      exact absurd (eq_of_mem_namesBefore mem).2 (Option.some_ne_none _)
  · intro index member value at_ kind means
    obtain ⟨body, bodyMem, part⟩ := mem_preorder_of_mem_enumerationMembers (List.mem_of_getElem? at_)
    have memberInside := Tree.mem_preorder_of_mem_children (Tree.mem_preorder_of_mem_children inside bodyMem)
      (List.mem_filter.mp part).1
    have keyInside := Tree.mem_preorder_trans memberInside (nameTree_mem_preorder member)
    have repeats := repeats_quotedName parsed keyInside kind means
    refine ⟨fun statement stands literal mem => ?_, fun statement stands literal mem => ?_⟩
    · rwa [own_of_memberStatements at_ stands mem]
    · rwa [before_of_memberStatements at_ stands mem]

def accentedText : List Char := "enum E \x7b 'é\"' = f(), b \x7d\n".toList

def accentedMember : Tree :=
  .node .enumAssignment none 9 20 [.node .string (some .name) 9 14 [], .node (.token "=") none 15 16 [],
    .node .callExpression (some .value) 17 20 [.node .identifier (some .function) 17 18 [],
      .node .arguments (some .arguments) 18 20 [.node (.token "(") none 18 19 [], .node (.token ")") none 19 20 []]]]

def accented : Tree :=
  .node .enumDeclaration none 0 25 [.node (.token "enum") none 0 4 [], .node .identifier (some .name) 5 6 [],
    .node .enumBody (some .body) 7 25 [.node (.token "\x7b") none 7 8 [], accentedMember, .node (.token ",") none 20 21 [],
      .node .propertyIdentifier (some .name) 22 23 [], .node (.token "\x7d") none 24 25 []]]

def accentedFile : Tree := .node .program none 0 26 [accented]

theorem accented_name_is_repeated :
    Dialect.plain.parse (encodeChars accentedText) = .ok accentedFile ∧
      meaning? "'é\"'".toList = some [0xE9, 0x22] ∧
      (enumerationStatements (encodeChars accentedText) accented).map Assignment.ownNames =
        [["\"\\u00e9\\\"\"", "\"\\u00e9\\\"\""], ["\"b\"", "\"b\""]] ∧
      (enumerationStatements (encodeChars accentedText) accented).map Assignment.namesBefore = [[], ["\"\\u00e9\\\"\""]] ∧
      Repeats "'é\"'".toList "\"\\u00e9\\\"\"".toList := by
  have parsed : Dialect.plain.parse (encodeChars accentedText) = .ok accentedFile := by decide +kernel
  have named : ((nameTree accentedMember).text (encodeChars accentedText)).toList = "'é\"'".toList := by decide +kernel
  have means : meaning? "'é\"'".toList = some [0xE9, 0x22] := by decide +kernel
  have own : (enumerationStatements (encodeChars accentedText) accented).map Assignment.ownNames =
      [["\"\\u00e9\\\"\"", "\"\\u00e9\\\"\""], ["\"b\"", "\"b\""]] := by decide +kernel
  refine ⟨parsed, means, own, by decide +kernel, ?_⟩
  have inside : accented ∈ accentedFile.preorder := .tail _ (.head _)
  obtain ⟨-, -, -, each⟩ := string_names_are_repeated parsed inside
  have repeats := (each 0 accentedMember _ rfl rfl (named ▸ means)).1 _ rfl
  rw [named] at repeats
  refine repeats _ ?_
  have first := congrArg List.head? own
  rw [List.head?_map] at first
  exact (Option.some.inj first) ▸ List.mem_cons_self

def escapedText : List Char := "enum E \x7b 'a\\nb' = 1 \x7d\n".toList

def escapedName : Tree := .node .string (some .name) 9 15 []

def escapedFile : Tree :=
  .node .program none 0 22 [.node .enumDeclaration none 0 21 [.node (.token "enum") none 0 4 [],
    .node .identifier (some .name) 5 6 [], .node .enumBody (some .body) 7 21 [.node (.token "\x7b") none 7 8 [],
      .node .enumAssignment none 9 19 [escapedName, .node (.token "=") none 16 17 [], .node .number (some .value) 18 19 []],
      .node (.token "\x7d") none 20 21 []]]]

def escapedOutput : String := "var E;\n(function (E) \x7b\n    E[E[\"a\\\\nb\"] = 1] = \"a\\\\nb\";\n\x7d)(E || (E = \x7b\x7d));"

theorem backslash_is_doubled :
    Dialect.plain.parse (encodeChars escapedText) = .ok escapedFile ∧ escapedName ∈ escapedFile.preorder ∧
      erase .plain (encodeChars escapedText) = .ok (encode (escapedOutput ++ "\n")) ∧
      meaning? (escapedName.text (encodeChars escapedText)).toList = some (units ['a', '\n', 'b']) ∧
      meaning? "\"a\\\\nb\"".toList ≠ meaning? (escapedName.text (encodeChars escapedText)).toList := by
  have parsed : Dialect.plain.parse (encodeChars escapedText) = .ok escapedFile := by decide +kernel
  have edits : erasureEdits (encodeChars escapedText) escapedFile = [⟨0, 21, encode escapedOutput⟩] := by decide +kernel
  refine ⟨parsed, by decide +kernel, ?_, by decide +kernel, by decide +kernel⟩
  rw [erase, parsed]
  dsimp only
  rw [eraseTree, applyEdits, edits, List.mergeSort_singleton]
  exact congrArg Except.ok (by decide +kernel)

end Scaffold.Erasure
