import Scaffold.Proofs.Edit.Evaluation
import Scaffold.Proofs.Edit.Writing

/-! # Settings that are put into an object

An edit puts a pair in front of the properties of an object, or another value into one of its pairs. The object is read again
with the edit in it, the new pair counts under its name, and the other properties read as they did.
-/

namespace Scaffold.Edit

open Scaffold.Text Scaffold.Syntax

section Bytes

variable {before old behind : List Char}

/-- One edit replaces a stretch of a text. -/
theorem applyEdits_singleton (before old new behind : List Char) :
    applyEdits (encodeChars (before ++ (old ++ behind))) [⟨width before, width before + width old, encodeChars new⟩] =
      encodeChars (before ++ (new ++ behind)) := by
  have front : slice (encodeChars (before ++ (old ++ behind))) 0 (width before) = encodeChars before := by
    rw [slice, List.drop_zero, Nat.sub_zero, encodeChars_append, ← length_encodeChars, List.take_left]
  have back : (encodeChars (before ++ (old ++ behind))).drop (width before + width old) = encodeChars behind := by
    rw [← width_append, ← List.append_assoc, encodeChars_append, ← length_encodeChars, List.drop_left]
  rw [applyEdits, List.mergeSort_singleton, applyOrdered, if_neg (Nat.not_lt_zero _), applyOrdered, front, back,
    encodeChars_append, encodeChars_append, List.append_assoc]

/-- The bytes of an indentation are those of blanks. -/
theorem exists_indentation (source : Bytes) (offset : Nat) :
    ∃ blanks, (∀ c ∈ blanks, c = ' ' ∨ c = '\t') ∧ indentationAt source offset = encodeChars blanks := by
  have bytes (line : Bytes) : ∃ blanks, (∀ c ∈ blanks, c = ' ' ∨ c = '\t') ∧ line.takeWhile isIndent = encodeChars blanks := by
    induction line with
    | nil => exact ⟨[], nofun, rfl⟩
    | cons byte later found =>
      obtain ⟨blanks, each, eq⟩ := found
      by_cases space : byte = 32
      · exact ⟨' ' :: blanks, by simpa using each, by rw [space, List.takeWhile_cons_of_pos (by rfl), eq]; rfl⟩
      · by_cases tab : byte = 9
        · exact ⟨'\t' :: blanks, by simpa using each, by rw [tab, List.takeWhile_cons_of_pos (by rfl), eq]; rfl⟩
        · exact ⟨[], nofun, by rw [List.takeWhile_cons_of_neg (by simp [isIndent, space, tab])]; rfl⟩
  exact bytes _

/-- White space as the edits write it. -/
def IsLayout (text : List Char) : Prop := ∀ c ∈ text, c = ' ' ∨ c = '\t' ∨ c = '\n'

theorem IsLayout.append {first second : List Char} (front : IsLayout first) (back : IsLayout second) :
    IsLayout (first ++ second) := fun c mem => (List.mem_append.mp mem).elim (front c) (back c)

theorem IsLayout.isSeparator {text : List Char} (layout : IsLayout text) : ∀ c ∈ text, isSeparator c = true := by
  intro c mem
  rcases layout c mem with rfl | rfl | rfl <;> decide

theorem IsLayout.plain {text : List Char} (layout : IsLayout text) : ∀ c ∈ text, c ≠ '*' ∧ c ≠ '/' := by
  intro c mem
  rcases layout c mem with rfl | rfl | rfl <;> decide

/-- An entry is put between white space behind the opening brace. -/
theorem exists_layout (source : Bytes) (object : Tree) (entry : String) :
    ∃ lead tail, IsLayout lead ∧ IsLayout tail ∧ insertFirst source object entry =
      ⟨object.start + 1, object.start + 1, encodeChars (lead ++ (entry.toList ++ tail))⟩ := by
  have blank : IsLayout " ".toList := by simp [IsLayout]
  have twice : IsLayout "  ".toList := by simp [IsLayout]
  have feed : IsLayout "\n".toList := by simp [IsLayout]
  have indented {blanks : List Char} (each : ∀ c ∈ blanks, c = ' ' ∨ c = '\t') : IsLayout blanks :=
    fun c mem => (each c mem).elim .inl fun tab => .inr (.inl tab)
  unfold insertFirst
  split
  · obtain ⟨blanks, each, eq⟩ := exists_indentation source object.start
    refine ⟨"\n".toList ++ (blanks ++ "  ".toList), "\n".toList ++ blanks, feed.append ((indented each).append twice),
      feed.append (indented each), ?_⟩
    simp only [eq, encode, encodeChars_append, String.toList_append, List.append_assoc]
  · next first later _ =>
    dsimp only
    split
    · exact ⟨" ".toList, [], blank, List.forall_mem_nil _, by simp only [encode, String.toList_append, List.append_nil]⟩
    · obtain ⟨blanks, each, eq⟩ := exists_indentation source first.start
      refine ⟨"\n".toList ++ blanks, [], feed.append (indented each), List.forall_mem_nil _, ?_⟩
      simp only [eq, encode, encodeChars_append, List.append_assoc, List.append_nil]

end Bytes


/-! ## Objects with an edit -/

variable {dialect : Dialect} {before inside behind : List Char} {object pair new tree : Tree} {inner trees : List Tree}
  {at_ next : Cursor} {name : String}

/-- An object in an edited text where a pair sets what is under a name and the other properties are as they were. -/
structure Sets (dialect : Dialect) (name : String) (source : Bytes) (object : Tree) (before inside behind : List Char)
    (new object' : Tree) : Prop where
  objectIn : ∃ inner, object'.ObjectIn dialect before inside behind inner
  decided : IsDecided (encodeChars (before ++ '\x7b' :: (inside ++ behind))) object' name
  pair?_eq : pair? (encodeChars (before ++ '\x7b' :: (inside ++ behind))) object' name = some new
  setting?_eq : setting? (encodeChars (before ++ '\x7b' :: (inside ++ behind))) object' name = new.child? .value
  others : othersOf (encodeChars (before ++ '\x7b' :: (inside ++ behind))) object' name = othersOf source object name

/-- Where nothing is under a name, a pair that is put in front sets it. -/
theorem exists_inserted {lead entry tail : List Char} (objectIn : object.ObjectIn dialect before inside behind inner)
    (decided : IsDecided (encodeChars (before ++ '\x7b' :: (inside ++ behind))) object name)
    (absent : pair? (encodeChars (before ++ '\x7b' :: (inside ++ behind))) object name = none)
    (leadLayout : IsLayout lead) (tailLayout : IsLayout tail) (solid : entry ≠ []) (inky : Inky entry)
    (reads : ∀ (cursor : Cursor) (rest : List Char), cursor.trivia.2 = ⟨width before + 1 + width lead, entry ++ ',' :: rest⟩ →
      (dialect.grammar false).Derives Shape.property cursor (cursor.trivia.1 ++ [new])
        ⟨width before + 1 + width lead + width entry, ',' :: rest⟩)
    (isPair : new.kind = .pair)
    (own : nameOf? (encodeChars (before ++ '\x7b' :: (lead ++ (entry ++ ',' :: (tail ++ inside)) ++ behind))) new = some name) :
    ∃ object', Sets dialect name (encodeChars (before ++ '\x7b' :: (inside ++ behind))) object before
      (lead ++ (entry ++ ',' :: (tail ++ inside))) behind new object' := by
  obtain ⟨object', comma, token, objectIn'⟩ := objectIn.insert leadLayout.isSeparator tailLayout.isSeparator solid inky reads
  have parts := objectIn'.parts_eq
  rw [partsOf_pair isPair, partsOf_token token, partsOf_moved, ← objectIn.parts_eq] at parts
  have source_eq : before ++ '\x7b' :: (inside ++ behind) = (before ++ ['\x7b']) ++ ([] ++ (inside ++ behind)) := by simp
  have edited_eq : before ++ '\x7b' :: (lead ++ (entry ++ ',' :: (tail ++ inside)) ++ behind) =
      (before ++ ['\x7b']) ++ ((lead ++ (entry ++ ',' :: tail)) ++ (inside ++ behind)) := by simp
  have place : width (before ++ ['\x7b']) = width before + 1 := width_append _ _
  have reads : ∀ property ∈ object.parts, ReadsAlike (encodeChars (before ++ '\x7b' :: (inside ++ behind)))
      (encodeChars (before ++ '\x7b' :: (lead ++ (entry ++ ',' :: (tail ++ inside)) ++ behind))) property
        (property.moved (width before + 1) (width before + 1 + width (lead ++ (entry ++ ',' :: tail)))) := by
    intro property mem
    rw [objectIn.parts_eq] at mem
    have placed := objectIn.placed
    have bounds := placed.bounds (mem_of_mem_partsOf mem)
    have stop_eq := objectIn.stop_eq
    have alike := @readsAlike_behind (before ++ ['\x7b']) [] (lead ++ (entry ++ ',' :: tail)) (inside ++ behind) property
      (placed.placed (mem_of_mem_partsOf mem)) bounds.2.1 (by rw [place, width_nil]; omega)
      (by rw [place, width_nil, width_append]; omega)
    rwa [source_eq, edited_eq, ← place]
  have room := (decided.room_of_none absent).window nofun reads
  rw [← List.nil_append (new :: _)] at parts
  refine ⟨object', ⟨_, objectIn'⟩, room.isDecided parts isPair own, room.pair?_eq parts isPair own,
    room.setting?_eq parts isPair own, ?_⟩
  rw [othersOf_eq parts own]
  exact othersOf_window nofun reads

/-- A pair has the name of its key, whatever its value is. -/
theorem nameOf?_withValue (taken : PairAt dialect at_ trees next pair) (source : Bytes) (value : Tree) :
    nameOf? source (taken.withValue value) = plainName? source taken.key := by
  have child := taken.child?_key value
  rw [nameOf?, show (taken.withValue value).kind = .pair from rfl]
  dsimp only
  rw [child]
  rfl

/-- Where a pair counts under a name, another value in it sets what is there. -/
theorem exists_replaced {front gap old new back : List Char} {value : Tree}
    (objectIn : object.ObjectIn dialect before inside behind inner)
    (taken : PairAt dialect ⟨width before + 1, inside ++ behind⟩ inner ⟨object.stop, behind⟩ pair)
    (isText : taken.IsText front gap old) (split : taken.behind.rest = back ++ behind)
    (decided : IsDecided (encodeChars (before ++ '\x7b' :: (inside ++ behind))) object name)
    (found : pair? (encodeChars (before ++ '\x7b' :: (inside ++ behind))) object name = some pair)
    (lines : LinesEnd (inside ++ behind)) (solid : new ≠ []) (inky : Inky new)
    (may : MayReplace (gap ++ (old ++ taken.behind.rest)) (gap ++ (new ++ taken.behind.rest)))
    (reads : ∀ cursor : Cursor, cursor.trivia.2 = ⟨taken.value.start, new ++ taken.behind.rest⟩ →
      (dialect.grammar false).Derives (Shape.expression .enclosed) cursor (cursor.trivia.1 ++ [value])
        ⟨taken.value.start + width new, taken.behind.rest⟩) :
    ∃ object', Sets dialect name (encodeChars (before ++ '\x7b' :: (inside ++ behind))) object before
      (front ++ ':' :: (gap ++ (new ++ back))) behind (taken.withValue (value.withRole .value)) object' := by
  obtain ⟨object', objectIn'⟩ := objectIn.replace taken isText split lines solid inky may reads
  have parts := objectIn'.parts_eq
  rw [partsOf_around (isComment_trivia taken.place) rfl, partsOf_moved] at parts
  have split_ := objectIn.parts_eq.trans (congrArg partsOf taken.trees_eq)
  rw [partsOf_around (isComment_trivia taken.place) (IsDecided.kind_eq found)] at split_
  obtain ⟨own, room⟩ := decided.room objectIn.nodup_parts found split_
  obtain ⟨inFront, inBack, keyFilled, keyBefore⟩ := taken.order objectIn.placed
  have source_eq : before ++ '\x7b' :: (inside ++ behind) =
      (before ++ '\x7b' :: (front ++ ':' :: gap)) ++ (old ++ (back ++ behind)) := by
    have rest := isText.rest_eq
    rw [split] at rest
    change inside ++ behind = _ at rest
    rw [rest]
    simp
  have edited_eq : before ++ '\x7b' :: (front ++ ':' :: (gap ++ (new ++ back)) ++ behind) =
      (before ++ '\x7b' :: (front ++ ':' :: gap)) ++ (new ++ (back ++ behind)) := by simp
  have place : width (before ++ '\x7b' :: (front ++ ':' :: gap)) = taken.value.start := by
    have size : taken.value.start = width before + 1 + width front + 1 + width gap := isText.start_eq
    rw [width_brace, width_append, width_cons, show charWidth ':' = 1 from rfl]
    omega
  have stop_eq := isText.stop_eq
  have readsFront : ∀ property ∈ partsOf taken.front, ReadsAlike (encodeChars (before ++ '\x7b' :: (inside ++ behind)))
      (encodeChars (before ++ '\x7b' :: (front ++ ':' :: (gap ++ (new ++ back)) ++ behind))) property property := by
    intro property mem
    obtain ⟨placed, filled, within⟩ := inFront property (mem_of_mem_partsOf mem)
    rw [source_eq, edited_eq]
    exact readsAlike_front placed filled (by rw [place]; exact within)
  have readsBack : ∀ property ∈ partsOf taken.back, ReadsAlike (encodeChars (before ++ '\x7b' :: (inside ++ behind)))
      (encodeChars (before ++ '\x7b' :: (front ++ ':' :: (gap ++ (new ++ back)) ++ behind))) property
        (property.moved taken.value.stop (taken.value.start + width new)) := by
    intro property mem
    obtain ⟨placed, filled, after, within⟩ := inBack property (mem_of_mem_partsOf mem)
    have whole := congrArg width source_eq
    have ends := objectIn.stop_eq
    rw [width_append, width_append, place, width_append, width_cons, width_append, show charWidth '\x7b' = 1 from rfl] at whole
    have alike := @readsAlike_behind (before ++ '\x7b' :: (front ++ ':' :: gap)) old new (back ++ behind) property placed filled
      (by rw [place]; omega) (by rw [place]; omega)
    rwa [place, ← stop_eq, ← source_eq, ← edited_eq] at alike
  -- The key stands in front of the value, so the pair keeps its name.
  have newOwn : nameOf? (encodeChars (before ++ '\x7b' :: (front ++ ':' :: (gap ++ (new ++ back)) ++ behind)))
      (taken.withValue (value.withRole .value)) = some name := by
    have window := @plainName?_window [] [] (before ++ '\x7b' :: (front ++ ':' :: gap)) (old ++ (back ++ behind))
      (new ++ (back ++ behind)) taken.key (Nat.zero_le _) keyFilled (by rw [width_nil, Nat.zero_add, place]; exact keyBefore)
    rw [width_nil, Tree.moved_zero, List.nil_append, List.nil_append, ← source_eq, ← edited_eq] at window
    rw [taken.eq_withValue, nameOf?_withValue] at own
    rw [nameOf?_withValue, window]
    exact own
  have room := room.window readsFront readsBack
  have isPair : (taken.withValue (value.withRole .value)).kind = .pair := rfl
  refine ⟨object', ⟨_, objectIn'⟩, room.isDecided parts isPair newOwn, room.pair?_eq parts isPair newOwn,
    room.setting?_eq parts isPair newOwn, ?_⟩
  rw [othersOf_eq parts newOwn, othersOf_eq split_ own]
  exact othersOf_window readsFront readsBack

end Scaffold.Edit
