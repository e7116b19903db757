import Scaffold.Proofs.Edit.Inserting
import Scaffold.Proofs.Edit.Standing

/-! # The configuration with the type check off

In a file that fits the grammar the edits replace one stretch of the object that configures the project, or nothing. Where the
first pair with a name is what counts under it, the object is read again afterwards, in it the type check is off, its other
properties read as they did, and there is nothing left to edit.
-/

namespace Scaffold.Edit

open Scaffold.Text Scaffold.Syntax

variable {dialect : Dialect} {before inside inside' behind text : List Char} {edits : List Text.Edit} {source : Bytes}
variable {object object' config pair value root tree : Tree} {inner : List Tree} {name : String}

/-! ## One stretch -/

theorem plain_of_all {new : List Char} (plain : (new.all fun c => c ≠ '*' && c ≠ '/') = true) : ∀ c ∈ new, c ≠ '*' ∧ c ≠ '/' := by
  intro c mem
  have own := List.all_eq_true.mp plain c mem
  rwa [Bool.and_eq_true, decide_eq_true_eq, decide_eq_true_eq] at own

/-- Between the braces of an object one stretch is replaced, by a text that closes no comment. -/
inductive Rewrites (before inside : List Char) : List Text.Edit → List Char → Prop
  | mk {front old new back : List Char} (split : inside = front ++ (old ++ back)) (solid : new ≠ [])
      (plain : ∀ c ∈ new, c ≠ '*' ∧ c ≠ '/') :
      Rewrites before inside [⟨width before + 1 + width front, width before + 1 + width front + width old, encodeChars new⟩]
        (front ++ (new ++ back))

namespace Rewrites

theorem applyEdits_eq (rewrites : Rewrites before inside edits inside') (behind : List Char) :
    applyEdits (encodeChars (before ++ '\x7b' :: (inside ++ behind))) edits =
      encodeChars (before ++ '\x7b' :: (inside' ++ behind)) := by
  cases rewrites with
  | @mk front old new back split _ _ =>
    subst split
    have applied := applyEdits_singleton (before ++ '\x7b' :: front) old new (back ++ behind)
    rw [width_brace] at applied
    simpa using applied

/-- An object in another one: what is around its braces stays. -/
theorem outer {front back : List Char} (rewrites : Rewrites (before ++ '\x7b' :: front) inside edits inside') :
    Rewrites before (front ++ '\x7b' :: (inside ++ back)) edits (front ++ '\x7b' :: (inside' ++ back)) := by
  cases rewrites with
  | @mk first old new last split solid plain =>
    subst split
    have place : width (before ++ '\x7b' :: front) + 1 + width first = width before + 1 + width (front ++ '\x7b' :: first) := by
      rw [width_brace, width_brace]
      omega
    have shape (taken : List Char) : front ++ '\x7b' :: (first ++ (taken ++ last) ++ back) =
        (front ++ '\x7b' :: first) ++ (taken ++ (last ++ back)) := by simp
    rw [place, shape new]
    exact .mk (shape old) solid plain

theorem mayReplace (rewrites : Rewrites before inside edits inside') (front back : List Char) :
    MayReplace (front ++ ('\x7b' :: inside ++ back)) (front ++ ('\x7b' :: inside' ++ back)) := by
  cases rewrites with
  | @mk first old new last split solid plain =>
    subst split
    have may := mayReplace_of_plain solid plain (front ++ '\x7b' :: first) old (last ++ back)
    simpa using may

end Rewrites

/-! ## Where the type check is off -/

/-- An object whose own setting is the word. -/
structure IsOffObject (source : Bytes) (value : Tree) : Prop where
  kind_eq : value.kind = .object
  decided : IsDecided source value "typeCheck"
  off : ∃ check, setting? source value "typeCheck" = some check ∧ check.text source = "false"

theorem setting?_of_parts_eq (same : object'.parts = object.parts) (source : Bytes) (name : String) :
    setting? source object' name = setting? source object name := by
  rw [setting?, setting?, isNamed, isNamed, definition?, definition?, same]

theorem IsDecided.of_parts_eq (decided : IsDecided source object name) (same : object'.parts = object.parts) :
    IsDecided source object' name := by
  constructor
  · rw [isNamed, same]
    exact decided.named
  · rw [definition?, pair?, same]
    exact decided.same

theorem IsOffObject.of_parts_eq (off : IsOffObject source object) (kind_eq : object'.kind = .object)
    (same : object'.parts = object.parts) : IsOffObject source object' where
  kind_eq := kind_eq
  decided := off.decided.of_parts_eq same
  off := by
    rw [setting?_of_parts_eq same]
    exact off.off

theorem IsOffObject.withRole (off : IsOffObject source object) (role : Role) : IsOffObject source (object.withRole role) :=
  off.of_parts_eq ((object.kind_withRole role).trans off.kind_eq) (by rw [Tree.parts, Tree.children_withRole, Tree.parts])

/-- Where the setting is such an object, the type check is off and there is nothing to edit. -/
theorem isOff_of_setting? (decided : IsDecided source config "typescript") (set : setting? source config "typescript" = some value)
    (off : IsOffObject source value) : isOff source config = true ∧ typeCheckEdits source config = [] := by
  obtain ⟨check, own, word⟩ := off.off
  constructor
  · rw [isOff, set, Option.any_some, off.kind_eq, own, Option.any_some, word]
    rfl
  · rw [decided.setting?_eq] at set
    rw [off.decided.setting?_eq] at own
    obtain ⟨typescript, found, child⟩ := Option.bind_eq_some_iff.mp set
    obtain ⟨pair, foundOwn, childOwn⟩ := Option.bind_eq_some_iff.mp own
    simp only [typeCheckEdits, found, child, off.kind_eq, foundOwn, childOwn, word, ne_eq, not_true_eq_false, if_false, if_true]

/-! ## What is written -/

section Written

variable (front rest : List Char)

theorem nameOf?_pairOf {key : List Char} (plain : key.contains '\\' = false) (value : Tree) :
    nameOf? (encodeChars (front ++ (key ++ rest))) (Tree.pairOf (width front) key value) = some (String.ofList key) := by
  have text : Tree.text (encodeChars (front ++ (key ++ rest)))
      (.node .propertyIdentifier (some .key) (width front) (width front + width key) []) = String.ofList key :=
    sliceText_middle front key rest
  have child : (Tree.pairOf (width front) key value).child? .key =
      some (.node .propertyIdentifier (some .key) (width front) (width front + width key) []) := rfl
  have kind : (Tree.pairOf (width front) key value).kind = .pair := rfl
  rw [nameOf?, kind]
  dsimp only
  rw [child, Option.bind_some, plainName?, text]
  simp only [Tree.stringValue?, Tree.kind, reduceCtorEq, if_false, Option.getD_none, String.toList_ofList, plain, decide_false,
    Bool.or_false, Bool.false_eq_true]

theorem text_offValue : Tree.text (encodeChars (front ++ ("typeCheck: false".toList ++ rest)))
    (.node .falseLiteral (some .value) (width front + 11) (width front + 16) []) = "false" := by
  have text := sliceText_middle (front ++ "typeCheck: ".toList) "false".toList rest
  rw [width_append, show width "typeCheck: ".toList = 11 from rfl, show width "false".toList = 5 from rfl] at text
  have shape : front ++ ("typeCheck: false".toList ++ rest) = front ++ "typeCheck: ".toList ++ ("false".toList ++ rest) := by
    rw [List.append_assoc]
    rfl
  rw [shape]
  exact text

/-- The object that is written has the type check off. -/
theorem isOffObject_offObject :
    IsOffObject (encodeChars (front ++ ("\x7b typeCheck: false \x7d".toList ++ rest))) (Tree.offObject (width front)) := by
  have shape : front ++ ("\x7b typeCheck: false \x7d".toList ++ rest) =
      front ++ "\x7b ".toList ++ ("typeCheck: false".toList ++ (" \x7d".toList ++ rest)) := by
    rw [List.append_assoc]
    rfl
  have place : width (front ++ "\x7b ".toList) = width front + 2 := width_append _ _
  have own := @nameOf?_pairOf (front ++ "\x7b ".toList) (": false".toList ++ (" \x7d".toList ++ rest)) "typeCheck".toList (by decide)
    (.node .falseLiteral none (width front + 13) (width front + 18) [])
  have text := text_offValue (front ++ "\x7b ".toList) (" \x7d".toList ++ rest)
  rw [place] at own text
  rw [shape]
  have parts : (Tree.offObject (width front)).parts = [] ++
      Tree.pairOf (width front + 2) "typeCheck".toList (.node .falseLiteral none (width front + 13) (width front + 18) []) :: [] := rfl
  have room : Room (encodeChars (front ++ "\x7b ".toList ++ ("typeCheck: false".toList ++ (" \x7d".toList ++ rest))))
      "typeCheck" [] [] := ⟨by simp, by simp, by simp⟩
  refine ⟨rfl, room.isDecided parts rfl own, _, room.setting?_eq parts rfl own, text⟩

end Written

/-! ## Edits of one object -/

/-- Where nothing counts under a name, the entry that is put in front does. -/
theorem exists_insertFirst {entry : String} {new : Nat → Tree} (objectIn : object.ObjectIn dialect before inside behind inner)
    (decided : IsDecided (encodeChars (before ++ '\x7b' :: (inside ++ behind))) object name)
    (absent : pair? (encodeChars (before ++ '\x7b' :: (inside ++ behind))) object name = none)
    (solid : entry.toList ≠ []) (inky : Inky entry.toList) (plain : ∀ c ∈ entry.toList, c ≠ '*' ∧ c ≠ '/')
    (isPair : ∀ place, (new place).kind = .pair)
    (reads : ∀ (cursor : Cursor) (place : Nat) (rest : List Char), cursor.trivia.2 = ⟨place, entry.toList ++ ',' :: rest⟩ →
      (dialect.grammar false).Derives Shape.pair cursor (cursor.trivia.1 ++ [new place]) ⟨place + width entry.toList, ',' :: rest⟩)
    (own : ∀ front rest, nameOf? (encodeChars (front ++ (entry.toList ++ rest))) (new (width front)) = some name) :
    ∃ inside' front rest object',
      Rewrites before inside [insertFirst (encodeChars (before ++ '\x7b' :: (inside ++ behind))) object (entry ++ ",")] inside' ∧
        before ++ '\x7b' :: (inside' ++ behind) = front ++ (entry.toList ++ rest) ∧
          Sets dialect name (encodeChars (before ++ '\x7b' :: (inside ++ behind))) object before inside' behind
            (new (width front)) object' := by
  obtain ⟨lead, tail, leadLayout, tailLayout, edit⟩ :=
    exists_layout (encodeChars (before ++ '\x7b' :: (inside ++ behind))) object (entry ++ ",")
  have place := width_brace before lead
  have shape : before ++ '\x7b' :: (lead ++ (entry.toList ++ ',' :: (tail ++ inside)) ++ behind) =
      (before ++ '\x7b' :: lead) ++ (entry.toList ++ (',' :: (tail ++ (inside ++ behind)))) := by simp
  have name_ := own (before ++ '\x7b' :: lead) (',' :: (tail ++ (inside ++ behind)))
  rw [← shape, place] at name_
  obtain ⟨object', sets⟩ := exists_inserted objectIn decided absent leadLayout tailLayout solid inky
    (fun cursor rest trivia => .second (.first (reads cursor _ rest trivia))) (isPair _) name_
  refine ⟨_, before ++ '\x7b' :: lead, _, object', ?_, shape, place ▸ sets⟩
  rw [edit, objectIn.start_eq]
  have written : (entry ++ ",").toList = entry.toList ++ [','] := String.toList_append
  have closes : ∀ c ∈ lead ++ (entry.toList ++ [','] ++ tail), c ≠ '*' ∧ c ≠ '/' := by
    simp only [List.forall_mem_append]
    exact ⟨leadLayout.plain, ⟨plain, List.forall_mem_singleton.mpr (by decide)⟩, tailLayout.plain⟩
  have rewrites := @Rewrites.mk before inside [] [] (lead ++ (entry.toList ++ [','] ++ tail)) inside rfl (by simp) closes
  rw [written]
  simpa using rewrites

/-- A pair of an object, with the text around its value. -/
theorem exists_taken (objectIn : object.ObjectIn dialect before inside behind inner)
    (found : pair? source object name = some pair) :
    ∃ (taken : PairAt dialect ⟨width before + 1, inside ++ behind⟩ inner ⟨object.stop, behind⟩ pair) (front gap old back : List Char),
      taken.IsText front gap old ∧ taken.behind.rest = back ++ behind ∧ inside = front ++ ':' :: (gap ++ (old ++ back)) ∧
        pair.child? .value = some taken.value := by
  have mem := List.mem_of_find?_eq_some found
  rw [objectIn.parts_eq] at mem
  obtain ⟨taken⟩ := exists_pairAt (in_braces before (inside ++ behind)) objectIn.derived (mem_of_mem_partsOf mem)
    (IsDecided.kind_eq found)
  obtain ⟨front, gap, old, isText⟩ := taken.exists_isText (in_braces before (inside ++ behind))
  have atKey := (taken.earlier.span (in_braces before (inside ++ behind))).2
  have atValue := (taken.colonDerived.span (taken.keyDerived.span atKey).2).2
  obtain ⟨back, split, -⟩ := taken.further.exists_taken rfl (taken.valueDerived.span atValue).2
  refine ⟨taken, front, gap, old, back, isText, split, ?_, ?_⟩
  · have whole : inside ++ behind = front ++ ':' :: (gap ++ (old ++ taken.behind.rest)) := isText.rest_eq
    rw [split] at whole
    refine List.append_cancel_right (whole.trans ?_)
    simp
  · have child := taken.child?_value taken.value_role
    rwa [← taken.eq_withValue] at child

/-- The value of a pair in the text between the braces. -/
theorem width_before_value {next : Cursor} {front gap old : List Char}
    (taken : PairAt dialect ⟨width before + 1, inside ++ behind⟩ inner next pair) (isText : taken.IsText front gap old) :
    taken.value.start = width before + 1 + width (front ++ ':' :: gap) ∧ taken.value.stop = taken.value.start + width old := by
  have start_eq : taken.value.start = width before + 1 + width front + 1 + width gap := isText.start_eq
  refine ⟨?_, isText.stop_eq⟩
  rw [width_append, width_cons, show charWidth ':' = 1 from rfl]
  omega

/-- Where a pair counts under a name, another value in it does. -/
theorem exists_valueReplaced {word : String} {new : Nat → Tree} (objectIn : object.ObjectIn dialect before inside behind inner)
    (decided : IsDecided (encodeChars (before ++ '\x7b' :: (inside ++ behind))) object name)
    (found : pair? (encodeChars (before ++ '\x7b' :: (inside ++ behind))) object name = some pair)
    (child : pair.child? .value = some value) (lines : LinesEnd (inside ++ behind))
    (solid : word.toList ≠ []) (inky : Inky word.toList) (plain : ∀ c ∈ word.toList, c ≠ '*' ∧ c ≠ '/')
    (free : ∀ place, (new place).role = none ∧ (new place).isComment = false)
    (reads : ∀ (cursor : Cursor) (place : Nat) (rest : List Char), nameTailLength 0 rest = 0 →
      cursor.trivia.2 = ⟨place, word.toList ++ rest⟩ →
        (dialect.grammar false).Derives (Shape.expression .enclosed) cursor (cursor.trivia.1 ++ [new place])
          ⟨place + width word.toList, rest⟩) :
    ∃ inside' front rest object' pair', Rewrites before inside [⟨value.start, value.stop, encode word⟩] inside' ∧
      before ++ '\x7b' :: (inside' ++ behind) = front ++ (word.toList ++ rest) ∧
        Sets dialect name (encodeChars (before ++ '\x7b' :: (inside ++ behind))) object before inside' behind pair' object' ∧
          pair'.child? .value = some ((new (width front)).withRole .value) := by
  obtain ⟨taken, front, gap, old, back, isText, split, inside_eq, own⟩ := exists_taken objectIn found
  obtain rfl : value = taken.value := Option.some.inj (child.symm.trans own)
  obtain ⟨start_eq, stop_eq⟩ := width_before_value taken isText
  obtain ⟨role, notComment⟩ := free taken.value.start
  obtain ⟨object', sets⟩ := exists_replaced objectIn taken isText split decided found lines solid inky
    (mayReplace_of_plain solid plain gap old taken.behind.rest) (fun cursor => reads cursor taken.value.start _ taken.quiet)
  have place : width (before ++ '\x7b' :: (front ++ ':' :: gap)) = taken.value.start := (width_brace _ _).trans start_eq.symm
  refine ⟨_, before ++ '\x7b' :: (front ++ ':' :: gap), back ++ behind, object', _, ?_, by simp, sets, ?_⟩
  · have rewrites := @Rewrites.mk before inside (front ++ ':' :: gap) old word.toList back (by rw [inside_eq]; simp) solid plain
    rw [← start_eq, ← stop_eq] at rewrites
    simpa [encode] using rewrites
  · rw [place]
    exact taken.child?_value (Tree.withRole_of_none .value role notComment)

/-- Texts that begin at the same offset are the same. -/
theorem eq_of_width_eq {first second front back : List Char} (same : first ++ front = second ++ back)
    (size : width first = width second) : first = second ∧ front = back := by
  have empty {extra : List Char} (none_ : width extra = 0) : extra = [] := by
    cases extra with
    | nil => rfl
    | cons c extra =>
      rw [width_cons] at none_
      have positive := charWidth_pos c
      omega
  rcases List.append_eq_append_iff.mp same with ⟨extra, rfl, rest⟩ | ⟨extra, rfl, rest⟩
  · obtain rfl : extra = [] := empty (by rw [width_append] at size; omega)
    exact ⟨(List.append_nil _).symm, rest⟩
  · obtain rfl : extra = [] := empty (by rw [width_append] at size; omega)
    exact ⟨List.append_nil _, rest.symm⟩

/-- A value that is an object stands between its braces in the text of the pair. -/
theorem exists_inner {front gap old back : List Char}
    (parsed : dialect.parse (encodeChars (before ++ '\x7b' :: (inside ++ behind))) = .ok root)
    (taken : PairAt dialect ⟨width before + 1, inside ++ behind⟩ inner ⟨object.stop, behind⟩ pair)
    (isText : taken.IsText front gap old) (split : taken.behind.rest = back ++ behind)
    (mem : taken.value ∈ root.preorder) (isObject : taken.value.kind = .object) :
    ∃ within trees, old = '\x7b' :: within ∧
      taken.value.ObjectIn dialect (before ++ '\x7b' :: (front ++ ':' :: gap)) within (back ++ behind) trees := by
  obtain ⟨first, within, last, trees, whole, valueIn⟩ := Dialect.exists_objectIn parsed mem isObject
  obtain ⟨start_eq, stop_eq⟩ := width_before_value taken isText
  have here : inside ++ behind = front ++ ':' :: (gap ++ (old ++ taken.behind.rest)) := isText.rest_eq
  have same : first ++ '\x7b' :: (within ++ last) = (before ++ '\x7b' :: (front ++ ':' :: gap)) ++ (old ++ (back ++ behind)) := by
    rw [← whole, here, split]
    simp
  have place : width first = width (before ++ '\x7b' :: (front ++ ':' :: gap)) := by
    rw [← valueIn.start_eq, start_eq, width_brace]
  obtain ⟨rfl, behindPlace⟩ := eq_of_width_eq same place
  have size : width ('\x7b' :: within) = width old := by
    have ends := valueIn.stop_eq
    rw [width_cons, show charWidth '\x7b' = 1 from rfl]
    rw [← valueIn.start_eq] at ends
    omega
  obtain ⟨rfl, rfl⟩ := @eq_of_width_eq ('\x7b' :: within) _ _ _ behindPlace size
  exact ⟨within, trees, rfl, valueIn⟩

/-- Where a stretch of such an object is replaced, it still counts under the name of the pair. -/
theorem exists_nested {front gap old back within within' : List Char} {trees : List Tree}
    (objectIn : object.ObjectIn dialect before inside behind inner)
    (decided : IsDecided (encodeChars (before ++ '\x7b' :: (inside ++ behind))) object name)
    (found : pair? (encodeChars (before ++ '\x7b' :: (inside ++ behind))) object name = some pair)
    (taken : PairAt dialect ⟨width before + 1, inside ++ behind⟩ inner ⟨object.stop, behind⟩ pair)
    (isText : taken.IsText front gap old) (split : taken.behind.rest = back ++ behind)
    (inside_eq : inside = front ++ ':' :: (gap ++ (old ++ back))) (lines : LinesEnd (inside ++ behind))
    (old_eq : old = '\x7b' :: within) (rewrites : Rewrites (before ++ '\x7b' :: (front ++ ':' :: gap)) within edits within')
    (innerIn : object'.ObjectIn dialect (before ++ '\x7b' :: (front ++ ':' :: gap)) within' (back ++ behind) trees) :
    ∃ inside' outer pair', Rewrites before inside edits inside' ∧
      before ++ '\x7b' :: (inside' ++ behind) =
        before ++ '\x7b' :: (front ++ ':' :: gap) ++ '\x7b' :: (within' ++ (back ++ behind)) ∧
        Sets dialect name (encodeChars (before ++ '\x7b' :: (inside ++ behind))) object before inside' behind pair' outer ∧
          pair'.child? .value = some ((object'.recast none).withRole .value) := by
  subst old_eq
  obtain ⟨start_eq, -⟩ := width_before_value taken isText
  have place : width (before ++ '\x7b' :: (front ++ ':' :: gap)) = taken.value.start := (width_brace _ _).trans start_eq.symm
  have may := rewrites.mayReplace gap taken.behind.rest
  obtain ⟨outer, sets⟩ := @exists_replaced dialect before inside behind object pair inner name front gap ('\x7b' :: within)
    ('\x7b' :: within') back (object'.recast none) objectIn taken isText split decided found lines (List.cons_ne_nil _ _)
    (by rintro c ⟨⟩; decide) may (fun cursor trivia => by
      have own : cursor.trivia.2 =
          ⟨width (before ++ '\x7b' :: (front ++ ':' :: gap)), '\x7b' :: (within' ++ (back ++ behind))⟩ := by
        rw [trivia, place, split]
        rfl
      have derived := derives_expression (innerIn.derives_object own)
      have stop_eq : object'.stop = taken.value.start + width ('\x7b' :: within') := by
        rw [innerIn.stop_eq, place, width_cons, Nat.add_assoc]
        rfl
      rwa [stop_eq, ← split] at derived)
  have isObject : (object'.recast none).isComment = false := by
    rw [Tree.isComment, show (object'.recast none).kind = .object from innerIn.kind_eq]
    rfl
  refine ⟨_, outer, _, ?_, by simp, sets, taken.child?_value (Tree.withRole_of_none .value rfl isObject)⟩
  have nested := @Rewrites.outer before within within' edits (front ++ ':' :: gap) back rewrites
  rw [inside_eq]
  simpa using nested

/-! ## The configuration -/

/-- What the edits make of an object: between the same texts stands an object in which the type check is off, the other
properties read as they did, and there is nothing left to edit. -/
structure IsSwitchedOff (dialect : Dialect) (source : Bytes) (config : Tree) (before inside' behind : List Char) (config' : Tree) :
    Prop where
  objectIn : ∃ inner, config'.ObjectIn dialect before inside' behind inner
  isOff : isOff (encodeChars (before ++ '\x7b' :: (inside' ++ behind))) config' = true
  others : othersOf (encodeChars (before ++ '\x7b' :: (inside' ++ behind))) config' "typescript" = othersOf source config "typescript"
  settled : typeCheckEdits (encodeChars (before ++ '\x7b' :: (inside' ++ behind))) config' = []

theorem Sets.isSwitchedOff {new config' : Tree} (sets : Sets dialect "typescript" source config before inside' behind new config')
    (child : new.child? .value = some value)
    (off : IsOffObject (encodeChars (before ++ '\x7b' :: (inside' ++ behind))) value) :
    IsSwitchedOff dialect source config before inside' behind config' := by
  obtain ⟨isOff, settled⟩ := isOff_of_setting? sets.decided (sets.setting?_eq.trans child) off
  exact ⟨sets.objectIn, isOff, sets.others, settled⟩

/-- What the edits do to an object that they change: one stretch of it is replaced, and it is switched off. -/
def Switches (dialect : Dialect) (config : Tree) (before inside behind : List Char) : Prop :=
  ∃ inside' config', Rewrites before inside (typeCheckEdits (encodeChars (before ++ '\x7b' :: (inside ++ behind))) config) inside' ∧
    IsSwitchedOff dialect (encodeChars (before ++ '\x7b' :: (inside ++ behind))) config before inside' behind config'

/-- The object that configures the project stands in the file. -/
theorem mem_of_configObject? (found : configObject? source root = some config) :
    config ∈ root.preorder ∧ config.kind = .object := by
  obtain ⟨call, mem, own⟩ := List.exists_of_findSome?_eq_some found
  split at own
  · obtain ⟨first, isObject⟩ := Option.filter_eq_some_iff.mp own
    obtain ⟨arguments, child, head⟩ := Option.bind_eq_some_iff.mp first
    have inCall := Tree.mem_preorder_of_mem_children (List.mem_filter.mp mem).1 (List.mem_of_find?_eq_some child)
    have inArguments := (List.mem_filter.mp (List.mem_of_mem_head? head)).1
    exact ⟨Tree.mem_preorder_of_mem_children inCall inArguments, of_decide_eq_true isObject⟩
  · cases own

section Cases

variable (configIn : config.ObjectIn dialect before inside behind inner)
  (decided : IsDecided (encodeChars (before ++ '\x7b' :: (inside ++ behind))) config "typescript")
include configIn decided

/-- Without the setting it is put in front, in full. -/
theorem switches_of_absent (absent : pair? (encodeChars (before ++ '\x7b' :: (inside ++ behind))) config "typescript" = none) :
    Switches dialect config before inside behind := by
  have entry : checkEntry = "typescript: \x7b typeCheck: false \x7d" ++ "," := by decide
  obtain ⟨inside', front, rest, config', rewrites, split, sets⟩ := @exists_insertFirst dialect before inside behind config inner
    "typescript" "typescript: \x7b typeCheck: false \x7d"
    (fun place => Tree.pairOf place "typescript".toList (Tree.offObject (place + 12))) configIn decided absent (by decide)
    (by rintro c ⟨⟩; decide) (plain_of_all (by decide)) (fun _ => rfl) (fun cursor place rest trivia => derives_offEntry trivia)
    fun front rest => nameOf?_pairOf front (": \x7b typeCheck: false \x7d".toList ++ rest) (by decide) _
  rw [Switches, typeCheckEdits, absent, entry]
  refine ⟨inside', config', rewrites, sets.isSwitchedOff rfl ?_⟩
  have off := isOffObject_offObject (front ++ "typescript: ".toList) rest
  rw [List.append_assoc, width_append] at off
  rw [split]
  exact off.withRole .value

/-- Another value than an object is replaced. -/
theorem switches_of_other (lines : LinesEnd (inside ++ behind))
    (found : pair? (encodeChars (before ++ '\x7b' :: (inside ++ behind))) config "typescript" = some pair)
    (child : pair.child? .value = some value) (other : value.kind ≠ .object) :
    Switches dialect config before inside behind := by
  obtain ⟨inside', front, rest, config', new, rewrites, split, sets, newChild⟩ := @exists_valueReplaced dialect before inside behind
    config pair value inner "typescript" "\x7b typeCheck: false \x7d" Tree.offObject configIn decided found child lines (by decide)
    (by rintro c ⟨⟩; decide) (plain_of_all (by decide)) (fun _ => ⟨rfl, rfl⟩) fun cursor place rest _ trivia => derives_offObject trivia
  have edits : typeCheckEdits (encodeChars (before ++ '\x7b' :: (inside ++ behind))) config =
      [⟨value.start, value.stop, encode "\x7b typeCheck: false \x7d"⟩] := by
    simp only [typeCheckEdits, found, child, other, ne_eq, not_false_eq_true, if_true]
  rw [Switches, edits]
  refine ⟨inside', config', rewrites, sets.isSwitchedOff newChild ?_⟩
  rw [split]
  exact (isOffObject_offObject front rest).withRole .value

/-- An edit of the object under the setting is one of the outer object. -/
theorem switches_of_nested {front gap old back within within' : List Char} {new word value' : Tree}
    (found : pair? (encodeChars (before ++ '\x7b' :: (inside ++ behind))) config "typescript" = some pair)
    (taken : PairAt dialect ⟨width before + 1, inside ++ behind⟩ inner ⟨config.stop, behind⟩ pair)
    (isText : taken.IsText front gap old) (split : taken.behind.rest = back ++ behind)
    (inside_eq : inside = front ++ ':' :: (gap ++ (old ++ back))) (lines : LinesEnd (inside ++ behind))
    (old_eq : old = '\x7b' :: within)
    (same : typeCheckEdits (encodeChars (before ++ '\x7b' :: (inside ++ behind))) config = edits)
    (rewrites : Rewrites (before ++ '\x7b' :: (front ++ ':' :: gap)) within edits within')
    (sets : Sets dialect "typeCheck" (encodeChars (before ++ '\x7b' :: (inside ++ behind))) taken.value
      (before ++ '\x7b' :: (front ++ ':' :: gap)) within' (back ++ behind) new value')
    (wordChild : new.child? .value = some word)
    (off : word.text (encodeChars (before ++ '\x7b' :: (front ++ ':' :: gap) ++ '\x7b' :: (within' ++ (back ++ behind)))) = "false") :
    Switches dialect config before inside behind := by
  obtain ⟨others, innerIn⟩ := sets.objectIn
  obtain ⟨inside', config', pair', rewritten, shape, outerSets, newChild⟩ := exists_nested configIn decided found taken isText
    split inside_eq lines old_eq rewrites innerIn
  refine ⟨inside', config', same ▸ rewritten, outerSets.isSwitchedOff newChild ?_⟩
  have offObject : IsOffObject (encodeChars (before ++ '\x7b' :: (front ++ ':' :: gap) ++ '\x7b' :: (within' ++ (back ++ behind))))
      value' := ⟨innerIn.kind_eq, sets.decided, word, sets.setting?_eq.trans wordChild, off⟩
  rw [shape]
  have recast : IsOffObject _ (value'.recast none) := offObject.of_parts_eq innerIn.kind_eq rfl
  exact recast.withRole .value

/-- In an object under the setting the own setting is put in front or replaced, or it is the word already. -/
theorem switches_of_object (parsed : dialect.parse (encodeChars (before ++ '\x7b' :: (inside ++ behind))) = .ok root)
    (mem : config ∈ root.preorder) (lines : LinesEnd (inside ++ behind))
    (found : pair? (encodeChars (before ++ '\x7b' :: (inside ++ behind))) config "typescript" = some pair)
    (child : pair.child? .value = some value) (isObject : value.kind = .object)
    (innerDecided : IsDecided (encodeChars (before ++ '\x7b' :: (inside ++ behind))) value "typeCheck") :
    (typeCheckEdits (encodeChars (before ++ '\x7b' :: (inside ++ behind))) config = [] ∧
        IsSwitchedOff dialect (encodeChars (before ++ '\x7b' :: (inside ++ behind))) config before inside behind config) ∨
      Switches dialect config before inside behind := by
  obtain ⟨taken, front, gap, old, back, isText, split, inside_eq, own⟩ := exists_taken configIn found
  obtain rfl : value = taken.value := Option.some.inj (child.symm.trans own)
  have inConfig := (List.mem_filter.mp (List.mem_of_find?_eq_some found)).1
  have valueMem := Tree.mem_preorder_of_mem_children (Tree.mem_preorder_of_mem_children mem inConfig) (List.mem_of_find?_eq_some child)
  obtain ⟨within, trees, old_eq, valueIn⟩ := exists_inner parsed taken isText split valueMem isObject
  have whole : before ++ '\x7b' :: (inside ++ behind) =
      before ++ '\x7b' :: (front ++ ':' :: gap) ++ '\x7b' :: (within ++ (back ++ behind)) := by
    rw [inside_eq, old_eq]
    simp
  have innerLines : LinesEnd (within ++ (back ++ behind)) := by
    have suffix : inside ++ behind = (front ++ ':' :: (gap ++ ['\x7b'])) ++ (within ++ (back ++ behind)) := by
      rw [inside_eq, old_eq]
      simp
    rw [suffix] at lines
    exact lines.behind
  cases inner? : pair? (encodeChars (before ++ '\x7b' :: (inside ++ behind))) taken.value "typeCheck" with
  | none =>
    rw [whole] at innerDecided inner?
    obtain ⟨within', first, rest, value', rewrites, shape, sets⟩ := @exists_insertFirst dialect _ within (back ++ behind) taken.value
      trees "typeCheck" "typeCheck: false"
      (fun place => Tree.pairOf place "typeCheck".toList (.node .falseLiteral none (place + 11) (place + 16) [])) valueIn innerDecided
      inner? (by decide) (by rintro c ⟨⟩; decide) (plain_of_all (by decide)) (fun _ => rfl)
      (fun cursor place rest trivia => derives_offPair trivia (nameTailLength_of_break (by decide) (by decide) rest))
      fun front rest => nameOf?_pairOf front (": false".toList ++ rest) (by decide) _
    rw [← whole] at rewrites sets inner?
    refine .inr (switches_of_nested configIn decided found taken isText split inside_eq lines old_eq ?_ rewrites sets rfl ?_)
    · simp only [typeCheckEdits, found, child, isObject, inner?, ne_eq, not_true_eq_false, if_false]
      rfl
    · rw [shape]
      exact text_offValue first rest
  | some check =>
    obtain ⟨innerTaken, -, -, -, -, -, -, -, innerChild⟩ := exists_taken valueIn inner?
    by_cases word : innerTaken.value.text (encodeChars (before ++ '\x7b' :: (inside ++ behind))) = "false"
    · have set : setting? (encodeChars (before ++ '\x7b' :: (inside ++ behind))) config "typescript" = some taken.value := by
        rw [decided.setting?_eq, found, Option.bind_some, own]
      have innerSet : setting? (encodeChars (before ++ '\x7b' :: (inside ++ behind))) taken.value "typeCheck" =
          some innerTaken.value := by
        rw [innerDecided.setting?_eq, inner?, Option.bind_some, innerChild]
      obtain ⟨off, settled⟩ := isOff_of_setting? decided set ⟨isObject, innerDecided, _, innerSet, word⟩
      exact .inl ⟨settled, ⟨_, configIn⟩, off, rfl, settled⟩
    · have edits : typeCheckEdits (encodeChars (before ++ '\x7b' :: (inside ++ behind))) config =
          [⟨innerTaken.value.start, innerTaken.value.stop, encode "false"⟩] := by
        simp only [typeCheckEdits, found, child, isObject, inner?, innerChild, word, ne_eq, not_true_eq_false, if_false]
      rw [whole] at innerDecided inner?
      obtain ⟨within', first, rest, value', new, rewrites, shape, sets, newChild⟩ := @exists_valueReplaced dialect _ within
        (back ++ behind) taken.value check innerTaken.value trees "typeCheck" "false"
        (fun place => .node .falseLiteral none place (place + 5) []) valueIn innerDecided inner? innerChild innerLines (by decide)
        (by rintro c ⟨⟩; decide) (plain_of_all (by decide)) (fun _ => ⟨rfl, rfl⟩)
        fun cursor place rest quiet trivia => derives_false trivia quiet
      rw [← whole] at sets
      refine .inr (switches_of_nested configIn decided found taken isText split inside_eq lines old_eq edits rewrites sets newChild ?_)
      rw [shape]
      exact sliceText_middle first "false".toList rest

end Cases

/-- In a file that fits the grammar and configures the project with an object, in which the first pair under `typescript` is what
counts there, and, where that is an object, the first pair under `typeCheck` in it: the edits replace the object by one in which
the type check is off, the other properties read as they did, and there is nothing left to edit. -/
theorem check_is_off_in_object (parsed : dialect.parse (encodeChars text) = .ok root) (lines : LinesEnd text)
    (found : configObject? (encodeChars text) root = some config)
    (decided : IsDecided (encodeChars text) config "typescript")
    (innerDecided : ∀ value, setting? (encodeChars text) config "typescript" = some value → value.kind = .object →
      IsDecided (encodeChars text) value "typeCheck") :
    ∃ before inside inside' behind config', text = before ++ '\x7b' :: (inside ++ behind) ∧
      config.start = width before ∧ config.stop = width before + 1 + width inside ∧
        applyEdits (encodeChars text) (typeCheckEdits (encodeChars text) config) =
          encodeChars (before ++ '\x7b' :: (inside' ++ behind)) ∧
            IsSwitchedOff dialect (encodeChars text) config before inside' behind config' := by
  obtain ⟨mem, isObject⟩ := mem_of_configObject? found
  obtain ⟨before, inside, behind, inner, rfl, configIn⟩ := Dialect.exists_objectIn parsed mem isObject
  have behindLines : LinesEnd (inside ++ behind) := by
    refine @LinesEnd.behind (before ++ ['\x7b']) _ ?_
    simpa using lines
  suffices switched : ∃ inside' config', applyEdits (encodeChars (before ++ '\x7b' :: (inside ++ behind)))
      (typeCheckEdits (encodeChars (before ++ '\x7b' :: (inside ++ behind))) config) =
        encodeChars (before ++ '\x7b' :: (inside' ++ behind)) ∧
          IsSwitchedOff dialect (encodeChars (before ++ '\x7b' :: (inside ++ behind))) config before inside' behind config' by
    obtain ⟨inside', config', applied, off⟩ := switched
    exact ⟨before, inside, inside', behind, config', rfl, configIn.start_eq, configIn.stop_eq, applied, off⟩
  cases typescript : pair? (encodeChars (before ++ '\x7b' :: (inside ++ behind))) config "typescript" with
  | none =>
    obtain ⟨inside', config', rewrites, off⟩ := switches_of_absent configIn decided typescript
    exact ⟨inside', config', rewrites.applyEdits_eq behind, off⟩
  | some pair =>
    obtain ⟨taken, -, -, -, -, -, -, -, child⟩ := exists_taken configIn typescript
    by_cases isObject : taken.value.kind = .object
    · have set : setting? (encodeChars (before ++ '\x7b' :: (inside ++ behind))) config "typescript" = some taken.value := by
        rw [decided.setting?_eq, typescript, Option.bind_some, child]
      rcases switches_of_object configIn decided parsed mem behindLines typescript child isObject (innerDecided _ set isObject) with
        ⟨none_, off⟩ | ⟨inside', config', rewrites, off⟩
      · refine ⟨inside, config, ?_, off⟩
        rw [none_, applyEdits, List.mergeSort_nil, applyOrdered, List.drop_zero]
      · exact ⟨inside', config', rewrites.applyEdits_eq behind, off⟩
    · obtain ⟨inside', config', rewrites, off⟩ := switches_of_other configIn decided behindLines typescript child isObject
      exact ⟨inside', config', rewrites.applyEdits_eq behind, off⟩

/-- A file that configures the project by a statement of one call. -/
def configFile (stop : Nat) (config : Tree) : Tree :=
  .node .program none 0 (stop + 1) [.node .expressionStatement none 0 stop [.node .callExpression none 0 stop
    [.node .identifier (some .function) 0 16 [], .node .arguments (some .arguments) 16 stop
      [.node (.token "(") none 16 17 [], config, .node (.token ")") none (stop - 1) stop []]]]]

def nestedText : List Char := "defineNuxtConfig(\x7btypescript:\x7ba:b\x7d\x7d)\n".toList

def nestedSetting : Tree :=
  .node .object (some .value) 29 34 [.node (.token "\x7b") none 29 30 [],
    .node .pair none 30 33 [.node .propertyIdentifier (some .key) 30 31 [], .node (.token ":") none 31 32 [],
      .node .identifier (some .value) 32 33 []], .node (.token "\x7d") none 33 34 []]

def nestedConfig : Tree :=
  .node .object none 17 35 [.node (.token "\x7b") none 17 18 [],
    .node .pair none 18 34 [.node .propertyIdentifier (some .key) 18 28 [], .node (.token ":") none 28 29 [], nestedSetting],
    .node (.token "\x7d") none 34 35 []]

set_option maxRecDepth 8000 in
theorem nested_check_is_off :
    Dialect.plain.parse (encodeChars nestedText) = .ok (configFile 36 nestedConfig) ∧
      configObject? (encodeChars nestedText) (configFile 36 nestedConfig) = some nestedConfig ∧
      ∃ before inside inside' behind config', nestedText = before ++ '\x7b' :: (inside ++ behind) ∧
        nestedConfig.start = width before ∧ nestedConfig.stop = width before + 1 + width inside ∧
          applyEdits (encodeChars nestedText) (typeCheckEdits (encodeChars nestedText) nestedConfig) =
            encodeChars (before ++ '\x7b' :: (inside' ++ behind)) ∧
              IsSwitchedOff .plain (encodeChars nestedText) nestedConfig before inside' behind config' := by
  have parsed : Dialect.plain.parse (encodeChars nestedText) = .ok (configFile 36 nestedConfig) := by decide +kernel
  have found : configObject? (encodeChars nestedText) (configFile 36 nestedConfig) = some nestedConfig := by decide +kernel
  have decided : IsDecided (encodeChars nestedText) nestedConfig "typescript" := ⟨by decide +kernel, by decide +kernel⟩
  have set : setting? (encodeChars nestedText) nestedConfig "typescript" = some nestedSetting := by decide +kernel
  have innerDecided : IsDecided (encodeChars nestedText) nestedSetting "typeCheck" := ⟨by decide +kernel, by decide +kernel⟩
  refine ⟨parsed, found, check_is_off_in_object parsed (LinesEnd.of_all (by decide)) found decided fun value other _ => ?_⟩
  obtain rfl := Option.some.inj (set.symm.trans other)
  exact innerDecided

def shadowedText : List Char := "defineNuxtConfig(\x7btypescript\x7d)\n".toList

def shadowedConfig : Tree :=
  .node .object none 17 29 [.node (.token "\x7b") none 17 18 [], .node .shorthandPropertyIdentifier none 18 28 [],
    .node (.token "\x7d") none 28 29 []]

def doubledText : List Char := "defineNuxtConfig(\x7b typescript: \x7b typeCheck: false \x7d,typescript\x7d)\n".toList

def doubledConfig : Tree :=
  .node .object none 17 63 [.node (.token "\x7b") none 17 18 [],
    .node .pair none 19 51 [.node .propertyIdentifier (some .key) 19 29 [], .node (.token ":") none 29 30 [],
      (Tree.offObject 31).withRole .value], .node (.token ",") none 51 52 [],
    .node .shorthandPropertyIdentifier none 52 62 [], .node (.token "\x7d") none 62 63 []]

set_option maxRecDepth 8000 in
/-- A shorthand counts behind the setting that is put in front of it. -/
theorem shorthand_shadows_setting :
    Dialect.plain.parse (encodeChars shadowedText) = .ok (configFile 30 shadowedConfig) ∧
      configObject? (encodeChars shadowedText) (configFile 30 shadowedConfig) = some shadowedConfig ∧
      isNamed (encodeChars shadowedText) shadowedConfig = true ∧
      applyEdits (encodeChars shadowedText) (typeCheckEdits (encodeChars shadowedText) shadowedConfig) = encodeChars doubledText ∧
      Dialect.plain.parse (encodeChars doubledText) = .ok (configFile 64 doubledConfig) ∧
      configObject? (encodeChars doubledText) (configFile 64 doubledConfig) = some doubledConfig ∧
      isOff (encodeChars doubledText) doubledConfig = false := by
  have edits : typeCheckEdits (encodeChars shadowedText) shadowedConfig =
      [⟨18, 18, encode " typescript: \x7b typeCheck: false \x7d,"⟩] := by decide +kernel
  refine ⟨by decide +kernel, by decide +kernel, by decide +kernel, ?_, by decide +kernel, by decide +kernel, by decide +kernel⟩
  rw [edits, applyEdits, List.mergeSort_singleton]
  decide +kernel

end Scaffold.Edit
