import Mathlib.Data.List.Basic
import Scaffold.Edit.TypeCheck
import Scaffold.Proofs.Syntax.Shifting
import Scaffold.Proofs.Syntax.Elements

/-! # What the settings of an object are

In an object whose properties have names that can be read off, the property that comes last with a name defines what is
under it. The edits take the first pair with the name, so they settle the matter where this is the definition that counts.
What an object defines is read off the texts of its properties, and these may stand in another text as well.
-/

namespace Scaffold.Edit

open Scaffold.Text Scaffold.Syntax

/-! ## Names -/

/-- The name that a key spells, unless it is computed or written with an escape. -/
def plainName? (source : Bytes) (key : Tree) : Option String :=
  let name := (key.stringValue? source).getD (key.text source)
  if key.kind = .computedPropertyName || name.toList.contains '\\' then none else some name

/-- The name of a property, where it can be read off. -/
def nameOf? (source : Bytes) (property : Tree) : Option String :=
  match property.kind with
  | .pair => (property.child? .key).bind (plainName? source)
  | .methodDefinition => (property.child? .name).bind (plainName? source)
  | .shorthandPropertyIdentifier => plainName? source property
  | _ => none

/-- Whether the names of all properties can be read off: there are no spreads and no computed names. -/
def isNamed (source : Bytes) (object : Tree) : Bool :=
  object.parts.all fun property => (nameOf? source property).isSome

/-- The property that counts under a name: of several the last. -/
def definition? (source : Bytes) (object : Tree) (name : String) : Option Tree :=
  object.parts.reverse.find? fun property => nameOf? source property = some name

/-- The value of a setting, where it is written out. -/
def setting? (source : Bytes) (object : Tree) (name : String) : Option Tree :=
  if isNamed source object then
    (definition? source object name).bind fun property => if property.kind = .pair then property.child? .value else none
  else none

/-- The texts of the other properties. -/
def othersOf (source : Bytes) (object : Tree) (name : String) : List String :=
  (object.parts.filter fun property => nameOf? source property ≠ some name).map (Tree.text source)

/-- Whether the type check is off: the setting is an object whose own setting is the word. -/
def isOff (source : Bytes) (config : Tree) : Bool :=
  (setting? source config "typescript").any fun typescript =>
    typescript.kind = .object && (setting? source typescript "typeCheck").any fun check => check.text source = "false"

/-- The first pair with a name is what counts under it, or nothing is defined under it. -/
structure IsDecided (source : Bytes) (object : Tree) (name : String) : Prop where
  named : isNamed source object = true
  same : definition? source object name = pair? source object name

variable {source source' : Bytes} {object property new pair : Tree} {name : String} {front back : List Tree} {start stop : Nat}

/-- Among properties with names the edits find the pairs by their names. -/
theorem isPairOf_iff (named : (nameOf? source property).isSome = true) :
    (property.kind = .pair && (property.child? .key).any fun key => (key.stringValue? source).getD (key.text source) = name) = true ↔
      property.kind = .pair ∧ nameOf? source property = some name := by
  rw [Bool.and_eq_true, decide_eq_true_eq]
  refine and_congr_right fun isPair => ?_
  have eq : nameOf? source property = (property.child? .key).bind (plainName? source) := by rw [nameOf?, isPair]
  rw [eq] at named ⊢
  cases key : property.child? .key with
  | none => simp
  | some key =>
    rw [key, Option.bind_some] at named
    simp only [Option.bind_some, Option.any_some, decide_eq_true_eq]
    unfold plainName? at named ⊢
    dsimp only at named ⊢
    split
    · next spelled => rw [if_pos spelled] at named; cases named
    · rw [Option.some.injEq]

/-- Around a pair that counts under a name there is no earlier pair with it and nothing later. -/
structure Room (source : Bytes) (name : String) (front back : List Tree) : Prop where
  named : ∀ property ∈ front ++ back, (nameOf? source property).isSome = true
  earlier : ∀ property ∈ front, property.kind = .pair → nameOf? source property ≠ some name
  later : ∀ property ∈ back, nameOf? source property ≠ some name

namespace Room

section Pair

variable (room : Room source name front back) (parts_eq : object.parts = front ++ new :: back) (isPair : new.kind = .pair)
  (own : nameOf? source new = some name)
include room parts_eq isPair own

theorem pair?_eq : pair? source object name = some new := by
  rw [pair?, parts_eq, List.find?_append, List.find?_eq_none.mpr, Option.none_or, List.find?_cons_of_pos]
  · exact (isPairOf_iff (by rw [own]; rfl)).mpr ⟨isPair, own⟩
  · intro property mem found
    obtain ⟨isPair, same⟩ := (isPairOf_iff (room.named property (List.mem_append_left _ mem))).mp found
    exact room.earlier property mem isPair same

omit isPair in
theorem definition?_eq : definition? source object name = some new := by
  rw [definition?, parts_eq, List.reverse_append, List.reverse_cons, List.append_assoc, List.find?_append,
    List.find?_eq_none.mpr, Option.none_or, List.singleton_append, List.find?_cons_of_pos]
  · simp [own]
  · intro property mem found
    exact room.later property (List.mem_reverse.mp mem) (of_decide_eq_true found)

theorem isNamed_eq : isNamed source object = true := by
  rw [isNamed, parts_eq, List.all_eq_true]
  intro property mem
  rcases List.mem_append.mp mem with mem | mem
  · exact room.named property (List.mem_append_left _ mem)
  · rcases List.mem_cons.mp mem with rfl | mem
    · rw [own]
      rfl
    · exact room.named property (List.mem_append_right _ mem)

theorem isDecided : IsDecided source object name :=
  ⟨room.isNamed_eq parts_eq isPair own, by rw [room.definition?_eq parts_eq own, room.pair?_eq parts_eq isPair own]⟩

theorem setting?_eq : setting? source object name = new.child? .value := by
  rw [setting?, if_pos (room.isNamed_eq parts_eq isPair own), room.definition?_eq parts_eq own, Option.bind_some, if_pos isPair]

end Pair

end Room

theorem othersOf_eq (parts_eq : object.parts = front ++ new :: back) (own : nameOf? source new = some name) :
    othersOf source object name = ((front ++ back).filter fun property => nameOf? source property ≠ some name).map
      (Tree.text source) := by
  rw [othersOf, parts_eq, List.filter_append, List.filter_append, List.filter_cons_of_neg (by simp [own])]

namespace IsDecided

theorem kind_eq (found : pair? source object name = some pair) : pair.kind = .pair := by
  have own := List.find?_some found
  rw [Bool.and_eq_true, decide_eq_true_eq] at own
  exact own.1

variable (decided : IsDecided source object name)
include decided

theorem named_of_mem (mem : property ∈ object.parts) : (nameOf? source property).isSome = true :=
  List.all_eq_true.mp decided.named property mem

theorem setting?_eq : setting? source object name = (pair? source object name).bind (Tree.child? · .value) := by
  rw [setting?, if_pos decided.named, decided.same]
  cases found : pair? source object name with
  | none => rfl
  | some pair => rw [Option.bind_some, Option.bind_some, if_pos (kind_eq found)]

theorem room_of_none (absent : pair? source object name = none) : Room source name [] object.parts where
  named _ mem := decided.named_of_mem mem
  earlier _ mem := absurd mem List.not_mem_nil
  later property mem same := by
    have none_ := List.find?_eq_none.mp (decided.same.trans absent) property (List.mem_reverse.mpr mem)
    exact none_ (decide_eq_true same)

theorem room (nodup : object.parts.Nodup) (found : pair? source object name = some pair)
    (split : object.parts = front ++ pair :: back) : nameOf? source pair = some name ∧ Room source name front back := by
  obtain ⟨own, back', front', order, later⟩ := List.find?_eq_some_iff_append.mp (decided.same.trans found)
  obtain ⟨-, first, last, order', earlier⟩ := List.find?_eq_some_iff_append.mp found
  have reversed : object.parts = front'.reverse ++ pair :: back'.reverse := by
    rw [← List.reverse_reverse object.parts, order, List.reverse_append, List.reverse_cons, List.append_assoc,
      List.singleton_append]
  -- A property stands in one place only.
  rw [split] at nodup
  obtain ⟨-, tail, apart⟩ := List.nodup_append.mp nodup
  have unique {front' back' : List Tree} (other : object.parts = front' ++ pair :: back') : front = front' ∧ back = back' := by
    obtain ⟨same, -, rest⟩ := (List.append_cons_inj_of_notMem (fun mem => apart pair mem pair List.mem_cons_self rfl)
      (List.nodup_cons.mp tail).1).mp (split.symm.trans other)
    exact ⟨same, rest⟩
  obtain ⟨rfl, -⟩ := unique order'
  obtain ⟨-, rfl⟩ := unique reversed
  refine ⟨of_decide_eq_true own, ?_, ?_, ?_⟩
  · intro property mem
    refine decided.named_of_mem ?_
    rw [split]
    exact (List.mem_append.mp mem).elim (List.mem_append_left _) fun mem => List.mem_append_right _ (List.mem_cons_of_mem _ mem)
  · intro property mem isPair same
    have none_ := earlier property mem
    rw [(isPairOf_iff (decided.named_of_mem (by rw [split]; exact List.mem_append_left _ mem))).mpr ⟨isPair, same⟩] at none_
    cases none_
  · intro property mem same
    have none_ := later property (List.mem_reverse.mp mem)
    rw [decide_eq_true same] at none_
    cases none_

end IsDecided


/-! ## Stretches of a text -/

section Windows

variable {before before' taken behind behind' : List Char}

/-- A stretch of a text reads the same in another text that has it. -/
theorem sliceText_window (after : width before ≤ start) (later : width before ≤ stop) (within : stop ≤ width before + width taken) :
    sliceText (encodeChars (before' ++ (taken ++ behind'))) (start + width before' - width before)
        (stop + width before' - width before) =
      sliceText (encodeChars (before ++ (taken ++ behind))) start stop := by
  obtain ⟨first, rfl⟩ := Nat.exists_eq_add_of_le after
  obtain ⟨last, rfl⟩ := Nat.exists_eq_add_of_le later
  rcases Nat.le_total first last with ordered | turned
  · have slices (front behind : List Char) : slice (encodeChars (front ++ (taken ++ behind))) (width front + first)
        (width front + last) = slice (encodeChars taken) first last := by
      have middle := @slice_middle (encodeChars front) (encodeChars taken) (encodeChars behind) first last
        (by rw [length_encodeChars]; omega) ordered
      rwa [length_encodeChars, ← encodeChars_append, ← encodeChars_append] at middle
    rw [sliceText, sliceText, slices, ← slices before' behind']
    congr 4 <;> omega
  · have none_ {bytes : Bytes} {start stop : Nat} (le : stop ≤ start) : slice bytes start stop = [] := by
      rw [slice, Nat.sub_eq_zero_of_le le, List.take_zero]
    rw [sliceText, sliceText, none_ (by omega), none_ (by omega)]

variable {tree : Tree} (after : width before ≤ tree.start) (filled : tree.start < tree.stop)
  (within : tree.stop ≤ width before + width taken)
include after filled within

theorem text_window : (tree.moved (width before) (width before')).text (encodeChars (before' ++ (taken ++ behind'))) =
    tree.text (encodeChars (before ++ (taken ++ behind))) := by
  rw [Tree.text, Tree.text, Tree.start_moved, Tree.stop_moved]
  exact sliceText_window after (by omega) within

theorem plainName?_window :
    plainName? (encodeChars (before' ++ (taken ++ behind'))) (tree.moved (width before) (width before')) =
      plainName? (encodeChars (before ++ (taken ++ behind))) tree := by
  have inner := @sliceText_window (tree.start + 1) (tree.stop - 1) before before' taken behind behind' (by omega) (by omega)
    (by omega)
  rw [show tree.start + 1 + width before' - width before = tree.start + width before' - width before + 1 by omega,
    show tree.stop - 1 + width before' - width before = tree.stop + width before' - width before - 1 by omega] at inner
  unfold plainName?
  rw [text_window after filled within, Tree.stringValue?, Tree.stringValue?, Tree.kind_moved, Tree.start_moved,
    Tree.stop_moved, inner]

end Windows

/-- A property that reads as another one does in its source. -/
structure ReadsAlike (source source' : Bytes) (property property' : Tree) : Prop where
  kind_eq : property'.kind = property.kind
  name_eq : nameOf? source' property' = nameOf? source property
  text_eq : property'.text source' = property.text source

theorem readsAlike_window {before before' taken behind behind' : List Char} {tree : Tree} (placed : tree.Placed)
    (after : width before ≤ tree.start) (filled : tree.start < tree.stop) (within : tree.stop ≤ width before + width taken) :
    ReadsAlike (encodeChars (before ++ (taken ++ behind))) (encodeChars (before' ++ (taken ++ behind'))) tree
      (tree.moved (width before) (width before')) where
  kind_eq := Tree.kind_moved tree
  name_eq := by
    have key (role : Role) :
        ((tree.moved (width before) (width before')).child? role).bind (plainName? (encodeChars (before' ++ (taken ++ behind')))) =
          (tree.child? role).bind (plainName? (encodeChars (before ++ (taken ++ behind)))) := by
      rw [Tree.child?_moved]
      cases found : tree.child? role with
      | none => rfl
      | some child =>
        have bounds := placed.children.bounds (List.mem_of_find?_eq_some found)
        exact plainName?_window (by omega) bounds.2.1 (by omega)
    unfold nameOf?
    rw [Tree.kind_moved, key, key, plainName?_window after filled within]
  text_eq := text_window after filled within

section Around

variable {before old new behind : List Char} {tree : Tree} (placed : tree.Placed) (filled : tree.start < tree.stop)
include placed filled

/-- What is in front of a stretch reads alike whatever stands there. -/
theorem readsAlike_front (within : tree.stop ≤ width before) :
    ReadsAlike (encodeChars (before ++ (old ++ behind))) (encodeChars (before ++ (new ++ behind))) tree tree := by
  have reads := @readsAlike_window [] [] before (old ++ behind) (new ++ behind) tree placed (Nat.zero_le _) filled
    (by rw [width_nil, Nat.zero_add]; exact within)
  rwa [width_nil, Tree.moved_zero] at reads

/-- What is behind a stretch reads alike whatever stands there, in its new place. -/
theorem readsAlike_behind (after : width before + width old ≤ tree.start)
    (within : tree.stop ≤ width before + width old + width behind) :
    ReadsAlike (encodeChars (before ++ (old ++ behind))) (encodeChars (before ++ (new ++ behind))) tree
      (tree.moved (width before + width old) (width before + width new)) := by
  have reads := @readsAlike_window (before ++ old) (before ++ new) behind [] [] tree placed (by rw [width_append]; exact after)
    filled (by rw [width_append]; exact within)
  simpa only [List.append_nil, List.append_assoc, width_append] using reads

end Around

/-- The properties around a pair leave it as much room in another text that they stand in. -/
theorem Room.window (room : Room source name front back)
    (readsFront : ∀ property ∈ front, ReadsAlike source source' property property)
    (readsBack : ∀ property ∈ back, ReadsAlike source source' property (property.moved start stop)) :
    Room source' name front (back.map (Tree.moved start stop)) where
  named := by
    simp only [List.mem_append, List.mem_map]
    rintro _ (mem | ⟨property, mem, rfl⟩)
    · rw [(readsFront _ mem).name_eq]
      exact room.named _ (List.mem_append_left _ mem)
    · rw [(readsBack property mem).name_eq]
      exact room.named _ (List.mem_append_right _ mem)
  earlier property mem isPair := by
    rw [(readsFront property mem).name_eq]
    exact room.earlier property mem isPair
  later := by
    simp only [List.mem_map]
    rintro _ ⟨property, mem, rfl⟩
    rw [(readsBack property mem).name_eq]
    exact room.later property mem

theorem othersOf_window (readsFront : ∀ property ∈ front, ReadsAlike source source' property property)
    (readsBack : ∀ property ∈ back, ReadsAlike source source' property (property.moved start stop)) :
    ((front ++ back.map (Tree.moved start stop)).filter fun property =>
        nameOf? source' property ≠ some name).map (Tree.text source') =
      ((front ++ back).filter fun property => nameOf? source property ≠ some name).map (Tree.text source) := by
  have same {trees : List Tree} {move : Tree → Tree} (reads : ∀ property ∈ trees, ReadsAlike source source' property (move property)) :
      ((trees.map move).filter fun property => nameOf? source' property ≠ some name).map (Tree.text source') =
        (trees.filter fun property => nameOf? source property ≠ some name).map (Tree.text source) := by
    induction trees with
    | nil => rfl
    | cons tree later same =>
      have own := reads tree List.mem_cons_self
      have others := same fun property mem => reads property (List.mem_cons_of_mem _ mem)
      rw [List.map_cons, List.filter_cons, List.filter_cons, own.name_eq]
      split
      · rw [List.map_cons, List.map_cons, own.text_eq, others]
      · exact others
  have front_ := @same front id readsFront
  rw [List.map_id] at front_
  rw [List.filter_append, List.filter_append, List.map_append, List.map_append, front_, same readsBack]

end Scaffold.Edit
