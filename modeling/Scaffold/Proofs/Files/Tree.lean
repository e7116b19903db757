import Mathlib.Data.List.Induction
import Mathlib.Data.List.Infix
import Mathlib.Data.List.Nodup
import Scaffold.Proofs.Files.Following

/-! # Disks that are trees

Everything on a disk lies in a directory, at a location of plain names. Writing files and making directories leaves
it so. What they add lies where their paths lead, and everything that led somewhere still leads there.
-/

namespace Scaffold.Files

open Scaffold.Text

/-- A name that something in a directory can have. -/
def IsPlain (name : String) : Prop := name ≠ "" ∧ name ≠ "." ∧ name ≠ ".." ∧ '/' ∉ name.toList

instance (name : String) : Decidable (IsPlain name) := inferInstanceAs (Decidable (_ ∧ _ ∧ _ ∧ _))

namespace Path

/-- The parts of a path are plain names and ways up. -/
def IsProper (path : Path) : Prop := ∀ part ∈ path.parts, IsPlain part ∨ part = ".."

instance (path : Path) : Decidable path.IsProper := inferInstanceAs (Decidable (∀ part ∈ path.parts, _ ∨ _))

theorem partsBetween_of_notMem {separator : Char} {text : List Char} (absent : separator ∉ text) :
    partsBetween separator text = [text] := by
  induction text with
  | nil => rfl
  | cons c rest single =>
    obtain ⟨other, others⟩ := not_or.mp (List.mem_cons.not.mp absent)
    rw [partsBetween, single others]
    dsimp only
    rw [if_neg (Ne.symm other)]

theorem ofString_of_isPlain {name : String} (plain : IsPlain name) : ofString name = ⟨false, [name]⟩ := by
  obtain ⟨nonempty, dot, -, slash⟩ := plain
  have relative : ¬ name.toList.head? = some '/' := fun head => slash (List.mem_of_head? head)
  unfold ofString
  rw [partsBetween_of_notMem slash, List.map_singleton, String.ofList_toList]
  simp [relative, nonempty, dot]

theorem child_of_isPlain {name : String} (plain : IsPlain name) (base : Path) :
    base.child name = ⟨base.absolute, base.parts ++ [name]⟩ := by
  unfold child
  rw [ofString_of_isPlain plain]
  rfl

theorem isNamed_child {name : String} (plain : IsPlain name) (base : Path) :
    (base.child name).IsNamed ∧ (base.child name).name = name := by
  have own : (base.child name).name = name := by
    rw [child_of_isPlain plain, Path.name, List.getLast?_concat, Option.getD_some]
  rw [IsNamed, own]
  exact ⟨⟨plain.1, plain.2.2.1⟩, rfl⟩

/-- A text leads down from any directory. -/
def LeadsDown (text : String) : Prop := (ofString text).absolute = false ∧ ".." ∉ (ofString text).parts

instance (text : String) : Decidable (LeadsDown text) := inferInstanceAs (Decidable (_ ∧ _))

end Path

namespace Disk

variable {disk before middle after : Disk} {location here place : Location} {path base : Path} {name : String}
variable {content : Bytes} {entry : Entry}

/-! ## Where paths lead -/

theorem follow_eq_append {names : List String} (down : ".." ∉ names) (ran : disk.follow here names = .ok location) :
    location = here ++ names := by
  induction names generalizing here with
  | nil =>
    cases ran
    rw [List.append_nil]
  | cons name later appends =>
    obtain ⟨own, others⟩ := not_or.mp (List.mem_cons.not.mp down)
    rw [follow] at ran
    split at ran
    · cases ran
    · cases ran
    · rw [if_neg (Ne.symm own)] at ran
      rw [appends others ran, List.append_assoc, List.singleton_append]

theorem follow_singleton (plain : IsPlain name) (held : disk.entry? here = some .directory) :
    disk.follow here [name] = .ok (here ++ [name]) := by
  rw [follow, held]
  dsimp only
  rw [if_neg plain.2.2.1, follow]

theorem locate_child_of_relative {text : String} (relative : (Path.ofString text).absolute = false) :
    disk.locate (base.child text) = (disk.locate base).bind fun here => disk.follow here (Path.ofString text).parts := by
  change disk.locate (Path.append base (Path.ofString text)) = _
  unfold Path.append
  rw [if_neg (by rw [relative]; decide)]
  exact follow_append disk _ _ _

/-- What leads down from a path lies under the location of the path. -/
theorem exists_of_locate_child {text : String} (down : Path.LeadsDown text)
    (located : disk.locate (base.child text) = .ok location) :
    ∃ here, disk.locate base = .ok here ∧ location = here ++ (Path.ofString text).parts := by
  rw [locate_child_of_relative down.1] at located
  cases found : disk.locate base with
  | error cause =>
    rw [found] at located
    cases located
  | ok here =>
    rw [found] at located
    exact ⟨here, rfl, follow_eq_append down.2 located⟩

theorem locate_child (plain : IsPlain name) (located : disk.locate base = .ok here)
    (held : disk.entry? here = some .directory) : disk.locate (base.child name) = .ok (here ++ [name]) := by
  rw [locate_child_of_relative (by rw [Path.ofString_of_isPlain plain]), located, Path.ofString_of_isPlain plain]
  exact follow_singleton plain held

theorem leadsDown_of_isPlain (plain : IsPlain name) : Path.LeadsDown name := by
  unfold Path.LeadsDown
  rw [Path.ofString_of_isPlain plain]
  exact ⟨rfl, fun mem => plain.2.2.1 (List.mem_singleton.mp mem).symm⟩

theorem eq_of_locate_child (plain : IsPlain name) (located : disk.locate base = .ok here)
    (reached : disk.locate (base.child name) = .ok location) : location = here ++ [name] := by
  obtain ⟨here', located', rfl⟩ := exists_of_locate_child (leadsDown_of_isPlain plain) reached
  obtain rfl := Except.ok.inj (located.symm.trans located')
  rw [Path.ofString_of_isPlain plain]

theorem isPlain_of_follow {names : List String} (proper : ∀ part ∈ names, IsPlain part ∨ part = "..")
    (plain : ∀ part ∈ here, IsPlain part) (ran : disk.follow here names = .ok location) :
    ∀ part ∈ location, IsPlain part := by
  induction names generalizing here with
  | nil =>
    cases ran
    exact plain
  | cons name later follows =>
    obtain ⟨own, others⟩ := List.forall_mem_cons.mp proper
    rw [follow] at ran
    split at ran
    · cases ran
    · cases ran
    · refine follows others (fun part mem => ?_) ran
      split at mem
      · exact plain part (List.mem_of_mem_dropLast mem)
      · next down =>
        rcases List.mem_append.mp mem with old | new
        · exact plain part old
        · obtain rfl := List.mem_singleton.mp new
          exact own.resolve_right down

/-! ## Trees -/

/-- Everything lies in a directory, once, and under plain names; the working directory is there. -/
structure IsTree (disk : Disk) : Prop where
  plain : ∀ old ∈ disk.entries, ∀ name ∈ old.1, IsPlain name
  distinct : (disk.entries.map Prod.fst).Nodup
  parent : ∀ old ∈ disk.entries, disk.entry? old.1.dropLast = some .directory
  here : disk.entry? disk.workingDirectory = some .directory

instance (disk : Disk) : Decidable disk.IsTree :=
  decidable_of_iff ((∀ old ∈ disk.entries, ∀ name ∈ old.1, IsPlain name) ∧ (disk.entries.map Prod.fst).Nodup ∧
      (∀ old ∈ disk.entries, disk.entry? old.1.dropLast = some .directory) ∧
      disk.entry? disk.workingDirectory = some .directory)
    ⟨fun ⟨plain, distinct, parent, here⟩ => ⟨plain, distinct, parent, here⟩,
      fun tree => ⟨tree.plain, tree.distinct, tree.parent, tree.here⟩⟩

namespace IsTree

variable (tree : disk.IsTree)

include tree

theorem directory_dropLast (held : disk.entry? location = some entry) :
    disk.entry? location.dropLast = some .directory := by
  by_cases root : location = []
  · subst root
    rfl
  · exact tree.parent _ (mem_of_held root held)

theorem isPlain_of_mem (held : disk.entry? location = some entry) (mem : name ∈ location) : IsPlain name := by
  have inside : location ≠ [] := List.ne_nil_of_mem mem
  exact tree.plain _ (mem_of_held inside held) name mem

/-- Whatever is on the way to something is a directory. -/
theorem directory_of_prefix (held : disk.entry? place = some entry) (above : location <+: place) (apart : location ≠ place) :
    disk.entry? location = some .directory := by
  obtain ⟨names, rfl⟩ := above
  induction names using List.reverseRecOn generalizing entry with
  | nil => exact absurd (List.append_nil location).symm apart
  | append_singleton names name directory =>
    have parent := tree.directory_dropLast held
    rw [← List.append_assoc, List.dropLast_concat] at parent
    by_cases last : names = []
    · rwa [last, List.append_nil] at parent
    · exact directory parent fun same => last (List.append_right_eq_self.mp same.symm)

theorem isPlain_of_locate (proper : path.IsProper) (located : disk.locate path = .ok location) :
    ∀ part ∈ location, IsPlain part := by
  refine isPlain_of_follow proper (fun part mem => ?_) located
  split at mem
  · cases mem
  · exact tree.isPlain_of_mem tree.here mem

theorem put (inside : location ≠ []) (plain : ∀ part ∈ location, IsPlain part)
    (parent : disk.entry? location.dropLast = some .directory)
    (kind : disk.entry? location = some .directory → entry = .directory) : (disk.put location entry).IsTree := by
  have stays (place : Location) (held : disk.entry? place = some .directory) :
      entry? (disk.put location entry) place = some .directory := by
    rw [entry?_put _ inside]
    split
    · next same => rw [kind (same ▸ held)]
    · exact held
  refine ⟨fun old mem => ?_, ?_, fun old mem => ?_, ?_⟩
  · rcases mem_of_mem_put mem with rfl | earlier
    · exact plain
    · exact tree.plain old earlier
  · unfold Disk.put
    split
    · rw [List.map_map]
      have same : (Prod.fst ∘ fun old : Location × Entry => if old.1 = location then (location, entry) else old) = Prod.fst := by
        funext old
        dsimp only [Function.comp]
        split
        · next own => exact own.symm
        · rfl
      rw [same]
      exact tree.distinct
    · next absent =>
      rw [List.map_append, List.nodup_append]
      refine ⟨tree.distinct, List.nodup_singleton _, fun first mem second own => ?_⟩
      rintro rfl
      obtain rfl := List.mem_singleton.mp own
      obtain ⟨old, held, eq⟩ := List.mem_map.mp mem
      exact absent (List.any_eq_true.mpr ⟨old, held, decide_eq_true eq⟩)
  · rcases mem_of_mem_put mem with rfl | earlier
    · exact stays _ parent
    · exact stays _ (tree.parent old earlier)
  · rw [workingDirectory_put]
    exact stays _ tree.here

/-- What a path leads to where a file can be written. -/
theorem write (proper : path.IsProper) (written : disk.write path content = .ok after) : after.IsTree := by
  unfold Disk.write at written
  split at written
  · cases written
  · next location located =>
    have plain := tree.isPlain_of_locate proper located
    split at written
    · cases written
    · next held =>
      cases written
      refine tree.put (ne_root_of_file held) plain (tree.directory_dropLast held) fun same => ?_
      rw [held] at same
      cases same
    · next absent =>
      split at written
      · cases written
      · cases written
      · next parent =>
        cases written
        refine tree.put (ne_root_of_absent absent) plain parent fun same => ?_
        rw [absent] at same
        cases same

theorem held_of_mem (inside : location ≠ []) (mem : (location, entry) ∈ disk.entries) : disk.entry? location = some entry := by
  rw [ entry?, if_neg inside]
  cases found : disk.entries.find? (fun old => decide (old.1 = location)) with
  | none => exact absurd (decide_eq_true rfl) (List.find?_eq_none.mp found _ mem)
  | some old =>
    have own : old.1 = location := by simpa using List.find?_some found
    rw [List.inj_on_of_nodup_map tree.distinct (List.mem_of_find?_eq_some found) mem own]
    rfl

/-- Names that lead down to something can be followed. -/
theorem follow_of_held {names : List String} (held : disk.entry? (here ++ names) = some entry) :
    disk.follow here names = .ok (here ++ names) := by
  induction names generalizing here with
  | nil => rw [follow, List.append_nil]
  | cons name later follows =>
    have own : IsPlain name := tree.isPlain_of_mem held (by simp)
    have directory : disk.entry? here = some .directory :=
      tree.directory_of_prefix held (List.prefix_append _ _) fun same => List.cons_ne_nil _ _ (List.append_right_eq_self.mp same.symm)
    have split : here ++ name :: later = here ++ [name] ++ later := by simp
    rw [follow, directory]
    dsimp only
    rw [if_neg own.2.2.1, split]
    exact follows (split ▸ held)

/-- With a file, nothing else is removed. -/
theorem entry?_remove_of_file (held : disk.entry? location = some (.file content)) (place : Location) :
    entry? (disk.remove location) place = if place = location then none else disk.entry? place := by
  rw [entry?_remove]
  by_cases same : place = location
  · rw [if_pos same, if_pos ⟨same ▸ ne_root_of_file held, by simp [same]⟩]
  · rw [if_neg same]
    split
    · next gone =>
      refine (Option.eq_none_iff_forall_ne_some.mpr fun entry found => ?_).symm
      have directory := tree.directory_of_prefix found (List.isPrefixOf_iff_prefix.mp gone.2) (Ne.symm same)
      rw [held] at directory
      cases directory
    · rfl

theorem remove (held : disk.entry? location = some (.file content)) : (disk.remove location).IsTree := by
  have stays {place : Location} (directory : disk.entry? place = some .directory) :
      entry? (disk.remove location) place = some .directory := by
    rw [tree.entry?_remove_of_file held, if_neg]
    · exact directory
    · rintro rfl
      rw [held] at directory
      cases directory
  exact ⟨fun old mem => tree.plain old (List.mem_filter.mp mem).1,
    (List.filter_sublist.map Prod.fst).nodup tree.distinct,
    fun old mem => stays (tree.parent old (List.mem_filter.mp mem).1), stays tree.here⟩

/-- A path that leads to a file ends in the name of the file. -/
theorem isNamed_of_read (read : disk.read path = .ok content) : path.IsNamed := by
  obtain ⟨location, located, held⟩ := read_eq_ok_iff.mp read
  -- neither the start of a path nor what lies above a directory is a file
  have other (directory : disk.entry? location = some .directory) : path.IsNamed := by
    rw [held] at directory
    cases directory
  rcases List.eq_nil_or_concat path.parts with none_ | ⟨names, last, parts⟩
  · rw [locate, none_, follow] at located
    obtain rfl := Except.ok.inj located
    refine other ?_
    split
    · rfl
    · exact tree.here
  · have name : path.name = last := by rw [Path.name, parts, List.concat_eq_append, List.getLast?_concat, Option.getD_some]
    rw [locate, parts, List.concat_eq_append, follow_append] at located
    cases reached : disk.follow (if path.absolute then [] else disk.workingDirectory) names with
    | error cause =>
      rw [reached] at located
      cases located
    | ok here =>
      rw [reached] at located
      change disk.follow here [last] = _ at located
      rw [follow] at located
      split at located
      · cases located
      · cases located
      · next directory =>
        obtain rfl := Except.ok.inj located
        split at other
        · exact other (tree.directory_dropLast directory)
        · next down =>
          rw [if_neg down] at held
          have plain := tree.isPlain_of_mem held (List.mem_append_right here (List.mem_singleton_self last))
          exact ⟨name ▸ plain.1, name ▸ down⟩

end IsTree

theorem write_eq_put (written : disk.write path content = .ok after) :
    ∃ location, disk.locate path = .ok location ∧ location ≠ [] ∧ disk.entry? location ≠ some .directory ∧
      after = disk.put location (.file content) := by
  unfold write at written
  split at written
  · cases written
  · next location located =>
    refine ⟨location, located, ?_⟩
    split at written
    · cases written
    · next held =>
      cases written
      exact ⟨ne_root_of_file held, by simp [held], rfl⟩
    · next absent =>
      refine ⟨ne_root_of_absent absent, by simp [absent], ?_⟩
      split at written <;> cases written
      rfl

/-- What is read from a file after it was written is what was written. -/
theorem eq_of_read_write {old : Bytes} (named : path.IsNamed) (written : disk.write path content = .ok after)
    (read : after.read path = .ok old) : old = content := by
  have follows : Follows (fun _ => False) (fun _ => True) disk after := follows_write named written (.inr trivial)
  obtain ⟨reached, located, held⟩ := read_eq_ok_iff.mp read
  obtain ⟨location, located', some_, -, rfl⟩ := write_eq_put written
  obtain rfl := Except.ok.inj (located'.symm.trans (follows.locate located))
  rw [entry?_put _ some_, if_pos rfl] at held
  cases held
  rfl

/-! ## Disks that grow -/

/-- One disk comes from another by additions at some locations. Directories stay. -/
structure Grows (added : Location → Prop) (before after : Disk) : Prop where
  workingDirectory : after.workingDirectory = before.workingDirectory
  directory : ∀ {location}, before.entry? location = some .directory → after.entry? location = some .directory
  elsewhere : ∀ {location}, ¬ added location → after.entry? location = before.entry? location

namespace Grows

variable {added added' : Location → Prop}

theorem refl (disk : Disk) : Grows added disk disk := ⟨rfl, id, fun _ => rfl⟩

theorem trans (first : Grows added before middle) (second : Grows added middle after) : Grows added before after :=
  ⟨second.workingDirectory.trans first.workingDirectory, fun held => second.directory (first.directory held),
    fun apart => (second.elsewhere apart).trans (first.elsewhere apart)⟩

theorem mono (grows : Grows added before after) (wider : ∀ location, added location → added' location) :
    Grows added' before after :=
  ⟨grows.workingDirectory, grows.directory, fun apart => grows.elsewhere fun own => apart (wider _ own)⟩

theorem follow (grows : Grows added before after) {names : List String} (ran : before.follow here names = .ok location) :
    after.follow here names = .ok location := by
  induction names generalizing here with
  | nil => exact ran
  | cons name later follows =>
    rw [Disk.follow] at ran ⊢
    split at ran
    · cases ran
    · cases ran
    · next held =>
      rw [grows.directory held]
      exact follows ran

theorem locate (grows : Grows added before after) (located : before.locate path = .ok location) :
    after.locate path = .ok location := by
  rw [Disk.locate, grows.workingDirectory]
  exact grows.follow located

end Grows

theorem grows_put (inside : location ≠ []) (kind : disk.entry? location = some .directory → entry = .directory) :
    Grows (· = location) disk (disk.put location entry) := by
  refine ⟨workingDirectory_put _ _, fun held => ?_, fun apart => ?_⟩
  · rw [entry?_put _ inside]
    split
    · next same => rw [kind (same ▸ held)]
    · exact held
  · rw [entry?_put _ inside, if_neg apart]

theorem grows_write (located : disk.locate path = .ok location) (written : disk.write path content = .ok after) :
    Grows (· = location) disk after ∧ after.entry? location = some (.file content) := by
  obtain ⟨reached, located', inside, other, rfl⟩ := write_eq_put written
  obtain rfl := Except.ok.inj (located.symm.trans located')
  exact ⟨grows_put inside fun held => absurd held other, by rw [entry?_put _ inside, if_pos rfl]⟩

/-- A disk on which there is a directory, because there was one or because nothing was in its place. -/
inductive Begun (disk : Disk) (here : Location) : Disk → Prop
  | there (held : disk.entry? here = some .directory) : Begun disk here disk
  | made (absent : disk.entry? here = none) : Begun disk here (disk.put here .directory)

namespace Begun

variable {begun : Disk}

theorem held (begins : Begun disk here begun) : begun.entry? here = some .directory := by
  cases begins with
  | there held => exact held
  | made absent => rw [entry?_put _ (ne_root_of_absent absent), if_pos rfl]

theorem grows (begins : Begun disk here begun) : Grows (· = here) disk begun := by
  cases begins with
  | there held => exact .refl _
  | made absent => exact grows_put (ne_root_of_absent absent) fun _ => rfl

end Begun

/-- One step of making directories: it ends at a file, or there is a directory then, and it goes on. -/
theorem makeFrom_cases (disk : Disk) (here : Location) (names : List String) :
    (∃ cause left, disk.makeFrom here names = .error (cause, left, disk)) ∨
      ∃ begun, Begun disk here begun ∧ disk.makeFrom here names =
        match names with
        | [] => .ok begun
        | name :: later => begun.makeFrom (if name = ".." then here.dropLast else here ++ [name]) later := by
  rw [makeFrom]
  cases found : disk.entry? here with
  | none =>
    refine .inr ⟨_, .made found, ?_⟩
    cases names <;> rfl
  | some entry =>
    cases entry with
    | file content => exact .inl ⟨_, _, rfl⟩
    | directory =>
      refine .inr ⟨_, .there found, ?_⟩
      cases names <;> rfl

/-- From a directory, a name leads to a place in one. -/
theorem IsTree.next (tree : disk.IsTree) (held : disk.entry? here = some .directory) (plain : ∀ part ∈ here, IsPlain part)
    (proper : IsPlain name ∨ name = "..") :
    (∀ part ∈ if name = ".." then here.dropLast else here ++ [name], IsPlain part) ∧
      disk.entry? (if name = ".." then here.dropLast else here ++ [name]).dropLast = some .directory := by
  split
  · have up := tree.directory_dropLast held
    exact ⟨fun part mem => tree.isPlain_of_mem up mem, tree.directory_dropLast up⟩
  · next down =>
    rw [List.dropLast_concat]
    refine ⟨fun part mem => ?_, held⟩
    rcases List.mem_append.mp mem with old | new
    · exact plain part old
    · obtain rfl := List.mem_singleton.mp new
      exact proper.resolve_right down

theorem makeDirectories_eq_ok (made : disk.makeDirectories path = .ok after) :
    disk.makeFrom (if path.absolute then [] else disk.workingDirectory) path.parts = .ok after := by
  unfold makeDirectories at made
  split at made
  · next grown eq =>
    cases made
    exact eq
  · cases made

/-- The directories that are there already are passed through. -/
theorem makeFrom_append {front back : List String} (ran : disk.follow here front = .ok location) :
    disk.makeFrom here (front ++ back) = disk.makeFrom location back := by
  induction front generalizing here with
  | nil =>
    cases ran
    rfl
  | cons name later passes =>
    rw [Disk.follow] at ran
    split at ran
    · cases ran
    · cases ran
    · next directory =>
      rw [List.cons_append, makeFrom]
      simp only [directory, Option.isNone_some, Bool.false_eq_true, if_false]
      exact passes ran

/-- A directory in a directory is there already, or it is new, or a file is in its place. -/
theorem makeDirectories_child (plain : IsPlain name) (located : disk.locate base = .ok here)
    (held : disk.entry? here = some .directory) :
    disk.makeDirectories (base.child name) =
      match disk.entry? (here ++ [name]) with
      | none => .ok (disk.put (here ++ [name]) .directory)
      | some .directory => .ok disk
      | some (.file _) => .error (⟨.exists, base.child name⟩, disk) := by
  unfold makeDirectories
  rw [Path.child_of_isPlain plain]
  dsimp only
  rw [makeFrom_append located, makeFrom]
  simp only [held, Option.isNone_some, Bool.false_eq_true, if_false, plain.2.2.1]
  rw [makeFrom]
  cases found : disk.entry? (here ++ [name]) with
  | none => rfl
  | some entry =>
    cases entry with
    | file content => simp
    | directory => rfl

end Disk

end Scaffold.Files
