import Scaffold.Proofs.Files.Disk

/-! # Disks that follow one another

A removal writes files and removes what is at a path, and it makes no directory. So a path that leads somewhere
afterwards led there before, and what is found there is new or has a new content only when a file of that name
was written.
-/

namespace Scaffold.Files

open Scaffold.Text

namespace Path

/-- A path ends in a name, and not in a way up. -/
def IsNamed (path : Path) : Prop := path.name ≠ "" ∧ path.name ≠ ".."

theorem getLast?_of_isNamed {path : Path} (named : path.IsNamed) : path.parts.getLast? = some path.name := by
  cases last : path.parts.getLast? with
  | none =>
    refine absurd ?_ named.1
    rw [name, last, Option.getD_none]
  | some part => rw [name, last, Option.getD_some]

theorem name_child (base : Path) {text : String} (parts : (ofString text).parts ≠ []) :
    (base.child text).name = (ofString text).name := by
  change (Path.append base (ofString text)).name = _
  unfold Path.append
  split
  · rfl
  · rw [name, List.getLast?_append, List.getLast?_eq_some_getLast parts, Option.some_or]
    rw [name, List.getLast?_eq_some_getLast parts]

end Path

namespace Disk

variable {rewritten made : String → Prop} {before middle after : Disk} {location : Location} {path : Path}
variable {content : Bytes}

/-- The last name of a location satisfies a condition. -/
def EndsIn (names : String → Prop) (location : Location) : Prop :=
  ∃ name, location.getLast? = some name ∧ names name

/-- One disk comes from another. No directory is new. A file has another content only when its name is one of
those that are rewritten, and it is new only when its name is one of those that are made. -/
structure Follows (rewritten made : String → Prop) (before after : Disk) : Prop where
  workingDirectory : after.workingDirectory = before.workingDirectory
  directory : ∀ {location}, after.entry? location = some .directory → before.entry? location = some .directory
  file : ∀ {location content}, after.entry? location = some (.file content) →
    before.entry? location = some (.file content) ∨
      EndsIn rewritten location ∧ (∃ old, before.entry? location = some (.file old)) ∨ EndsIn made location
  listed : ∀ {location content}, (location, .file content) ∈ after.entries →
    (∃ old, (location, Entry.file old) ∈ before.entries) ∨ EndsIn made location

namespace Follows

theorem refl (disk : Disk) : Follows rewritten made disk disk :=
  ⟨rfl, id, .inl, fun held => .inl ⟨_, held⟩⟩

theorem trans (first : Follows rewritten made before middle) (second : Follows rewritten made middle after) :
    Follows rewritten made before after := by
  refine ⟨second.workingDirectory.trans first.workingDirectory, fun held => first.directory (second.directory held),
    fun held => ?_, fun held => ?_⟩
  · rcases second.file held with same | ⟨named, old, earlier⟩ | new
    · exact first.file same
    · rcases first.file earlier with same | ⟨-, oldest⟩ | new
      · exact .inr (.inl ⟨named, old, same⟩)
      · exact .inr (.inl ⟨named, oldest⟩)
      · exact .inr (.inr new)
    · exact .inr (.inr new)
  · rcases second.listed held with ⟨old, earlier⟩ | new
    · exact first.listed earlier
    · exact .inr new

theorem mono {rewritten' made' : String → Prop} (follows : Follows rewritten made before after)
    (rewrites : ∀ name, rewritten name → rewritten' name) (makes : ∀ name, made name → made' name) :
    Follows rewritten' made' before after := by
  have widen {names names' : String → Prop} (wider : ∀ name, names name → names' name) {location : Location} :
      EndsIn names location → EndsIn names' location := by
    rintro ⟨name, last, own⟩
    exact ⟨name, last, wider name own⟩
  refine ⟨follows.workingDirectory, follows.directory, fun held => ?_, fun held => ?_⟩
  · exact (follows.file held).imp_right (Or.imp (And.imp_left (widen rewrites)) (widen makes))
  · exact (follows.listed held).imp_right (widen makes)

/-! ## Where paths lead -/

theorem locate (follows : Follows rewritten made before after) (located : after.locate path = .ok location) :
    before.locate path = .ok location := by
  have goes (names : List String) (here : Location) (ran : after.follow here names = .ok location) :
      before.follow here names = .ok location := by
    induction names generalizing here with
    | nil => exact ran
    | cons name later goes =>
      rw [Disk.follow] at ran
      split at ran
      · cases ran
      · cases ran
      · next held =>
        rw [Disk.follow, follows.directory held]
        exact goes _ ran
  rw [Disk.locate, ← follows.workingDirectory]
  exact goes _ _ located

end Follows

/-- A path that ends in a name leads to a location that ends in it. -/
theorem getLast?_of_locate {disk : Disk} (named : path.IsNamed) (located : disk.locate path = .ok location) :
    location.getLast? = some path.name := by
  have goes (names : List String) (here : Location) (last : names.getLast? = some path.name)
      (ran : disk.follow here names = .ok location) : location.getLast? = some path.name := by
    induction names generalizing here with
    | nil => cases last
    | cons name later goes =>
      rw [Disk.follow] at ran
      split at ran
      · cases ran
      · cases ran
      · cases later with
        | nil =>
          obtain rfl := Option.some.inj last
          rw [if_neg named.2] at ran
          obtain rfl := Except.ok.inj ran
          exact List.getLast?_concat
        | cons next others => exact goes _ (by rwa [List.getLast?_cons_cons] at last) ran
  exact goes _ _ (Path.getLast?_of_isNamed named) located

theorem not_endsIn_of_locate {disk : Disk} {names : String → Prop} (named : path.IsNamed)
    (located : disk.locate path = .ok location) (other : ¬ names path.name) : ¬ EndsIn names location := by
  rintro ⟨name, last, own⟩
  obtain rfl := Option.some.inj ((getLast?_of_locate named located).symm.trans last)
  exact other own

theorem contains_eq_true_iff {disk : Disk} :
    disk.contains path = true ↔ ∃ location entry, disk.locate path = .ok location ∧ disk.entry? location = some entry := by
  unfold contains at?
  rw [Option.isSome_iff_exists]
  constructor
  · rintro ⟨entry, held⟩
    split at held
    · next location located => exact ⟨location, entry, located, held⟩
    · cases held
  · rintro ⟨location, entry, located, held⟩
    exact ⟨entry, by rw [located, ← held]⟩

namespace Follows

/-- What is there was there, unless files of its name are made. -/
theorem contains (follows : Follows rewritten made before after) (named : path.IsNamed)
    (other : ¬ made path.name) (there : after.contains path = true) : before.contains path = true := by
  obtain ⟨location, entry, located, held⟩ := contains_eq_true_iff.mp there
  refine contains_eq_true_iff.mpr ⟨location, ?_⟩
  cases entry with
  | directory => exact ⟨_, follows.locate located, follows.directory held⟩
  | file content =>
    rcases follows.file held with same | ⟨-, old, same⟩ | new
    · exact ⟨_, follows.locate located, same⟩
    · exact ⟨_, follows.locate located, same⟩
    · exact absurd new (not_endsIn_of_locate named located other)

/-- A file that can be read could be read before, unless files of its name are made. -/
theorem exists_read (follows : Follows rewritten made before after) (named : path.IsNamed)
    (other : ¬ made path.name) (read : after.read path = .ok content) : ∃ old, before.read path = .ok old := by
  obtain ⟨location, located, held⟩ := read_eq_ok_iff.mp read
  rcases follows.file held with same | ⟨-, old, same⟩ | new
  · exact ⟨_, read_eq_ok_iff.mpr ⟨location, follows.locate located, same⟩⟩
  · exact ⟨_, read_eq_ok_iff.mpr ⟨location, follows.locate located, same⟩⟩
  · exact absurd new (not_endsIn_of_locate named located other)

/-- A file that can be read contained the same before, unless files of its name are written. -/
theorem read (follows : Follows rewritten made before after) (named : path.IsNamed)
    (unwritten : ¬ rewritten path.name) (other : ¬ made path.name) (read : after.read path = .ok content) :
    before.read path = .ok content := by
  obtain ⟨location, located, held⟩ := read_eq_ok_iff.mp read
  rcases follows.file held with same | ⟨named', -⟩ | new
  · exact read_eq_ok_iff.mpr ⟨location, follows.locate located, same⟩
  · exact absurd named' (not_endsIn_of_locate named located unwritten)
  · exact absurd new (not_endsIn_of_locate named located other)

/-- The files under a directory were there before, but for those whose names are made. -/
theorem mem_filesUnder (follows : Follows rewritten made before after) {directory : Path} {accepts : Path → Bool}
    (mem : path ∈ after.filesUnder directory accepts) (other : ¬ made path.name) :
    path ∈ before.filesUnder directory accepts := by
  unfold filesUnder at mem ⊢
  split at mem
  · cases mem
  · next location located =>
    rw [follows.locate located]
    simp only [List.mem_mergeSort, List.mem_filter, List.mem_filterMap, under, List.mem_map] at mem ⊢
    obtain ⟨⟨_, ⟨⟨place, entry⟩, ⟨held, inside⟩, rfl⟩, found⟩, accepted⟩ := mem
    refine ⟨?_, accepted⟩
    cases entry with
    | directory => cases found
    | file content =>
      obtain rfl := Option.some.inj found
      rcases follows.listed held with ⟨old, earlier⟩ | ⟨name, last, new⟩
      · exact ⟨_, ⟨⟨place, .file old⟩, ⟨earlier, inside⟩, rfl⟩, rfl⟩
      · -- the name of the path is the last name of the location, which is longer than that of the directory
        simp only [Bool.and_eq_true, List.isPrefixOf_iff_prefix, ne_eq, decide_not, Bool.not_eq_true',
          decide_eq_false_iff_not] at inside
        obtain ⟨⟨names, rfl⟩, apart⟩ := inside
        have some_ : names ≠ [] := fun none_ => apart (by rw [none_, List.append_nil])
        have named : (Path.mk directory.absolute (directory.parts ++ names)).name = name := by
          rw [List.getLast?_append, List.getLast?_eq_some_getLast some_, Option.some_or] at last
          rw [Path.name, List.getLast?_append, List.getLast?_eq_some_getLast some_, Option.some_or, last,
            Option.getD_some]
        rw [List.drop_left, named] at other
        exact absurd new other

end Follows

theorem isDirectory_eq_true_iff {disk : Disk} :
    disk.isDirectory path = true ↔ ∃ location, disk.locate path = .ok location ∧ disk.entry? location = some .directory := by
  unfold isDirectory at?
  rw [decide_eq_true_iff]
  constructor
  · intro held
    split at held
    · next location located => exact ⟨location, located, held⟩
    · cases held
  · rintro ⟨location, located, held⟩
    rw [located]
    exact held

theorem follow_append (disk : Disk) (here : Location) (front back : List String) :
    disk.follow here (front ++ back) = (disk.follow here front).bind fun there => disk.follow there back := by
  induction front generalizing here with
  | nil => rfl
  | cons name later splits =>
    rw [List.cons_append, Disk.follow, Disk.follow]
    split
    · rfl
    · rfl
    · exact splits _

/-- Where names lead depends on the directories only. -/
theorem follow_iff_of_directory {disk other : Disk}
    (same : ∀ location, other.entry? location = some .directory ↔ disk.entry? location = some .directory)
    {here location : Location} {names : List String} : other.follow here names = .ok location ↔ disk.follow here names = .ok location := by
  induction names generalizing here with
  | nil => rfl
  | cons name later iff =>
    rw [Disk.follow, Disk.follow]
    by_cases held : disk.entry? here = some .directory
    · rw [held, (same here).mpr held]
      exact iff
    · have held' := mt (same here).mp held
      cases found : disk.entry? here with
      | none => cases found' : other.entry? here with
        | none => simp
        | some entry => cases entry with
          | file _ => simp
          | directory => exact absurd found' held'
      | some entry => cases entry with
        | file _ => cases found' : other.entry? here with
          | none => simp
          | some entry => cases entry with
            | file _ => simp
            | directory => exact absurd found' held'
        | directory => exact absurd found held

theorem locate_iff_of_directory {disk other : Disk} (working : other.workingDirectory = disk.workingDirectory)
    (same : ∀ location, other.entry? location = some .directory ↔ disk.entry? location = some .directory) :
    other.locate path = .ok location ↔ disk.locate path = .ok location := by
  rw [Disk.locate, Disk.locate, working]
  exact follow_iff_of_directory same

/-- A directory whose files can be read is there. -/
theorem isDirectory_of_mem_filesUnder {disk : Disk} {directory : Path} {accepts : Path → Bool}
    (mem : path ∈ disk.filesUnder directory accepts) (read : disk.read path = .ok content) :
    disk.isDirectory directory = true := by
  unfold filesUnder at mem
  split at mem
  · cases mem
  · next location located =>
    refine isDirectory_eq_true_iff.mpr ⟨location, located, ?_⟩
    simp only [List.mem_mergeSort, List.mem_filter, List.mem_filterMap, under, List.mem_map] at mem
    obtain ⟨⟨_, ⟨⟨place, entry⟩, ⟨-, inside⟩, rfl⟩, found⟩, -⟩ := mem
    cases entry with
    | directory => cases found
    | file _ =>
      obtain rfl := Option.some.inj found
      simp only [Bool.and_eq_true, List.isPrefixOf_iff_prefix, ne_eq, decide_not, Bool.not_eq_true',
        decide_eq_false_iff_not] at inside
      obtain ⟨⟨names, rfl⟩, apart⟩ := inside
      obtain ⟨reached, located', -⟩ := read_eq_ok_iff.mp read
      rw [locate] at located located'
      rw [List.drop_left, follow_append, located] at located'
      cases names with
      | nil => exact absurd (List.append_nil location) apart
      | cons name later =>
        change disk.follow location (name :: later) = _ at located'
        rw [Disk.follow] at located'
        split at located'
        · cases located'
        · cases located'
        · assumption

/-! ## Writing and removing -/

theorem mem_of_held {disk : Disk} {entry : Entry} (inside : location ≠ []) (held : disk.entry? location = some entry) :
    (location, entry) ∈ disk.entries := by
  rw [ entry?, if_neg inside, Option.map_eq_some_iff] at held
  obtain ⟨⟨place, found⟩, eq, rfl⟩ := held
  have same : place = location := by simpa using List.find?_some eq
  exact same ▸ List.mem_of_find?_eq_some eq

theorem mem_of_mem_put {disk : Disk} {entry : Entry} {old : Location × Entry}
    (mem : old ∈ (disk.put location entry).entries) : old = (location, entry) ∨ old ∈ disk.entries := by
  unfold put at mem
  split at mem
  · obtain ⟨held, heldMem, rfl⟩ := List.mem_map.mp mem
    split
    · exact .inl rfl
    · exact .inr heldMem
  · rcases List.mem_append.mp mem with old | new
    · exact .inr old
    · exact .inl (List.mem_singleton.mp new)

theorem workingDirectory_put {disk : Disk} (location : Location) (entry : Entry) :
    (disk.put location entry).workingDirectory = disk.workingDirectory := by
  unfold put
  split <;> rfl

private theorem follows_put {disk : Disk} (inside : location ≠ []) (content : Bytes)
    (why : EndsIn rewritten location ∧ (∃ old, disk.entry? location = some (.file old)) ∨ EndsIn made location) :
    Follows rewritten made disk (disk.put location (.file content)) := by
  refine ⟨workingDirectory_put location _, fun held => ?_, fun held => ?_, fun held => ?_⟩
  · rw [entry?_put _ inside] at held
    split at held
    · cases held
    · exact held
  · rw [entry?_put _ inside] at held
    split at held
    · next same => exact .inr (same ▸ why)
    · exact .inl held
  · rcases mem_of_mem_put held with same | old
    · obtain ⟨rfl, -⟩ := Prod.mk.inj same
      rcases why with ⟨-, old, file⟩ | new
      · exact .inl ⟨old, mem_of_held inside file⟩
      · exact .inr new
    · exact .inl ⟨_, old⟩

/-- Writing a file makes it or rewrites it. -/
theorem follows_write (named : path.IsNamed) (written : disk.write path content = .ok after)
    (why : rewritten path.name ∧ (∃ old, disk.read path = .ok old) ∨ made path.name) :
    Follows rewritten made disk after := by
  unfold write at written
  split at written
  · cases written
  · next location located =>
    have last := getLast?_of_locate named located
    have inside : location ≠ [] := by
      rintro rfl
      cases last
    have ends : EndsIn rewritten location ∧ (∃ old, disk.entry? location = some (.file old)) ∨ EndsIn made location := by
      rcases why with ⟨own, old, read⟩ | own
      · obtain ⟨place, located', held⟩ := read_eq_ok_iff.mp read
        obtain rfl := Except.ok.inj (located.symm.trans located')
        exact .inl ⟨⟨_, last, own⟩, old, held⟩
      · exact .inr ⟨_, last, own⟩
    have put := follows_put inside content ends
    split at written
    · cases written
    · cases written
      exact put
    · split at written
      · cases written
      · cases written
      · cases written
        exact put

/-- Entries that are dropped by their locations are no longer found, and the others are. -/
theorem entry?_filter (disk : Disk) (keeps : Location → Bool) (place : Location) :
    entry? { disk with entries := disk.entries.filter fun old => keeps old.1 } place =
      if place ≠ [] ∧ keeps place = false then none else disk.entry? place := by
  by_cases root : place = []
  · rw [ entry?, entry?, if_pos root, if_pos root, if_neg fun gone => gone.1 root]
  unfold entry?
  rw [if_neg root, if_neg root, List.find?_filter]
  cases kept : keeps place with
  | false =>
    rw [if_pos ⟨root, rfl⟩, Option.map_eq_none_iff, List.find?_eq_none]
    intro old _ both
    simp only [decide_eq_true_eq] at both
    rw [both.2, kept] at both
    cases both.1
  | true =>
    rw [if_neg (by simp)]
    congr 2
    funext old
    by_cases same : old.1 = place
    · simp [same, kept]
    · simp [same]

theorem entry?_remove (disk : Disk) (location place : Location) :
    entry? (disk.remove location) place =
      if place ≠ [] ∧ location.isPrefixOf place = true then none else disk.entry? place := by
  unfold remove
  rw [ entry?_filter disk fun old => !location.isPrefixOf old]
  simp only [Bool.not_eq_false']

theorem entry?_empty (disk : Disk) (location place : Location) :
    entry? (disk.empty location) place = if location <+: place ∧ place ≠ location then none else disk.entry? place := by
  unfold empty
  rw [ entry?_filter disk fun old => old = location || !location.isPrefixOf old]
  refine ite_congr (propext ?_) (fun _ => rfl) fun _ => rfl
  simp only [Bool.or_eq_false_iff, decide_eq_false_iff_not, Bool.not_eq_false', List.isPrefixOf_iff_prefix]
  refine ⟨fun ⟨_, apart, under⟩ => ⟨under, apart⟩, fun ⟨under, apart⟩ => ⟨?_, apart, under⟩⟩
  rintro rfl
  exact apart (List.prefix_nil.mp under).symm

theorem follows_remove (disk : Disk) (location : Location) : Follows rewritten made disk (disk.remove location) := by
  have earlier {place : Location} {entry : Entry} (held : entry? (disk.remove location) place = some entry) :
      disk.entry? place = some entry := by
    rw [entry?_remove] at held
    split at held
    · cases held
    · exact held
  exact ⟨rfl, earlier, fun held => .inl (earlier held), fun held => .inl ⟨_, (List.mem_filter.mp held).1⟩⟩

theorem follows_removePath (disk : Disk) (path : Path) : Follows rewritten made disk (disk.removePath path).2 := by
  unfold removePath
  split
  · exact .refl disk
  · split
    · exact follows_remove disk _
    · exact .refl disk

/-- Nothing is at a path that was removed. -/
theorem contains_removePath (disk : Disk) (named : path.IsNamed) : (disk.removePath path).2.contains path = false := by
  refine Bool.eq_false_iff.mpr fun there => ?_
  obtain ⟨location, entry, located, held⟩ := contains_eq_true_iff.mp there
  have last := getLast?_of_locate named located
  have follows : Follows (fun _ => False) (fun _ => False) disk (disk.removePath path).2 := follows_removePath disk path
  have before := follows.locate located
  rw [removePath, before] at held
  dsimp only at held
  split at held
  · rw [entry?_remove, if_pos ⟨(by rintro rfl; cases last), by simp⟩] at held
    cases held
  · next absent => exact absent (by rw [held, Option.isSome_some])

theorem follows_unlink (unlinked : before.unlink path = .ok after) : Follows rewritten made before after := by
  unfold unlink at unlinked
  split at unlinked
  · cases unlinked
  · split at unlinked <;> cases unlinked
    exact follows_remove before _

end Disk

end Scaffold.Files
