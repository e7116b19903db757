import Scaffold.Files.Disk

/-! # Files that are written

Where a path leads depends on which entries are directories and not on what files contain. So a file that
can be read can be written, and holds afterwards what was written, while everything else is as before.
-/

namespace Scaffold.Files

open Scaffold.Text

/-- Whether an entry is a directory. -/
def Entry.isDirectory : Entry → Bool
  | .directory => true
  | .file _ => false

namespace Disk

variable {disk other : Disk} {location : Location} {path : Path}

/-- Two disks have their directories and their files at the same locations. -/
def SameShape (disk other : Disk) : Prop :=
  disk.workingDirectory = other.workingDirectory ∧
    ∀ location, (disk.entry? location).map Entry.isDirectory = (other.entry? location).map Entry.isDirectory

theorem SameShape.follow (same : SameShape disk other) (here : Location) (names : List String) :
    disk.follow here names = other.follow here names := by
  induction names generalizing here with
  | nil => rfl
  | cons name later follow =>
    have kind := same.2 here
    unfold Disk.follow
    cases found : disk.entry? here with
    | none =>
      rw [found, Option.map_none, eq_comm, Option.map_eq_none_iff] at kind
      rw [kind]
    | some entry =>
      rw [found, Option.map_some, eq_comm, Option.map_eq_some_iff] at kind
      obtain ⟨entry', found', kind⟩ := kind
      rw [found']
      cases entry <;> cases entry' <;> first | rfl | exact follow _ | cases kind

theorem SameShape.locate (same : SameShape disk other) (path : Path) : disk.locate path = other.locate path := by
  unfold Disk.locate
  rw [same.1, same.follow]

theorem SameShape.isFile (same : SameShape disk other) (path : Path) : disk.isFile path = other.isFile path := by
  unfold Disk.isFile at?
  rw [same.locate]
  cases other.locate path with
  | error cause => rfl
  | ok location =>
    have kind := same.2 location
    dsimp only
    cases found : disk.entry? location with
    | none =>
      rw [found, Option.map_none, eq_comm, Option.map_eq_none_iff] at kind
      rw [kind]
    | some entry =>
      rw [found, Option.map_some, eq_comm, Option.map_eq_some_iff] at kind
      obtain ⟨entry', found', kind⟩ := kind
      rw [found']
      cases entry <;> cases entry' <;> first | rfl | cases kind

/-! ## Putting a file -/

theorem entry?_put (entry : Entry) (named : location ≠ []) (place : Location) :
    entry? (disk.put location entry) place = if place = location then some entry else disk.entry? place := by
  unfold put entry?
  by_cases root : place = []
  · rw [if_pos root, if_pos root, if_neg (by rw [root]; exact named.symm)]
  rw [if_neg root, if_neg root]
  split
  · next there =>
    have keeps : ((fun old : Location × Entry => decide (old.1 = place)) ∘
        fun old => if old.1 = location then (location, entry) else old) = fun old => decide (old.1 = place) := by
      funext old
      dsimp only [Function.comp]
      split
      · next same => rw [same]
      · rfl
    rw [List.find?_map, keeps, Option.map_map]
    by_cases same : place = location
    · subst same
      obtain ⟨old, mem, own⟩ := List.any_eq_true.mp there
      cases found : disk.entries.find? (fun old => decide (old.1 = place)) with
      | none => exact absurd own (List.find?_eq_none.mp found old mem)
      | some held =>
        have at_ : held.1 = place := by simpa using List.find?_some found
        simp [at_]
    · rw [if_neg same]
      cases found : disk.entries.find? (fun old => decide (old.1 = place)) with
      | none => rfl
      | some held =>
        have at_ : held.1 = place := by simpa using List.find?_some found
        simp [at_, same]
  · next absent =>
    rw [List.find?_append]
    by_cases same : place = location
    · subst same
      have none_ : disk.entries.find? (fun old => decide (old.1 = place)) = none :=
        List.find?_eq_none.mpr fun old mem own => absent (List.any_eq_true.mpr ⟨old, mem, own⟩)
      simp [none_]
    · rw [if_neg same, List.find?_singleton, if_neg (by simpa using Ne.symm same), Option.or_none]

theorem ne_root_of_file {content : Bytes} (held : disk.entry? location = some (.file content)) : location ≠ [] := by
  rintro rfl
  rw [ entry?, if_pos rfl] at held
  cases held

theorem ne_root_of_absent (absent : disk.entry? location = none) : location ≠ [] := by
  rintro rfl
  cases absent

/-- Another content of a file is no other shape of the disk. -/
theorem sameShape_put {old : Bytes} (held : disk.entry? location = some (.file old)) (new : Bytes) :
    SameShape (disk.put location (.file new)) disk := by
  refine ⟨by unfold put; split <;> rfl, fun place => ?_⟩
  rw [entry?_put _ (ne_root_of_file held)]
  split
  · next same => rw [same, held]; rfl
  · rfl

/-! ## Reading and writing -/

theorem read_eq_ok_iff {content : Bytes} :
    disk.read path = .ok content ↔
      ∃ location, disk.locate path = .ok location ∧ disk.entry? location = some (.file content) := by
  unfold read
  constructor
  · intro ran
    split at ran
    · cases ran
    · next location located =>
      split at ran <;> cases ran
      exact ⟨location, located, ‹_›⟩
  · rintro ⟨location, located, held⟩
    rw [located]
    dsimp only
    rw [held]

theorem isFile_of_read {content : Bytes} (held : disk.read path = .ok content) : disk.isFile path = true := by
  obtain ⟨location, located, file⟩ := read_eq_ok_iff.mp held
  rw [isFile, at?, located]
  dsimp only
  rw [file]

/-- A file that can be read can be written, and what was written is read. -/
theorem exists_write_of_read {old : Bytes} (held : disk.read path = .ok old) (new : Bytes) :
    ∃ location, disk.locate path = .ok location ∧
      disk.write path new = .ok (disk.put location (.file new)) ∧ (disk.put location (.file new)).read path = .ok new := by
  obtain ⟨location, located, file⟩ := read_eq_ok_iff.mp held
  refine ⟨location, located, ?_, read_eq_ok_iff.mpr ⟨location, ?_, ?_⟩⟩
  · rw [write, located]
    dsimp only
    rw [file]
  · rw [(sameShape_put file new).locate, located]
  · rw [entry?_put _ (ne_root_of_file file), if_pos rfl]

end Disk

end Scaffold.Files
