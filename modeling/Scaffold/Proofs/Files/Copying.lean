import Scaffold.Files.Copy
import Scaffold.Proofs.Files.Tree

/-! # What a copy leaves in the directory it is made in

An entry of a directory is copied to its name in the target, or into the directory that has this name there. The
copies of the other entries lie elsewhere. So when nothing is reported, the target has every file of the template
with its content.
-/

namespace Scaffold.Files

open Scaffold.Text

namespace Disk

variable {disk after : Disk} {here : Location} {source target : Path} {name : String} {content : Bytes}
variable {reports : List String} {kept : Disk → Prop}

/-- Everything on a disk lies under plain names. -/
def HasPlainNames (disk : Disk) : Prop := ∀ old ∈ disk.entries, ∀ name ∈ old.1, IsPlain name

theorem HasPlainNames.isPlain_of_mem (names : disk.HasPlainNames) {location : Location} {entry : Entry}
    (held : disk.entry? location = some entry) (mem : name ∈ location) : IsPlain name :=
  names _ (mem_of_held (List.ne_nil_of_mem mem) held) name mem

theorem HasPlainNames.isPlain_concat (names : disk.HasPlainNames) (plain : IsPlain name) {location : Location} {entry : Entry}
    (held : disk.entry? location = some entry) : ∀ part ∈ location ++ [name], IsPlain part := by
  intro part mem
  rcases List.mem_append.mp mem with old | new
  · exact names.isPlain_of_mem held old
  · exact List.mem_singleton.mp new ▸ plain

theorem IsTree.hasPlainNames (tree : disk.IsTree) : disk.HasPlainNames := tree.plain

theorem HasPlainNames.put (names : disk.HasPlainNames) {location : Location} {entry : Entry}
    (plain : ∀ name ∈ location, IsPlain name) : (disk.put location entry).HasPlainNames := by
  intro old mem
  rcases mem_of_mem_put mem with rfl | earlier
  · exact plain
  · exact names old earlier

/-- A property of disks with plain names that is kept when something is added to a directory. -/
structure KeptByAdding (kept : Disk → Prop) : Prop where
  names : ∀ {disk : Disk}, kept disk → disk.HasPlainNames
  put : ∀ {disk : Disk} {location : Location} {entry : Entry}, kept disk → location ≠ [] → (∀ name ∈ location, IsPlain name) →
    disk.entry? location.dropLast = some .directory → (disk.entry? location = some .directory → entry = .directory) →
    kept (disk.put location entry)

theorem keptByAdding_hasPlainNames : KeptByAdding HasPlainNames := ⟨id, fun names _ plain _ _ => names.put plain⟩

/-- A path leads to a directory of a disk that has a property. -/
structure Reaches (kept : Disk → Prop) (disk : Disk) (target : Path) (here : Location) : Prop where
  tree : kept disk
  located : disk.locate target = .ok here
  directory : disk.entry? here = some .directory

theorem Reaches.grows {added : Location → Prop} (reaches : Reaches kept disk target here) (tree : kept after)
    (grows : Grows added disk after) : Reaches kept after target here :=
  ⟨tree, grows.locate reaches.located, grows.directory reaches.directory⟩

theorem Reaches.child (reaches : Reaches kept disk target here) (plain : IsPlain name)
    (held : disk.entry? (here ++ [name]) = some .directory) : Reaches kept disk (target.child name) (here ++ [name]) :=
  ⟨reaches.tree, locate_child plain reaches.located reaches.directory, held⟩

/-- The locations of a name in a directory and of everything under it. -/
def Under (here : Location) (name : String) (location : Location) : Prop := here ++ [name] <+: location

theorem under_append (here : Location) (name : String) (names : List String) : Under here name (here ++ [name] ++ names) :=
  List.prefix_append _ _

theorem eq_of_under {first second : String} {location : Location} (one : Under here first location)
    (other : Under here second location) : first = second := by
  have same : here ++ [first] = here ++ [second] :=
    (List.prefix_of_prefix_length_le one other (by simp)).eq_of_length (by simp)
  simpa using same

/-! ## Files -/

/-- Where the copy of a file lies: at its name, or in the directory of this name. -/
def IsCopyPlace (disk : Disk) (here : Location) (name : String) (place : Location) : Prop :=
  place = here ++ [name] ∨ place = here ++ [name] ++ [name] ∧ disk.entry? (here ++ [name]) = some .directory

theorem IsCopyPlace.under {place : Location} (isPlace : IsCopyPlace disk here name place) : Under here name place := by
  rcases isPlace with rfl | ⟨rfl, -⟩
  · exact List.prefix_rfl
  · exact under_append here name [name]

theorem IsCopyPlace.grows {added : Location → Prop} {place : Location} (isPlace : IsCopyPlace disk here name place)
    (grows : Grows added disk after) : IsCopyPlace after here name place :=
  isPlace.imp_right (And.imp_right grows.directory)

theorem selfCopyReports_ne_nil (name : String) (target : Path) : selfCopyReports name target ≠ [] := by
  intro none_
  rw [selfCopyReports, List.map_eq_nil_iff] at none_
  have length := congrArg List.length none_
  rw [String.length_toList, String.length_append, String.length_append, String.length_append] at length
  exact absurd length (by simp)

/-- A file is copied, or there is a report. -/
theorem copyFile_spec (adding : KeptByAdding kept) (source : Path) (content : Bytes) (reaches : Reaches kept disk target here)
    (plain : IsPlain name) :
    Reaches kept (copyFile disk (source.child name) (target.child name) content).2 target here ∧
      Grows (Under here name) disk (copyFile disk (source.child name) (target.child name) content).2 ∧
      ((copyFile disk (source.child name) (target.child name) content).1 = [] → ∃ place,
        IsCopyPlace (copyFile disk (source.child name) (target.child name) content).2 here name place ∧
          entry? (copyFile disk (source.child name) (target.child name) content).2 place = some (.file content)) := by
  have located := locate_child plain reaches.located reaches.directory
  have names := adding.names reaches.tree
  unfold copyFile
  dsimp only
  rw [(Path.isNamed_child plain source).2]
  generalize chosen : (if disk.isDirectory (target.child name) then (target.child name).child name
    else target.child name) = final
  -- the path that is written leads to a place for the copy
  have goal : ∃ place, disk.locate final = .ok place ∧ IsCopyPlace disk here name place ∧ (∀ part ∈ place, IsPlain part) ∧
      disk.entry? place.dropLast = some .directory := by
    split at chosen <;> subst chosen
    · next isDirectory =>
      obtain ⟨location, located', held⟩ := isDirectory_eq_true_iff.mp isDirectory
      obtain rfl := Except.ok.inj (located.symm.trans located')
      exact ⟨_, locate_child plain located held, .inr ⟨rfl, held⟩, names.isPlain_concat plain held, by rwa [List.dropLast_concat]⟩
    · exact ⟨_, located, .inl rfl, names.isPlain_concat plain reaches.directory, by rw [List.dropLast_concat]; exact reaches.directory⟩
  obtain ⟨place, reached, isPlace, parts, parent⟩ := goal
  split
  · refine ⟨reaches, .refl disk, fun none_ => ?_⟩
    dsimp only at none_
    exact absurd none_ (selfCopyReports_ne_nil _ _)
  · split
    · next written eq =>
      obtain ⟨grows, held⟩ := grows_write reached eq
      have grows' : Grows (Under here name) disk written := grows.mono fun _ same => same ▸ isPlace.under
      refine ⟨reaches.grows ?_ grows, grows', fun _ => ⟨place, isPlace.grows grows, held⟩⟩
      obtain ⟨location, reached', inside, free, rfl⟩ := write_eq_put eq
      obtain rfl := Except.ok.inj (reached.symm.trans reached')
      exact adding.put reaches.tree inside parts parent fun there => absurd there free
    · exact ⟨reaches, .refl disk, fun eq => by cases eq⟩

/-! ## Directories -/

theorem mem_children {location : Location} {old : String × Entry} :
    old ∈ disk.children location ↔ (location ++ [old.1], old.2) ∈ disk.entries := by
  unfold children under
  simp only [List.mem_mergeSort, List.mem_filterMap, List.mem_map, List.mem_filter]
  constructor
  · rintro ⟨_, ⟨⟨place, entry⟩, ⟨mem, inside⟩, rfl⟩, eq⟩
    simp only [Bool.and_eq_true, List.isPrefixOf_iff_prefix] at inside
    obtain ⟨⟨names, rfl⟩, -⟩ := inside
    rw [List.drop_left] at eq
    split at eq
    · next one =>
      cases eq
      exact one ▸ mem
    · cases eq
  · intro mem
    refine ⟨([old.1], old.2), ⟨⟨location ++ [old.1], old.2⟩, ⟨mem, ?_⟩, ?_⟩, rfl⟩
    · simp
    · rw [List.drop_left]

theorem HasPlainNames.isPlain_of_mem_children (names : disk.HasPlainNames) {location : Location} {old : String × Entry}
    (mem : old ∈ disk.children location) : IsPlain old.1 :=
  names _ (mem_children.mp mem) _ (by simp)

/-- What is copied from a path. -/
def entriesAt (disk : Disk) (source : Path) : List (String × Entry) :=
  match disk.locate source with
  | .ok location => disk.children location
  | .error _ => []

theorem HasPlainNames.isPlain_of_mem_entriesAt (names : disk.HasPlainNames) {old : String × Entry} (mem : old ∈ disk.entriesAt source) :
    IsPlain old.1 := by
  unfold entriesAt at mem
  split at mem
  · exact names.isPlain_of_mem_children mem
  · cases mem

/-- Copies one entry of a directory. -/
def copyEntry (fuel : Nat) (disk : Disk) (source target : Path) (old : String × Entry) : List String × Disk :=
  if isIgnored old.1 then ([], disk)
  else match old.2 with
    | .file content => copyFile disk (source.child old.1) (target.child old.1) content
    | .directory =>
      match copyDirectory fuel disk (source.child old.1) (target.child old.1) with
      | (.ok reports, disk) => (reports, disk)
      | (.error trouble, disk) => ([copyReport (source.child old.1) (target.child old.1) trouble.message], disk)

theorem copyEntries_cons (fuel : Nat) (disk : Disk) (source target : Path) (old : String × Entry)
    (later : List (String × Entry)) :
    copyEntries (fuel + 1) disk source target (old :: later) =
      ((copyEntry fuel disk source target old).1 ++
          (copyEntries fuel (copyEntry fuel disk source target old).2 source target later).1,
        (copyEntries fuel (copyEntry fuel disk source target old).2 source target later).2) := by
  rw [copyEntries.eq_def]
  rfl

theorem copyDirectory_succ (fuel : Nat) (disk : Disk) (source target : Path) :
    copyDirectory (fuel + 1) disk source target =
      match disk.makeDirectories target with
      | .error (trouble, begun) => (.error trouble, begun)
      | .ok begun =>
        (.ok (copyEntries fuel begun source target (disk.entriesAt source)).1,
          (copyEntries fuel begun source target (disk.entriesAt source)).2) := by
  rw [copyDirectory.eq_def]
  rfl

/-- What is added under one of some names. -/
def UnderSome (here : Location) (entries : List (String × Entry)) (location : Location) : Prop :=
  ∃ old ∈ entries, Under here old.1 location

/-- An entry is copied to its name if directories are copied to theirs. -/
theorem copyEntry_spec (adding : KeptByAdding kept) {fuel : Nat} (source : Path) {old : String × Entry}
    (copies : ∀ {disk : Disk} {here : Location} (source : Path) {target : Path} {name : String}, Reaches kept disk target here →
      IsPlain name → Reaches kept (copyDirectory fuel disk source (target.child name)).2 target here ∧
        Grows (Under here name) disk (copyDirectory fuel disk source (target.child name)).2)
    (reaches : Reaches kept disk target here) (plain : IsPlain old.1) :
    Reaches kept (copyEntry fuel disk source target old).2 target here ∧
      Grows (Under here old.1) disk (copyEntry fuel disk source target old).2 := by
  unfold copyEntry
  split
  · exact ⟨reaches, .refl _⟩
  · split
    · next content _ =>
      obtain ⟨reachesAfter, grows, -⟩ := copyFile_spec adding source content reaches plain
      exact ⟨reachesAfter, grows⟩
    · have spec := copies (source.child old.1) reaches plain
      split <;> next copied => rwa [copied] at spec

/-- The copies of entries lie under their names, and those of what is in a directory under the name of the directory. -/
theorem copies_spec (adding : KeptByAdding kept) (fuel : Nat) :
    (∀ {disk : Disk} {here : Location} (source : Path) {target : Path} {name : String}, Reaches kept disk target here →
        IsPlain name → Reaches kept (copyDirectory fuel disk source (target.child name)).2 target here ∧
          Grows (Under here name) disk (copyDirectory fuel disk source (target.child name)).2) ∧
      ∀ {disk : Disk} {here : Location} (source : Path) {target : Path} {entries : List (String × Entry)},
        Reaches kept disk target here → (∀ old ∈ entries, IsPlain old.1) →
        Reaches kept (copyEntries fuel disk source target entries).2 target here ∧
          Grows (UnderSome here entries) disk (copyEntries fuel disk source target entries).2 := by
  induction fuel with
  | zero =>
    refine ⟨fun _ _ _ reaches _ => ?_, fun _ _ _ reaches _ => ?_⟩
    · rw [copyDirectory]
      exact ⟨reaches, .refl _⟩
    · rw [copyEntries]
      exact ⟨reaches, .refl _⟩
  | succ fuel copies =>
    constructor
    · intro disk here source target name reaches plain
      have onward {begun : Disk} (reachesBegun : Reaches kept begun target here)
          (held : begun.entry? (here ++ [name]) = some .directory) (first : Grows (Under here name) disk begun) :
          Reaches kept (copyEntries fuel begun source (target.child name) (disk.entriesAt source)).2 target here ∧
            Grows (Under here name) disk (copyEntries fuel begun source (target.child name) (disk.entriesAt source)).2 := by
        obtain ⟨reachesAfter, second⟩ := copies.2 source (reachesBegun.child plain held)
          fun old mem => (adding.names reaches.tree).isPlain_of_mem_entriesAt mem
        refine ⟨reachesBegun.grows reachesAfter.tree second, first.trans (second.mono ?_)⟩
        rintro location ⟨old, -, under⟩
        exact (List.prefix_append _ _).trans under
      rw [copyDirectory_succ, makeDirectories_child plain reaches.located reaches.directory]
      cases found : disk.entry? (here ++ [name]) with
      | none =>
        have inside : here ++ [name] ≠ [] := List.append_ne_nil_of_right_ne_nil _ (List.cons_ne_nil _ _)
        have grows : Grows (· = here ++ [name]) disk (disk.put (here ++ [name]) .directory) :=
          grows_put inside fun _ => rfl
        have own := (adding.names reaches.tree).isPlain_concat plain reaches.directory
        have put : kept (disk.put (here ++ [name]) .directory) :=
          adding.put reaches.tree inside own (by rw [List.dropLast_concat]; exact reaches.directory) fun _ => rfl
        exact onward (reaches.grows put grows) (by rw [entry?_put _ inside, if_pos rfl])
          (grows.mono fun _ same => same ▸ List.prefix_rfl)
      | some entry =>
        cases entry with
        | file content => exact ⟨reaches, .refl _⟩
        | directory => exact onward reaches found (.refl _)
    · intro disk here source target entries reaches plain
      cases entries with
      | nil =>
        rw [copyEntries]
        · exact ⟨reaches, .refl _⟩
        · simp
      | cons old later =>
        obtain ⟨own, others⟩ := List.forall_mem_cons.mp plain
        rw [copyEntries_cons]
        obtain ⟨reachesBetween, first⟩ := copyEntry_spec adding source copies.1 reaches own
        obtain ⟨reachesAfter, second⟩ := copies.2 source reachesBetween others
        refine ⟨reachesAfter, (first.mono fun location under => ?_).trans (second.mono fun location under => ?_)⟩
        · exact ⟨_, List.mem_cons_self, under⟩
        · obtain ⟨old, mem, under⟩ := under
          exact ⟨old, List.mem_cons_of_mem _ mem, under⟩

end Disk

end Scaffold.Files
