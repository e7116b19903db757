import Scaffold.Proofs.Files.Copying

/-! # What is left alone beneath and beside a path

A path lands where its names lead, whether or not anything is there. Whatever is written or removed at paths that land
beneath a location leaves everything else as it is, and a copy adds no more outside than the directories on the way to
where it is made.
-/

namespace Scaffold.Files

open Scaffold.Text

namespace Path

theorem partsBetween_ne_nil (separator : Char) (text : List Char) : partsBetween separator text ≠ [] := by
  cases text with
  | nil => exact List.cons_ne_nil _ _
  | cons c rest =>
    rw [partsBetween]
    split
    · exact List.cons_ne_nil _ _
    · split <;> exact List.cons_ne_nil _ _

theorem notMem_of_mem_partsBetween {separator : Char} {text part : List Char} (mem : part ∈ partsBetween separator text) :
    separator ∉ part := by
  induction text generalizing part with
  | nil =>
    rw [List.mem_singleton.mp mem]
    exact List.not_mem_nil
  | cons c rest absent =>
    rw [partsBetween] at mem
    split at mem
    · next none_ => exact absurd none_ (partsBetween_ne_nil separator rest)
    · next first later parts =>
      rw [parts] at absent
      split at mem
      · rcases List.mem_cons.mp mem with rfl | mem
        · exact List.not_mem_nil
        · exact absent mem
      · next other =>
        rcases List.mem_cons.mp mem with rfl | mem
        · exact List.not_mem_cons_of_ne_of_not_mem (Ne.symm other) (absent List.mem_cons_self)
        · exact absent (List.mem_cons_of_mem _ mem)

/-- The parts of a path that a text names are plain names and ways up. -/
theorem isProper_ofString (text : String) : (ofString text).IsProper := by
  intro part mem
  obtain ⟨held, kept⟩ := List.mem_filter.mp mem
  obtain ⟨chars, own, rfl⟩ := List.mem_map.mp held
  simp only [ne_eq, decide_not, Bool.and_eq_true, Bool.not_eq_true', decide_eq_false_iff_not] at kept
  by_cases up : String.ofList chars = ".."
  · exact .inr up
  · refine .inl ⟨kept.1, kept.2, up, ?_⟩
    rw [String.toList_ofList]
    exact notMem_of_mem_partsBetween own

theorem IsProper.append {base path : Path} (proper : base.IsProper) (added : path.IsProper) : (base ++ path).IsProper := by
  change (Path.append base path).IsProper
  unfold Path.append
  split
  · exact added
  · intro part mem
    rcases List.mem_append.mp mem with old | new
    · exact proper part old
    · exact added part new

theorem isPlain_of_leadsDown {text : String} (down : LeadsDown text) : ∀ part ∈ (ofString text).parts, IsPlain part :=
  fun part mem => (isProper_ofString text part mem).resolve_right fun up => down.2 (up ▸ mem)

end Path

namespace Disk

variable {origin disk after : Disk} {here location : Location} {path target : Path} {name : String} {content : Bytes}
variable {names : List String}

/-! ## Where paths land -/

/-- Where names lead from a location when they all lead on. -/
def landing (here : Location) (names : List String) : Location :=
  names.foldl (fun here name => if name = ".." then here.dropLast else here ++ [name]) here

theorem parts_resolve (disk : Disk) (path : Path) :
    (disk.resolve path).parts = landing (if path.absolute then [] else disk.workingDirectory) path.parts := rfl

theorem landing_append (here : Location) (front back : List String) :
    landing here (front ++ back) = landing (landing here front) back := List.foldl_append

theorem landing_of_plain (plain : ∀ name ∈ names, IsPlain name) : landing here names = here ++ names := by
  induction names generalizing here with
  | nil => exact (List.append_nil here).symm
  | cons name later lands =>
    obtain ⟨own, others⟩ := List.forall_mem_cons.mp plain
    rw [landing, List.foldl_cons, if_neg own.2.2.1]
    exact (lands others).trans (List.append_assoc _ _ _)

theorem isPlain_landing (plain : ∀ name ∈ here, IsPlain name) (proper : ∀ name ∈ names, IsPlain name ∨ name = "..") :
    ∀ name ∈ landing here names, IsPlain name := by
  induction names generalizing here with
  | nil => exact plain
  | cons name later lands =>
    obtain ⟨own, others⟩ := List.forall_mem_cons.mp proper
    refine lands (fun part mem => ?_) others
    dsimp only at mem
    split at mem
    · exact plain part (List.mem_of_mem_dropLast mem)
    · next down =>
      rcases List.mem_append.mp mem with old | new
      · exact plain part old
      · exact List.mem_singleton.mp new ▸ own.resolve_right down

theorem eq_landing_of_follow (ran : disk.follow here names = .ok location) : location = landing here names := by
  induction names generalizing here with
  | nil =>
    cases ran
    rfl
  | cons name later lands =>
    rw [follow] at ran
    split at ran
    · cases ran
    · cases ran
    · exact lands ran

/-- What a path leads to is at its landing. -/
theorem eq_resolve_of_locate (located : disk.locate path = .ok location) : location = (disk.resolve path).parts :=
  eq_landing_of_follow located

/-- A path lands beneath a location, and all names on its landing are plain. -/
structure LandsBeneath (disk : Disk) (here : Location) (path : Path) : Prop where
  under : here <+: (disk.resolve path).parts
  plain : ∀ name ∈ (disk.resolve path).parts, IsPlain name

theorem LandsBeneath.congr (lands : LandsBeneath disk here path) (same : after.workingDirectory = disk.workingDirectory) :
    LandsBeneath after here path := by
  have resolved : after.resolve path = disk.resolve path := by rw [resolve, resolve, same]
  exact ⟨resolved ▸ lands.under, resolved ▸ lands.plain⟩

theorem LandsBeneath.append (lands : LandsBeneath disk here path) (plain : ∀ name ∈ names, IsPlain name) :
    LandsBeneath disk here { path with parts := path.parts ++ names } := by
  have parts : (disk.resolve { path with parts := path.parts ++ names }).parts = (disk.resolve path).parts ++ names := by
    rw [parts_resolve, parts_resolve]
    dsimp only
    rw [landing_append, landing_of_plain plain]
  refine ⟨parts ▸ lands.under.trans (List.prefix_append _ _), parts ▸ fun name mem => ?_⟩
  rcases List.mem_append.mp mem with old | new
  · exact lands.plain name old
  · exact plain name new

theorem LandsBeneath.child (lands : LandsBeneath disk here path) {text : String} (down : Path.LeadsDown text) :
    LandsBeneath disk here (path.child text) := by
  have parts : path.child text = { path with parts := path.parts ++ (Path.ofString text).parts } := by
    change Path.append path (Path.ofString text) = _
    rw [Path.append, if_neg (by rw [down.1]; decide)]
  rw [parts]
  exact lands.append (Path.isPlain_of_leadsDown down)

theorem contains_of_occupied (occupied : disk.isVacant path = false) : disk.contains path = true := by
  unfold isVacant at occupied
  unfold contains at?
  split at occupied
  · cases occupied
  · next location located =>
    rw [located]
    dsimp only
    split at occupied
    · cases occupied
    · next held =>
      rw [held]
      rfl
    · next held =>
      rw [held]
      rfl

/-! ## Changes beneath a location -/

/-- Outside a footprint everything on a disk is as it was. -/
def KeepsOutside (footprint : Location → Prop) (before after : Disk) : Prop :=
  ∀ location, ¬ footprint location → after.entry? location = before.entry? location

theorem KeepsOutside.put {footprint : Location → Prop} {entry : Entry}
    (keeps : KeepsOutside footprint origin disk) (inside : location ≠ []) (own : footprint location) :
    KeepsOutside footprint origin (disk.put location entry) := by
  intro place apart
  rw [entry?_put _ inside, if_neg]
  · exact keeps place apart
  · rintro rfl
    exact apart own

/-- A disk differs from another one beneath a location only, and has plain names. -/
structure IsBeneath (origin : Disk) (here : Location) (disk : Disk) : Prop where
  workingDirectory : disk.workingDirectory = origin.workingDirectory
  names : disk.HasPlainNames
  outside : KeepsOutside (here <+: ·) origin disk

namespace IsBeneath

variable (beneath : IsBeneath origin here disk)

include beneath

theorem remove (under : here <+: location) : IsBeneath origin here (disk.remove location) := by
  refine ⟨beneath.workingDirectory, fun old mem => beneath.names old (List.mem_filter.mp mem).1, fun place apart => ?_⟩
  rw [entry?_remove, if_neg]
  · exact beneath.outside place apart
  · exact fun gone => apart (under.trans (List.isPrefixOf_iff_prefix.mp gone.2))

theorem removePath (lands : LandsBeneath origin here path) : IsBeneath origin here (disk.removePath path).2 := by
  unfold Disk.removePath
  split
  · exact beneath
  · next location located =>
    split
    · exact beneath.remove (eq_resolve_of_locate located ▸ (lands.congr beneath.workingDirectory).under)
    · exact beneath

theorem unlink (lands : LandsBeneath origin here path) (unlinked : disk.unlink path = .ok after) :
    IsBeneath origin here after := by
  unfold Disk.unlink at unlinked
  split at unlinked
  · cases unlinked
  · next location located =>
    split at unlinked <;> cases unlinked
    exact beneath.remove (eq_resolve_of_locate located ▸ (lands.congr beneath.workingDirectory).under)

theorem write (lands : LandsBeneath origin here path) (written : disk.write path content = .ok after) :
    IsBeneath origin here after := by
  obtain ⟨location, located, inside, -, rfl⟩ := write_eq_put written
  have own := lands.congr beneath.workingDirectory
  rw [eq_resolve_of_locate located] at inside ⊢
  exact ⟨(workingDirectory_put _ _).trans beneath.workingDirectory, beneath.names.put own.plain,
    beneath.outside.put inside own.under⟩

end IsBeneath

/-- The files under a directory have plain names from there. -/
theorem HasPlainNames.exists_of_mem_filesUnder (plainNames : disk.HasPlainNames) {accepts : Path → Bool}
    (mem : path ∈ disk.filesUnder target accepts) :
    accepts path = true ∧ ∃ names ≠ [], (∀ name ∈ names, IsPlain name) ∧ path = { target with parts := target.parts ++ names } := by
  unfold filesUnder at mem
  split at mem
  · cases mem
  · next base located =>
    obtain ⟨found, accepted⟩ := List.mem_filter.mp (List.mem_mergeSort.mp mem)
    obtain ⟨⟨names, entry⟩, under, eq⟩ := List.mem_filterMap.mp found
    obtain ⟨⟨place, entry'⟩, held, same⟩ := List.mem_map.mp under
    obtain ⟨old, inside⟩ := List.mem_filter.mp held
    cases same
    simp only [Bool.and_eq_true, List.isPrefixOf_iff_prefix, ne_eq, decide_not, Bool.not_eq_true',
      decide_eq_false_iff_not] at inside
    obtain ⟨⟨names, rfl⟩, apart⟩ := inside
    rw [List.drop_left] at eq
    cases entry' with
    | directory => cases eq
    | file content =>
      obtain rfl := Option.some.inj eq
      refine ⟨accepted, names, ?_, fun name mem => plainNames _ old name (List.mem_append_right _ mem), rfl⟩
      rintro rfl
      exact apart (List.append_nil base)

/-! ## Directories on the way -/

/-- A disk comes from another one by directories that are made at locations of a kind, where nothing was. -/
structure MakesWay (ways : Location → Prop) (before after : Disk) : Prop where
  workingDirectory : after.workingDirectory = before.workingDirectory
  entries : ∀ location, after.entry? location = before.entry? location ∨
    before.entry? location = none ∧ after.entry? location = some .directory ∧ ways location

namespace MakesWay

variable {ways ways' : Location → Prop} {middle : Disk}

theorem refl (disk : Disk) : MakesWay ways disk disk := ⟨rfl, fun _ => .inl rfl⟩

theorem trans (first : MakesWay ways disk middle) (second : MakesWay ways middle after) : MakesWay ways disk after := by
  refine ⟨second.workingDirectory.trans first.workingDirectory, fun location => ?_⟩
  rcases first.entries location with same | ⟨absent, held, way⟩ <;> rcases second.entries location with same' | ⟨absent', held', way'⟩
  · exact .inl (same'.trans same)
  · exact .inr ⟨same ▸ absent', held', way'⟩
  · exact .inr ⟨absent, same'.trans held, way⟩
  · rw [held] at absent'
    cases absent'

theorem mono (makes : MakesWay ways disk after) (wider : ∀ location, ways location → ways' location) : MakesWay ways' disk after :=
  ⟨makes.workingDirectory, fun location => (makes.entries location).imp_right fun ⟨absent, held, way⟩ => ⟨absent, held, wider _ way⟩⟩

theorem directory (makes : MakesWay ways disk after) (held : disk.entry? location = some .directory) :
    after.entry? location = some .directory := by
  rcases makes.entries location with same | ⟨-, held', -⟩
  · exact same.trans held
  · exact held'

theorem put (absent : disk.entry? here = none) (way : ways here) : MakesWay ways disk (disk.put here .directory) := by
  have inside := ne_root_of_absent absent
  refine ⟨workingDirectory_put _ _, fun location => ?_⟩
  rw [entry?_put _ inside]
  split
  · next same => exact .inr ⟨same ▸ absent, rfl, same ▸ way⟩
  · exact .inl rfl

end MakesWay

/-- What has been made, up to where it failed. -/
def madeSoFar : Except (Cause × Nat × Disk) Disk → Disk
  | .ok disk => disk
  | .error (_, _, disk) => disk

theorem Begun.makesWay {begun : Disk} (begins : Begun disk here begun) : MakesWay (· = here) disk begun := by
  cases begins with
  | there held => exact .refl disk
  | made absent => exact .put absent rfl

theorem Begun.hasPlainNames {begun : Disk} (begins : Begun disk here begun) (plainNames : disk.HasPlainNames)
    (plain : ∀ part ∈ here, IsPlain part) : begun.HasPlainNames := by
  cases begins with
  | there held => exact plainNames
  | made absent => exact plainNames.put plain

theorem makesWay_makeFrom (disk : Disk) (here : Location) (names : List String) :
    MakesWay (fun location => ∃ front, front <+: names ∧ location = landing here front) disk (madeSoFar (disk.makeFrom here names)) := by
  induction names generalizing disk here with
  | nil =>
    rcases makeFrom_cases disk here [] with ⟨cause, left, ran⟩ | ⟨begun, begins, ran⟩
    · rw [ran]
      exact .refl disk
    · rw [ran]
      exact begins.makesWay.mono fun location same => ⟨[], List.prefix_rfl, same⟩
  | cons name later makesLater =>
    rcases makeFrom_cases disk here (name :: later) with ⟨cause, left, ran⟩ | ⟨begun, begins, ran⟩
    · rw [ran]
      exact .refl disk
    · rw [ran]
      refine (begins.makesWay.mono fun location same => ⟨[], List.nil_prefix, same⟩).trans ((makesLater begun _).mono ?_)
      rintro location ⟨front, initial, rfl⟩
      exact ⟨name :: front, List.cons_prefix_cons.mpr ⟨rfl, initial⟩, rfl⟩

theorem follow_of_makeFrom (ran : disk.makeFrom here names = .ok after) :
    after.follow here names = .ok (landing here names) ∧ after.entry? (landing here names) = some .directory := by
  induction names generalizing disk here with
  | nil =>
    rcases makeFrom_cases disk here [] with ⟨cause, left, ran'⟩ | ⟨begun, begins, ran'⟩ <;> rw [ran'] at ran <;> cases ran
    exact ⟨rfl, begins.held⟩
  | cons name later follows =>
    rcases makeFrom_cases disk here (name :: later) with ⟨cause, left, ran'⟩ | ⟨begun, begins, ran'⟩ <;> rw [ran'] at ran
    · cases ran
    · dsimp only at ran
      have makes := makesWay_makeFrom begun (if name = ".." then here.dropLast else here ++ [name]) later
      rw [ran] at makes
      rw [follow, show after.entry? here = some .directory from makes.directory begins.held]
      exact follows ran

theorem hasPlainNames_makeFrom (plainNames : disk.HasPlainNames) (plain : ∀ part ∈ here, IsPlain part)
    (proper : ∀ part ∈ names, IsPlain part ∨ part = "..") : (madeSoFar (disk.makeFrom here names)).HasPlainNames := by
  induction names generalizing disk here with
  | nil =>
    rcases makeFrom_cases disk here [] with ⟨cause, left, ran⟩ | ⟨begun, begins, ran⟩ <;> rw [ran]
    · exact plainNames
    · exact begins.hasPlainNames plainNames plain
  | cons name later keeps =>
    obtain ⟨own, others⟩ := List.forall_mem_cons.mp proper
    have next : ∀ part ∈ landing here [name], IsPlain part := isPlain_landing plain (by simpa using own)
    rcases makeFrom_cases disk here (name :: later) with ⟨cause, left, ran⟩ | ⟨begun, begins, ran⟩ <;> rw [ran]
    · exact plainNames
    · exact keeps (begins.hasPlainNames plainNames plain) next others

/-- A location on the way to a path. -/
def IsWaypoint (disk : Disk) (target : Path) (location : Location) : Prop :=
  ∃ front, front <+: target.parts ∧ location = (disk.resolve { target with parts := front }).parts

/-- A copy makes directories on the way to its target, and then leaves alone what is not beneath the target. -/
theorem exists_beneath_copyTree (plainNames : disk.HasPlainNames) (working : ∀ part ∈ disk.workingDirectory, IsPlain part)
    (proper : target.IsProper) (source : Path) :
    ∃ begun, MakesWay (IsWaypoint disk target) disk begun ∧
      IsBeneath begun (disk.resolve target).parts (disk.copyTree source target).2 := by
  have start : ∀ part ∈ if target.absolute then [] else disk.workingDirectory, IsPlain part := by
    split
    · simp
    · exact working
  have makes := makesWay_makeFrom disk (if target.absolute then [] else disk.workingDirectory) target.parts
  have begunNames := hasPlainNames_makeFrom plainNames start proper
  unfold copyTree
  rw [copyDirectory_succ]
  cases made : disk.makeDirectories target with
  | error stopped =>
    obtain ⟨trouble, begun⟩ := stopped
    have same : madeSoFar (disk.makeFrom (if target.absolute then [] else disk.workingDirectory) target.parts) = begun := by
      unfold makeDirectories at made
      split at made <;> cases made
      next eq => rw [eq]; rfl
    rw [same] at makes begunNames
    exact ⟨begun, makes, rfl, begunNames, fun _ _ => rfl⟩
  | ok begun =>
    have ran := makeDirectories_eq_ok made
    obtain ⟨reached, directory⟩ := follow_of_makeFrom ran
    rw [ran] at makes begunNames
    have reaches : Reaches HasPlainNames begun target (disk.resolve target).parts :=
      ⟨begunNames, by rw [locate, show begun.workingDirectory = _ from makes.workingDirectory]; exact reached, directory⟩
    obtain ⟨copied, grows⟩ := (copies_spec keptByAdding_hasPlainNames (2 * disk.entries.length + 1)).2 source reaches
      fun old mem => plainNames.isPlain_of_mem_entriesAt mem
    refine ⟨begun, makes, grows.workingDirectory, copied.tree, fun location apart => grows.elsewhere ?_⟩
    rintro ⟨old, -, under⟩
    exact apart ((List.prefix_append _ _).trans under)

end Disk

end Scaffold.Files
