import Scaffold.Proofs.Files.Tree
import Scaffold.Proofs.Project.Footprint

/-! # Files that lose their types

A conversion puts a file with the new ending in the place of one with types. A run of conversions does so with each
file that it is given, except for those whose content does not allow it, and leaves everything else as it is.
-/

namespace Scaffold.Project

open Scaffold.Text Scaffold.Files Stateful Processing

variable {path : Path} {location source : Location} {disk before middle after : Disk} {given given' : Location → Prop}

/-! ## Files with types -/

/-- The name of the file that takes the place of one with a name. -/
def untypedName (name : String) : String := (Path.splitName name).1 ++ plainSuffix (Path.splitName name).2

theorem parts_convertedPath (path : Path) : (convertedPath path).parts = path.parts.dropLast ++ [untypedName path.name] := rfl

theorem untypedName_of_isConvertible (convertible : isConvertible path = true) :
    untypedName path.name = (Path.splitName path.name).1 ++ ".js" ∧ path.name = (Path.splitName path.name).1 ++ ".ts" := by
  have suffix : (Path.splitName path.name).2 = ".ts" := by
    unfold isConvertible at convertible
    simp only [Bool.and_eq_true, decide_eq_true_eq] at convertible
    exact convertible.1
  refine ⟨by rw [untypedName, suffix]; rfl, ?_⟩
  conv_lhs => rw [← splitName_append path.name]
  rw [suffix]

theorem plainSuffix_cases (suffix : String) :
    plainSuffix suffix = ".mjs" ∨ plainSuffix suffix = ".cjs" ∨ plainSuffix suffix = ".js" := by
  unfold plainSuffix
  split
  · exact .inl rfl
  · split
    · exact .inr (.inl rfl)
    · exact .inr (.inr rfl)

theorem isPlain_untypedName {name : String} (plain : IsPlain name) : IsPlain (untypedName name) := by
  have slash := plain.2.2.2
  rw [← splitName_append name, String.toList_append, List.mem_append, not_or] at slash
  have last : (untypedName name).toList.getLast? = some 's' := by
    rw [untypedName, String.toList_append, List.getLast?_append]
    rcases plainSuffix_cases (Path.splitName name).2 with eq | eq | eq <;> rw [eq] <;> rfl
  refine ⟨fun empty => ?_, fun dot => ?_, fun up => ?_, ?_⟩
  · rw [empty] at last
    cases last
  · rw [dot] at last
    cases last
  · rw [up] at last
    cases last
  · rw [untypedName, String.toList_append, List.mem_append, not_or]
    refine ⟨slash.1, ?_⟩
    rcases plainSuffix_cases (Path.splitName name).2 with eq | eq | eq <;> rw [eq] <;> decide

theorem untypedName_ne_up (name : String) : untypedName name ≠ ".." := by
  intro up
  have last := congrArg (fun name => name.toList.getLast?) up
  rw [untypedName] at last
  simp only [String.toList_append, List.getLast?_append] at last
  rcases plainSuffix_cases (Path.splitName name).2 with eq | eq | eq <;> rw [eq] at last <;> cases last

/-- The location of the file that takes the place of the one at a location. -/
def untypedLocation (location : Location) : Location := (convertedPath ⟨true, location⟩).parts

theorem untypedLocation_concat (here : Location) (name : String) : untypedLocation (here ++ [name]) = here ++ [untypedName name] := by
  rw [untypedLocation, parts_convertedPath, List.dropLast_concat, Path.name, List.getLast?_concat, Option.getD_some]

/-- At a location there is a file that can lose its types: its name says that it has some, and its content can be
converted. -/
structure IsTyped (disk : Disk) (location : Location) : Prop where
  named : isConvertible ⟨true, location⟩ = true
  converts : ∃ content, disk.entry? location = some (.file content) ∧ Converts ⟨true, location⟩ content

theorem name_of_locate (named : path.IsNamed) (located : disk.locate path = .ok location) :
    (Files.Path.mk true location).name = path.name := by
  rw [Path.name, Disk.getLast?_of_locate named located, Option.getD_some]

theorem isConvertible_congr {first second : Path} (same : first.name = second.name) :
    isConvertible first = isConvertible second := by
  unfold isConvertible Path.suffix
  rw [same]

theorem converts_congr {first second : Path} {content : Bytes} (same : first.name = second.name) :
    Converts first content ↔ Converts second content := by
  unfold Converts dialectOf Path.suffix
  rw [same]

theorem isConvertible_untypedLocation (convertible : isConvertible ⟨true, location⟩ = true) :
    isConvertible ⟨true, untypedLocation location⟩ = false :=
  Bool.eq_false_iff.mpr fun again =>
    (isNamed_of_isConvertible again).2 (isPlainName_convertedPath convertible).2

theorem untypedLocation_ne (convertible : isConvertible ⟨true, location⟩ = true) : untypedLocation location ≠ location :=
  fun same => Bool.false_ne_true ((isConvertible_untypedLocation convertible).symm.trans (same.symm ▸ convertible))

/-- The file without types lies next to the one with types. -/
theorem locate_convertedPath (named : path.IsNamed) (located : disk.locate path = .ok location) :
    disk.locate (convertedPath path) = .ok (untypedLocation location) := by
  have name := name_of_locate named located
  have parts : path.parts = path.parts.dropLast ++ [path.name] := by
    rw [Path.name]
    have last := Path.getLast?_of_isNamed named
    exact (List.dropLast_append_getLast? _ (by rw [last, Option.getD_some]; rfl)).symm
  rw [Disk.locate, parts, Disk.follow_append] at located
  cases reached : disk.follow (if path.absolute then [] else disk.workingDirectory) path.parts.dropLast with
  | error cause =>
    rw [reached] at located
    cases located
  | ok here =>
    rw [reached] at located
    change disk.follow here [path.name] = _ at located
    rw [Disk.follow] at located
    split at located
    · cases located
    · cases located
    · next directory =>
      rw [if_neg named.2] at located
      obtain rfl := Except.ok.inj located
      rw [untypedLocation_concat, Disk.locate, parts_convertedPath, Disk.follow_append,
        show (convertedPath path).absolute = path.absolute from rfl, reached]
      change disk.follow here [untypedName path.name] = _
      rw [Disk.follow, directory]
      dsimp only
      rw [if_neg (untypedName_ne_up path.name), Disk.follow]

/-! ## Runs of conversions -/

/-- One disk comes from another by conversions: of the files at given locations, those that can lose their types are
gone, those that take their places are there, and everything else is as it was. -/
structure Untypes (given : Location → Prop) (before after : Disk) : Prop where
  tree : after.IsTree
  workingDirectory : after.workingDirectory = before.workingDirectory
  directory : ∀ {location}, after.entry? location = some .directory ↔ before.entry? location = some .directory
  gone : ∀ {location}, given location → IsTyped before location → after.entry? location = none
  made : ∀ {location}, given location → IsTyped before location →
    ∃ output, after.entry? (untypedLocation location) = some (.file output)
  elsewhere : ∀ {location}, ¬ (given location ∧ IsTyped before location) →
    (∀ source, given source → IsTyped before source → untypedLocation source ≠ location) →
    after.entry? location = before.entry? location

namespace Untypes

theorem congr (untypes : Untypes given before after) (same : ∀ location, IsTyped before location → (given location ↔ given' location)) :
    Untypes given' before after := by
  refine ⟨untypes.tree, untypes.workingDirectory, untypes.directory, fun own typed => ?_, fun own typed => ?_, fun apart other => ?_⟩
  · exact untypes.gone ((same _ typed).mpr own) typed
  · exact untypes.made ((same _ typed).mpr own) typed
  · refine untypes.elsewhere (fun own => apart ⟨(same _ own.2).mp own.1, own.2⟩) fun source own typed => ?_
    exact other source ((same _ typed).mp own) typed

theorem refl (tree : before.IsTree) (none_ : ∀ location, given location → ¬ IsTyped before location) :
    Untypes given before before :=
  ⟨tree, rfl, Iff.rfl, fun own typed => absurd typed (none_ _ own), fun own typed => absurd typed (none_ _ own), fun _ _ => rfl⟩

theorem ne_untypedLocation (convertible : isConvertible ⟨true, location⟩ = true) (typed : IsTyped before source) :
    untypedLocation source ≠ location := by
  rintro rfl
  exact Bool.false_ne_true ((isConvertible_untypedLocation typed.named).symm.trans convertible)

/-- The files that can still lose their types are those that were not given. -/
theorem isTyped_iff (untypes : Untypes given before after) :
    IsTyped after location ↔ IsTyped before location ∧ ¬ given location := by
  constructor
  · intro typed
    have away : ¬ (given location ∧ IsTyped before location) := fun own => by
      obtain ⟨content, held, -⟩ := typed.converts
      rw [untypes.gone own.1 own.2] at held
      cases held
    have same := untypes.elsewhere away fun source _ typed' => ne_untypedLocation typed.named typed'
    have typed' : IsTyped before location := ⟨typed.named, by rw [← same]; exact typed.converts⟩
    exact ⟨typed', fun own => away ⟨own, typed'⟩⟩
  · rintro ⟨typed, away⟩
    have same := untypes.elsewhere (fun own => away own.1) fun source _ typed' => ne_untypedLocation typed.named typed'
    exact ⟨typed.named, by rw [same]; exact typed.converts⟩

theorem trans (first : Untypes given before middle) (second : Untypes given' middle after) :
    Untypes (fun location => given location ∨ given' location) before after := by
  refine ⟨second.tree, second.workingDirectory.trans first.workingDirectory, second.directory.trans first.directory,
    fun {location} own typed => ?_, fun {location} own typed => ?_, fun apart other => ?_⟩
  · by_cases early : given location
    · rw [second.elsewhere (fun late => (first.isTyped_iff.mp late.2).2 early) fun source _ typed' =>
        ne_untypedLocation typed.named typed']
      exact first.gone early typed
    · exact second.gone (own.resolve_left early) (first.isTyped_iff.mpr ⟨typed, early⟩)
  · by_cases early : given location
    · obtain ⟨output, held⟩ := first.made early typed
      -- another file may take the place of the one that was made
      by_cases again : ∃ source, given' source ∧ IsTyped middle source ∧ untypedLocation source = untypedLocation location
      · obtain ⟨source, own', typed', same⟩ := again
        exact same ▸ second.made own' typed'
      · refine ⟨output, (second.elsewhere (fun late => ?_) fun source own' typed' same => again ⟨source, own', typed', same⟩).trans held⟩
        exact Bool.false_ne_true ((isConvertible_untypedLocation typed.named).symm.trans late.2.named)
    · exact second.made (own.resolve_left early) (first.isTyped_iff.mpr ⟨typed, early⟩)
  · rw [second.elsewhere (fun late => apart ⟨.inr late.1, (first.isTyped_iff.mp late.2).1⟩) fun source own typed =>
      other source (.inr own) (first.isTyped_iff.mp typed).1]
    exact first.elsewhere (fun early => apart ⟨.inl early.1, early.2⟩) fun source own typed => other source (.inl own) typed

theorem locate_iff (untypes : Untypes given before after) : after.locate path = .ok location ↔ before.locate path = .ok location :=
  Disk.locate_iff_of_directory untypes.workingDirectory fun _ => untypes.directory

/-- A file that neither has types nor takes the place of one is left. -/
theorem read (untypes : Untypes given before after) {content : Bytes} (named : path.IsNamed) (other : isConvertible path = false)
    (plain : ¬ IsPlainName path.name) (read : before.read path = .ok content) : after.read path = .ok content := by
  obtain ⟨location, located, held⟩ := Disk.read_eq_ok_iff.mp read
  have name := name_of_locate named located
  refine Disk.read_eq_ok_iff.mpr ⟨location, untypes.locate_iff.mpr located, ?_⟩
  rw [untypes.elsewhere (fun own => ?_) fun source _ typed same => ?_, held]
  · exact Bool.false_ne_true (other.symm.trans (isConvertible_congr name ▸ own.2.named))
  · have new := (isPlainName_convertedPath typed.named).2
    rw [← name, ← same] at plain
    exact plain new

/-- The files without types are those that were there and those that take the places of others. -/
theorem isFile_iff (untypes : Untypes given before after) (named : path.IsNamed) (other : isConvertible path = false) :
    after.isFile path = true ↔ before.isFile path = true ∨
      ∃ location, given location ∧ IsTyped before location ∧ before.locate path = .ok (untypedLocation location) := by
  have away {location : Location} (located : before.locate path = .ok location) : ¬ (given location ∧ IsTyped before location) :=
    fun own => Bool.false_ne_true (other.symm.trans (isConvertible_congr (name_of_locate named located) ▸ own.2.named))
  constructor
  · intro there
    obtain ⟨content, read⟩ := exists_read_of_isFile there
    obtain ⟨location, located, held⟩ := Disk.read_eq_ok_iff.mp read
    have located' := untypes.locate_iff.mp located
    by_cases made : ∃ source, given source ∧ IsTyped before source ∧ untypedLocation source = location
    · obtain ⟨source, own, typed, rfl⟩ := made
      exact .inr ⟨source, own, typed, located'⟩
    · rw [untypes.elsewhere (away located') fun source own typed same => made ⟨source, own, typed, same⟩] at held
      exact .inl (Disk.isFile_of_read (Disk.read_eq_ok_iff.mpr ⟨location, located', held⟩))
  · rintro (there | ⟨source, own, typed, located⟩)
    · obtain ⟨content, read⟩ := exists_read_of_isFile there
      obtain ⟨location, located, held⟩ := Disk.read_eq_ok_iff.mp read
      by_cases made : ∃ source, given source ∧ IsTyped before source ∧ untypedLocation source = location
      · obtain ⟨source, own, typed, rfl⟩ := made
        obtain ⟨output, new⟩ := untypes.made own typed
        exact Disk.isFile_of_read (Disk.read_eq_ok_iff.mpr ⟨_, untypes.locate_iff.mpr located, new⟩)
      · rw [← untypes.elsewhere (away located) fun source own typed same => made ⟨source, own, typed, same⟩] at held
        exact Disk.isFile_of_read (Disk.read_eq_ok_iff.mpr ⟨location, untypes.locate_iff.mpr located, held⟩)
    · obtain ⟨output, new⟩ := untypes.made own typed
      exact Disk.isFile_of_read (Disk.read_eq_ok_iff.mpr ⟨_, untypes.locate_iff.mpr located, new⟩)

end Untypes

/-- When a file is replaced, it is gone, the new one lies next to it unless it was its own place, and everything else is as
it was. -/
theorem entry?_replace (tree : disk.IsTree) {content : Bytes}
    (held : disk.entry? location = some (.file content)) (free : disk.entry? (untypedLocation location) ≠ some .directory)
    (output : Bytes) :
    ((disk.put (untypedLocation location) (.file output)).remove location).IsTree ∧ ∀ place,
      Disk.entry? ((disk.put (untypedLocation location) (.file output)).remove location) place =
        if place = location then none
        else if place = untypedLocation location then some (.file output) else disk.entry? place := by
  obtain ⟨here, name, rfl⟩ : ∃ here name, location = here ++ [name] :=
    ⟨_, _, (List.dropLast_append_getLast (Disk.ne_root_of_file held)).symm⟩
  rw [untypedLocation_concat] at free ⊢
  have inside : here ++ [untypedName name] ≠ [] := List.append_ne_nil_of_right_ne_nil _ (List.cons_ne_nil _ _)
  have treeWritten : (disk.put (here ++ [untypedName name]) (.file output)).IsTree := by
    refine tree.put inside (fun part mem => ?_) ?_ fun there => absurd there free
    · rcases List.mem_append.mp mem with above | own
      · exact tree.isPlain_of_mem held (List.mem_append_left _ above)
      · rw [List.mem_singleton.mp own]
        exact isPlain_untypedName (tree.isPlain_of_mem held (by simp))
    · rw [List.dropLast_concat]
      have parent := tree.directory_dropLast held
      rwa [List.dropLast_concat] at parent
  obtain ⟨left, stays⟩ : ∃ left,
      Disk.entry? (disk.put (here ++ [untypedName name]) (.file output)) (here ++ [name]) = some (.file left) := by
    rw [Disk.entry?_put _ inside]
    split
    · exact ⟨output, rfl⟩
    · exact ⟨content, held⟩
  refine ⟨treeWritten.remove stays, fun place => ?_⟩
  rw [treeWritten.entry?_remove_of_file stays, Disk.entry?_put _ inside]

/-- One file is replaced. -/
theorem untypes_replace (tree : disk.IsTree) (typed : IsTyped disk location)
    (free : disk.entry? (untypedLocation location) ≠ some .directory) (output : Bytes) :
    Untypes (· = location) disk ((disk.put (untypedLocation location) (.file output)).remove location) := by
  obtain ⟨content, held, -⟩ := typed.converts
  have apart := untypedLocation_ne typed.named
  obtain ⟨treeReplaced, spec⟩ := entry?_replace tree held free output
  refine ⟨treeReplaced, Disk.workingDirectory_put _ _, fun {place} => ?_, ?_, ?_, fun {place} other apart' => ?_⟩
  · rw [spec]
    split
    · next same => simp [same, held]
    · split
      · next same => simpa [same] using free
      · rfl
  · rintro _ rfl -
    rw [spec, if_pos rfl]
  · rintro _ rfl -
    exact ⟨output, by rw [spec, if_neg apart, if_pos rfl]⟩
  · rw [spec, if_neg fun same => other ⟨same, same ▸ typed⟩, if_neg fun same => apart' _ rfl typed same.symm]

variable {session last : Session} {content output : Bytes}

theorem isConvertible_of_locate (convertible : isConvertible path = true) (located : disk.locate path = .ok location) :
    isConvertible ⟨true, location⟩ = true :=
  isConvertible_congr (name_of_locate (isNamed_of_isConvertible convertible).1 located) ▸ convertible

/-- A file whose content can be converted is replaced when no directory is in the way. -/
theorem convertFile_run_of_free (tree : session.disk.IsTree) (named : path.IsNamed)
    (located : session.disk.locate path = .ok location) (held : session.disk.entry? location = some (.file content))
    (untyped : withoutTypes path content = .ok output) (free : session.disk.entry? (untypedLocation location) ≠ some .directory) :
    (convertFile path).run session = (.ok (convertedPath path),
      { session with disk := (session.disk.put (untypedLocation location) (.file output)).remove location }) := by
  have written : session.disk.write (convertedPath path) output =
      .ok (session.disk.put (untypedLocation location) (.file output)) := by
    have parent : session.disk.entry? (untypedLocation location).dropLast = some .directory := by
      have above := tree.directory_dropLast held
      rw [← List.dropLast_append_getLast (Disk.ne_root_of_file held), untypedLocation_concat, List.dropLast_concat]
      exact above
    rw [Disk.write, locate_convertedPath named located]
    dsimp only
    cases there : session.disk.entry? (untypedLocation location) with
    | none =>
      dsimp only
      rw [parent]
    | some entry =>
      cases entry with
      | file old => rfl
      | directory => exact absurd there free
  have inside : untypedLocation location ≠ [] := by
    rw [untypedLocation, parts_convertedPath]
    exact List.append_ne_nil_of_right_ne_nil _ (List.cons_ne_nil _ _)
  have grows : Disk.Grows (· = untypedLocation location) session.disk (session.disk.put (untypedLocation location) (.file output)) :=
    Disk.grows_put inside fun there => absurd there free
  rw [convertFile_run, Disk.read_eq_ok_iff.mpr ⟨location, located, held⟩]
  dsimp only
  rw [untyped]
  dsimp only
  rw [written]
  dsimp only
  rw [Disk.unlink, grows.locate located]
  dsimp only
  by_cases same : location = untypedLocation location
  · rw [Disk.entry?_put _ inside, if_pos same]
  · rw [grows.elsewhere same, held]

/-- A file is converted only if its content can be and no directory is in the way. -/
theorem exists_of_convertFile {target : Path} (named : path.IsNamed)
    (ran : (convertFile path).run session = (.ok target, last)) :
    ∃ location content output, session.disk.locate path = .ok location ∧
      session.disk.entry? location = some (.file content) ∧ withoutTypes path content = .ok output ∧
      session.disk.entry? (untypedLocation location) ≠ some .directory := by
  rw [convertFile_run] at ran
  split at ran
  · cases ran
  · next content read =>
    obtain ⟨location, located, held⟩ := Disk.read_eq_ok_iff.mp read
    split at ran
    · cases ran
    · next output untyped =>
      refine ⟨location, content, output, located, held, untyped, ?_⟩
      split at ran
      · cases ran
      · next written write =>
        obtain ⟨place, reached, -, free, -⟩ := Disk.write_eq_put write
        rwa [Except.ok.inj ((locate_convertedPath named located).symm.trans reached)]

/-- A file that is converted is replaced. -/
theorem untypes_convertFile {target : Path} (tree : session.disk.IsTree) (convertible : isConvertible path = true)
    (ran : (convertFile path).run session = (.ok target, last)) :
    Untypes (fun location => session.disk.locate path = .ok location) session.disk last.disk := by
  have named := (isNamed_of_isConvertible convertible).1
  obtain ⟨location, content, output, located, held, untyped, free⟩ := exists_of_convertFile named ran
  have name := name_of_locate named located
  have typed : IsTyped session.disk location := ⟨isConvertible_of_locate convertible located, content, held,
    (converts_congr name).mpr (converts_iff.mpr ⟨output, untyped⟩)⟩
  rw [convertFile_run_of_free tree named located held untyped free] at ran
  cases ran
  refine (untypes_replace tree typed free output).congr fun other _ => ?_
  rw [located, Except.ok.injEq, eq_comm]

/-- A file that is refused is none that can lose its types. -/
theorem not_isTyped_of_refused {fault : ConversionFault} (convertible : isConvertible path = true)
    (ran : (convertFile path).run session = (.error (.conversion fault), last)) (located : session.disk.locate path = .ok location) :
    ¬ IsTyped session.disk location := by
  have spec := converted_convertFile path session
  rw [ran] at spec
  cases spec with
  | refused fails own =>
    rintro ⟨-, content, held, converts⟩
    have name := name_of_locate (isNamed_of_isConvertible convertible).1 located
    exact fails content (Disk.read_eq_ok_iff.mpr ⟨location, located, held⟩) ((converts_congr name).mp converts)

theorem untypes_convertFiles {paths : List Path} {conversion : Conversion} (tree : session.disk.IsTree)
    (convertible : ∀ path ∈ paths, isConvertible path = true) (ran : (convertFiles paths).run session = (.ok conversion, last)) :
    Untypes (fun location => ∃ path ∈ paths, session.disk.locate path = .ok location) session.disk last.disk := by
  induction paths generalizing session conversion with
  | nil =>
    cases ran
    exact .refl tree fun location own => by simp at own
  | cons path later untypes =>
    obtain ⟨own, others⟩ := List.forall_mem_cons.mp convertible
    unfold convertFiles at ran
    rw [bind_run, tryCatch_run, bind_run] at ran
    rcases first : (convertFile path).run session with ⟨failure | target, middle⟩
    · rw [first] at ran
      cases failure with
      | conversion fault =>
        obtain ⟨⟨⟩, shown, said, ran⟩ := bind_run_eq_ok_iff.mp ran
        obtain ⟨rest, ended, ran, eq⟩ := bind_run_eq_ok_iff.mp ran
        cases eq
        obtain rfl := (convertFile_conversion first).1
        have disk : shown.disk = middle.disk := by
          rw [say_run] at said
          split at said <;> cases said
          rfl
        have onward := untypes (by rwa [disk]) others ran
        rw [disk] at onward
        refine onward.congr fun location typed => ⟨fun ⟨other, mem, located⟩ => ⟨other, List.mem_cons_of_mem _ mem, located⟩, ?_⟩
        rintro ⟨other, mem, located⟩
        rcases List.mem_cons.mp mem with rfl | mem
        · exact absurd typed (not_isTyped_of_refused own first located)
        · exact ⟨other, mem, located⟩
      | _ => cases ran
    · rw [first] at ran
      obtain ⟨rest, ended, ran, eq⟩ := bind_run_eq_ok_iff.mp ran
      cases eq
      have begun := untypes_convertFile tree own first
      refine (begun.trans (untypes begun.tree others ran)).congr fun location _ => ?_
      simp only [begun.locate_iff, List.mem_cons, exists_eq_or_imp]

theorem untypes_convertConfig {before after : Progress} (tree : before.session.disk.IsTree)
    (ran : (convertConfig path).run before = (.ok (), after)) :
    Untypes (fun location => isConvertible path = true ∧ before.session.disk.locate path = .ok location)
      before.session.disk after.session.disk := by
  unfold convertConfig at ran
  split at ran
  · next convertible =>
    rw [bind_run, tryCatch_run, bind_run, perform_run] at ran
    rcases converted : (convertFile path).run before.session with ⟨failure | target, session⟩
    · rw [converted] at ran
      cases failure with
      | conversion fault =>
        have told : (warn fault.message).run { before with session := session } = (.ok (), after) := ran
        have disk : after.session.disk = before.session.disk := by
          rw [warn_run, (convertFile_conversion converted).1] at told
          split at told <;> cases told
          rfl
        rw [disk]
        exact .refl tree fun location own => not_isTyped_of_refused convertible converted own.2
      | _ => cases ran
    · rw [converted] at ran
      cases ran
      exact (untypes_convertFile tree convertible converted).congr fun location _ => by simp [convertible]
  · next other =>
    cases ran
    exact .refl tree fun location own => absurd own.1 other

/-- Steps that convert files one after the other convert those of all steps. -/
theorem untypes_forEach {α : Type} {items : List α} {step : α → Processing Unit} (gives : α → Disk → Location → Prop)
    (stable : ∀ item {given before after}, Untypes given before after → ∀ location,
      (gives item after location ↔ gives item before location))
    (each : ∀ item {before after : Progress}, before.session.disk.IsTree → (step item).run before = (.ok (), after) →
      Untypes (gives item before.session.disk) before.session.disk after.session.disk)
    {before after : Progress} (tree : before.session.disk.IsTree) (ran : (forEach step items).run before = (.ok (), after)) :
    Untypes (fun location => ∃ item ∈ items, gives item before.session.disk location)
      before.session.disk after.session.disk := by
  induction items generalizing before with
  | nil =>
    cases ran
    exact .refl tree fun location own => by simp at own
  | cons item later untypes =>
    rw [forEach, bind_run_eq_ok_iff] at ran
    obtain ⟨⟨⟩, middle, first, rest⟩ := ran
    have begun := each item tree first
    refine (begun.trans (untypes begun.tree rest)).congr fun location _ => ?_
    simp only [stable _ begun, List.mem_cons, exists_eq_or_imp]

theorem IsTyped.contains (typed : IsTyped disk location) (located : disk.locate path = .ok location) : disk.contains path = true := by
  obtain ⟨content, held, -⟩ := typed.converts
  exact Disk.contains_eq_true_iff.mpr ⟨location, _, located, held⟩

theorem untypes_configs {target : Path} {stems : List String} {before after : Progress} (tree : before.session.disk.IsTree)
    (ran : (forEach (fun stem => do forEach convertConfig (← perform (resolve target (stem ++ ".*")))) stems).run before =
      (.ok (), after)) :
    Untypes (fun location => ∃ stem ∈ stems, ∃ path ∈ candidates target (stem ++ ".*"),
        isConvertible path = true ∧ before.session.disk.locate path = .ok location)
      before.session.disk after.session.disk := by
  refine untypes_forEach (fun stem disk location => ∃ path ∈ candidates target (stem ++ ".*"),
    isConvertible path = true ∧ disk.locate path = .ok location) (fun stem given before after untypes location => ?_)
    (fun stem start last treeStart ran => ?_) tree ran
  · simp only [untypes.locate_iff]
  · obtain ⟨paths, middle, resolved, done⟩ := bind_run_eq_ok_iff.mp ran
    cases resolved
    refine (untypes_forEach (fun path disk location => isConvertible path = true ∧ disk.locate path = .ok location)
      (fun path given before after untypes location => by simp only [untypes.locate_iff])
      (fun path _ _ treeNext ran => untypes_convertConfig treeNext ran) treeStart done).congr fun location typed => ?_
    constructor
    · rintro ⟨path, mem, own⟩
      exact ⟨path, (List.mem_filter.mp mem).1, own⟩
    · rintro ⟨path, mem, convertible, located⟩
      exact ⟨path, List.mem_filter.mpr ⟨mem, typed.contains located⟩, convertible, located⟩

theorem isConvertible_of_mem_filesUnder {directory : Path} (mem : path ∈ disk.filesUnder directory isConvertible) :
    isConvertible path = true := by
  unfold Disk.filesUnder at mem
  split at mem
  · cases mem
  · exact (List.mem_filter.mp (List.mem_mergeSort.mp mem)).2

/-- A location lies under the one of a directory. -/
def LiesUnder (disk : Disk) (directory : Path) (location : Location) : Prop :=
  ∃ base names, disk.locate directory = .ok base ∧ names ≠ [] ∧ location = base ++ names

theorem mem_filesUnder_iff (tree : disk.IsTree) {directory : Path} {base : Location} {accepts : Path → Bool}
    (located : disk.locate directory = .ok base) :
    path ∈ disk.filesUnder directory accepts ↔
      ∃ names, names ≠ [] ∧ path = { directory with parts := directory.parts ++ names } ∧
        accepts path = true ∧ ∃ content, disk.entry? (base ++ names) = some (.file content) := by
  rw [Disk.filesUnder, located]
  dsimp only
  rw [List.mem_mergeSort, List.mem_filter, List.mem_filterMap]
  constructor
  · rintro ⟨⟨⟨names, entry⟩, mem, eq⟩, accepted⟩
    obtain ⟨⟨place, entry'⟩, mem, same⟩ := List.mem_map.mp mem
    obtain ⟨held, inside⟩ := List.mem_filter.mp mem
    cases same
    simp only [Bool.and_eq_true, List.isPrefixOf_iff_prefix, ne_eq, decide_not, Bool.not_eq_true',
      decide_eq_false_iff_not] at inside
    obtain ⟨⟨names, rfl⟩, apart⟩ := inside
    have some_ : names ≠ [] := fun none_ => apart (by rw [none_, List.append_nil])
    rw [List.drop_left] at eq
    cases entry' with
    | directory => cases eq
    | file content =>
      obtain rfl := Option.some.inj eq
      exact ⟨names, some_, rfl, accepted, content, tree.held_of_mem (List.append_ne_nil_of_right_ne_nil _ some_) held⟩
  · rintro ⟨names, some_, rfl, accepted, content, held⟩
    refine ⟨⟨(names, .file content), List.mem_map.mpr ⟨(base ++ names, .file content), List.mem_filter.mpr ⟨?_, ?_⟩, ?_⟩, rfl⟩, accepted⟩
    · exact Disk.mem_of_held (List.append_ne_nil_of_right_ne_nil _ some_) held
    · simp [some_]
    · rw [List.drop_left]

theorem locate_append (tree : disk.IsTree) {directory : Path} {base : Location} {names : List String}
    (located : disk.locate directory = .ok base) {entry : Entry} (held : disk.entry? (base ++ names) = some entry) :
    disk.locate { directory with parts := directory.parts ++ names } = .ok (base ++ names) := by
  rw [Disk.locate] at located ⊢
  rw [Disk.follow_append, located]
  exact tree.follow_of_held held

theorem name_append {directory : Path} {base : Location} {names : List String} (some_ : names ≠ []) :
    (Files.Path.mk true (base ++ names)).name = (Files.Path.mk directory.absolute (directory.parts ++ names)).name := by
  simp only [Path.name, List.getLast?_append, List.getLast?_eq_some_getLast some_, Option.some_or]

theorem untypes_convertTree {directory : Path} {conversion : Conversion} (tree : session.disk.IsTree)
    (ran : (convertTree directory).run session = (.ok conversion, last)) :
    Untypes (LiesUnder session.disk directory) session.disk last.disk := by
  obtain ⟨paths, middle, asked, ran⟩ := bind_run_eq_ok_iff.mp ran
  cases asked
  have each : ∀ path ∈ (if session.disk.isDirectory directory then session.disk.filesUnder directory isConvertible else []),
      isConvertible path = true := by
    intro path mem
    split at mem
    · exact isConvertible_of_mem_filesUnder mem
    · cases mem
  refine (untypes_convertFiles tree each ran).congr fun location typed => ?_
  obtain ⟨content, held, -⟩ := typed.converts
  constructor
  · rintro ⟨path, mem, reached⟩
    split at mem
    · next there =>
      obtain ⟨base, located, -⟩ := Disk.isDirectory_eq_true_iff.mp there
      obtain ⟨names, some_, rfl, -, content', held'⟩ := (mem_filesUnder_iff tree located).mp mem
      rw [locate_append tree located held', Except.ok.injEq] at reached
      exact ⟨base, names, located, some_, reached.symm⟩
    · cases mem
  · rintro ⟨base, names, located, some_, rfl⟩
    have reached := locate_append tree located held
    have mem := (mem_filesUnder_iff tree located).mpr
      ⟨names, some_, rfl, isConvertible_congr (name_append some_) ▸ typed.named, content, held⟩
    have there : session.disk.isDirectory directory = true :=
      Disk.isDirectory_of_mem_filesUnder mem (Disk.read_eq_ok_iff.mpr ⟨_, reached, held⟩)
    exact ⟨_, by rwa [if_pos there], reached⟩

/-! ## The removal of types -/

variable {family : Family} {target : Path} {before after : Progress}

/-- The files that the removal of types takes care of: those whose names are the ones of configuration files, and all
that lie under the sources. -/
def Family.TakesCare (family : Family) (target : Path) (disk : Disk) (location : Location) : Prop :=
  (∃ stem ∈ family.configFiles, ∃ path ∈ candidates target (stem ++ ".*"),
      isConvertible path = true ∧ disk.locate path = .ok location) ∨
    LiesUnder disk (target.child "src") location

/-- A change of a text leaves where everything is. -/
theorem sameShape_changeText {change : List Char → List Char} {session last : Session}
    (ran : (changeText path change).run session = (.ok (), last)) : Disk.SameShape last.disk session.disk := by
  rw [changeText_run] at ran
  split at ran
  · cases ran
    exact ⟨rfl, fun _ => rfl⟩
  · next old read =>
    split at ran
    · cases ran
    · next text decoded =>
      split at ran
      · cases ran
        exact ⟨rfl, fun _ => rfl⟩
      · split at ran
        · cases ran
        · next disk written =>
          cases ran
          obtain ⟨location, located, held⟩ := Disk.read_eq_ok_iff.mp read
          obtain ⟨place, located', -, -, rfl⟩ := Disk.write_eq_put written
          obtain rfl := Except.ok.inj (located.symm.trans located')
          exact Disk.sameShape_put held _

theorem session_forEach_addWarning {α : Type} (message : α → String) (items : List α) {before after : Progress}
    (ran : (forEach (fun item => addWarning (message item)) items).run before = (.ok (), after)) :
    after.session = before.session := by
  induction items generalizing before with
  | nil =>
    cases ran
    rfl
  | cons item later same =>
    rw [forEach, bind_run_eq_ok_iff] at ran
    obtain ⟨⟨⟩, middle, first, rest⟩ := ran
    cases first
    exact (same rest).trans rfl

/-- The removal of types converts the files that it takes care of, and after that it turns to the page. -/
theorem Family.untypes_stripTypes (tree : before.session.disk.IsTree)
    (ran : (family.stripTypes target).run before = (.ok (), after)) :
    ∃ session, Untypes (family.TakesCare target before.session.disk) before.session.disk session.disk ∧
      (changeText (target.child "index.html") renameEntry).run session = (.ok (), after.session) := by
  unfold Family.stripTypes at ran
  obtain ⟨⟨⟩, untyped, changed, ran⟩ := bind_run_eq_ok_iff.mp ran
  obtain ⟨⟨⟩, configured, ranConfigs, ran⟩ := bind_run_eq_ok_iff.mp ran
  obtain ⟨conversion, converted, ranTree, ran⟩ := bind_run_eq_ok_iff.mp ran
  obtain ⟨⟨⟩, noted, ranNote, ran⟩ := bind_run_eq_ok_iff.mp ran
  obtain ⟨⟨⟩, warned, ranWarn, ran⟩ := bind_run_eq_ok_iff.mp ran
  obtain ⟨⟨⟩, paged, ranPage, retained⟩ := bind_run_eq_ok_iff.mp ran
  cases changed
  cases ranNote
  cases retained
  have configs := untypes_configs (by exact tree) ranConfigs
  rcases runTree : (convertTree (target.child "src")).run configured.session with ⟨outcome, session⟩
  rw [perform_run, runTree] at ranTree
  cases ranTree
  have sources := untypes_convertTree configs.tree runTree
  rcases runPage : (changeText (target.child "index.html") renameEntry).run warned.session with ⟨outcome, last⟩
  rw [perform_run, runPage] at ranPage
  cases ranPage
  rw [session_forEach_addWarning Prod.snd _ ranWarn] at runPage
  refine ⟨session, (configs.trans sources).congr fun location _ => ?_, runPage⟩
  simp only [TakesCare, LiesUnder, configs.locate_iff]

end Scaffold.Project
