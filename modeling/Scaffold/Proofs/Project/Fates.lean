import Scaffold.Proofs.Project.Converting

/-! # What becomes of the files of a tree

The conversion of a tree goes through its files in order. It tells of each whether it was converted, and a file whose
content does not allow it is left as it was and keeps no other from being converted. Two things do keep the others from
it: a directory that is where the new file belongs, and a report that is no well-formed markup.
-/

namespace Scaffold.Project

open Scaffold.Text Scaffold.Files Stateful Processing

variable {path directory : Path} {paths : List Path} {location : Location} {disk before after : Disk}
variable {session last : Session} {given : Location → Prop} {content output : Bytes} {fault : ConversionFault}

/-- A file holds what can be converted, and this is what comes out. -/
def Yields (disk : Disk) (path : Path) (output : Bytes) : Prop :=
  ∃ content, disk.read path = .ok content ∧ withoutTypes path content = .ok output

/-- A file holds what cannot be converted, and this is wrong with it. -/
def Defies (disk : Disk) (path : Path) (fault : ConversionFault) : Prop :=
  ∃ content, disk.read path = .ok content ∧ withoutTypes path content = .error fault

theorem Yields.contains (yields : Yields disk path output) : disk.contains path = true := by
  obtain ⟨content, read, -⟩ := yields
  obtain ⟨location, located, held⟩ := Disk.read_eq_ok_iff.mp read
  exact Disk.contains_eq_true_iff.mpr ⟨location, _, located, held⟩

/-- The line that reports a file that is left. -/
def skipNotice (path : Path) (fault : ConversionFault) : String :=
  "  [yellow]Skipping " ++ path.name ++ ": " ++ fault.message ++ "[/yellow]"

/-- What a conversion does not get past: a directory where the new file belongs, and a report that is no well-formed markup. -/
inductive Halts (disk : Disk) (path : Path) : Prop
  | occupied {output : Bytes} (yields : Yields disk path output) (taken : disk.isDirectory (convertedPath path) = true)
  | malformed {fault : ConversionFault} {markup : Console.MarkupFault} (defies : Defies disk path fault)
      (unshown : Console.showMarkup (skipNotice path fault) = .error markup)

/-- A conversion tells of files in their order: of those that were converted the new paths, of the others the old ones
and what is wrong with them. -/
inductive Tells (disk : Disk) : List Path → Conversion → Prop
  | nil : Tells disk [] ⟨[], []⟩
  | converted {path : Path} {later : List Path} {output : Bytes} {rest : Conversion} (yields : Yields disk path output)
      (others : Tells disk later rest) : Tells disk (path :: later) { rest with converted := convertedPath path :: rest.converted }
  | failed {path : Path} {later : List Path} {fault : ConversionFault} {rest : Conversion} (defies : Defies disk path fault)
      (others : Tells disk later rest) : Tells disk (path :: later) { rest with failures := (path, fault.message) :: rest.failures }

/-- What has become of a file: it is gone, and what comes out of it is next to it, or it cannot be converted and holds
what it held. -/
inductive Settles (before after : Disk) (path : Path) : Prop
  | converted {output : Bytes} (yields : Yields before path output) (gone : after.contains path = false)
      (made : after.read (convertedPath path) = .ok output)
  | failed {fault : ConversionFault} (defies : Defies before path fault) (left : after.read path = before.read path)

/-! ## One file after the other -/

theorem untypedLocation_injective {first second : Location} (one : isConvertible ⟨true, first⟩ = true)
    (other : isConvertible ⟨true, second⟩ = true) (same : untypedLocation first = untypedLocation second) : first = second := by
  have split {location : Location} (convertible : isConvertible ⟨true, location⟩ = true) :
      ∃ here stem, location = here ++ [stem ++ ".ts"] ∧ untypedLocation location = here ++ [stem ++ ".js"] := by
    obtain ⟨new, old⟩ := untypedName_of_isConvertible convertible
    have last := Path.getLast?_of_isNamed (isNamed_of_isConvertible convertible).1
    refine ⟨location.dropLast, _, ?_, by rw [← new]; rfl⟩
    rw [← old]
    exact (List.dropLast_append_getLast? _ last).symm
  obtain ⟨here, stem, rfl, new⟩ := split one
  obtain ⟨here', stem', rfl, new'⟩ := split other
  rw [new, new'] at same
  obtain ⟨rfl, names⟩ := List.append_inj' same rfl
  rw [List.cons.injEq, String.append_left_inj] at names
  rw [names.1]

/-- A file that is not given is read as before. -/
theorem Untypes.read_of_not_given (untypes : Untypes given before after) (convertible : isConvertible path = true)
    (located : before.locate path = .ok location) (apart : ¬ given location) : after.read path = before.read path := by
  have same := untypes.elsewhere (fun own => apart own.1) fun source _ typed =>
    Untypes.ne_untypedLocation (isConvertible_of_locate convertible located) typed
  rw [Disk.read, Disk.read, located, untypes.locate_iff.mpr located]
  dsimp only
  rw [same]

theorem Untypes.isDirectory (untypes : Untypes given before after) (path : Path) :
    after.isDirectory path = before.isDirectory path := by
  rw [Bool.eq_iff_iff, Disk.isDirectory_eq_true_iff, Disk.isDirectory_eq_true_iff]
  simp only [untypes.locate_iff, untypes.directory]

/-- Files that are there, each at a place of its own, with names of files that can lose their types. -/
structure AreSources (disk : Disk) (paths : List Path) : Prop where
  convertible : ∀ path ∈ paths, isConvertible path = true
  held : ∀ path ∈ paths, ∃ content, disk.read path = .ok content
  apart : paths.Pairwise fun first second => disk.locate first ≠ disk.locate second

section Congruence

variable (read : after.read path = before.read path)
include read

theorem yields_congr : Yields after path output ↔ Yields before path output := by
  unfold Yields
  rw [read]

theorem defies_congr : Defies after path fault ↔ Defies before path fault := by
  unfold Defies
  rw [read]

theorem halts_congr (taken : after.isDirectory (convertedPath path) = before.isDirectory (convertedPath path)) :
    Halts after path ↔ Halts before path := by
  constructor
  · rintro (⟨yields, there⟩ | ⟨defies, unshown⟩)
    · exact .occupied ((yields_congr read).mp yields) (taken.symm.trans there)
    · exact .malformed ((defies_congr read).mp defies) unshown
  · rintro (⟨yields, there⟩ | ⟨defies, unshown⟩)
    · exact .occupied ((yields_congr read).mpr yields) (taken.trans there)
    · exact .malformed ((defies_congr read).mpr defies) unshown

theorem Settles.of_read (settles : Settles after disk path) : Settles before disk path := by
  rcases settles with ⟨yields, gone, made⟩ | ⟨defies, left⟩
  · exact .converted ((yields_congr read).mp yields) gone made
  · exact .failed ((defies_congr read).mp defies) (left.trans read)

end Congruence

theorem Tells.congr {conversion : Conversion} (tells : Tells after paths conversion)
    (read : ∀ path ∈ paths, after.read path = before.read path) : Tells before paths conversion := by
  induction tells with
  | nil => exact .nil
  | converted yields _ others =>
    obtain ⟨own, later⟩ := List.forall_mem_cons.mp read
    exact .converted ((yields_congr own).mp yields) (others later)
  | failed defies _ others =>
    obtain ⟨own, later⟩ := List.forall_mem_cons.mp read
    exact .failed ((defies_congr own).mp defies) (others later)

/-- What has become of a file stays so when others are converted. -/
theorem Settles.untypes (settles : Settles disk before path) (convertible : isConvertible path = true)
    (located : before.locate path = .ok location) (untypes : Untypes given before after) (apart : ¬ given location) :
    Settles disk after path := by
  have typed := isConvertible_of_locate convertible located
  rcases settles with ⟨yields, gone, made⟩ | ⟨defies, left⟩
  · refine .converted yields (Bool.eq_false_iff.mpr fun there => ?_) ?_
    · obtain ⟨reached, entry, located', held⟩ := Disk.contains_eq_true_iff.mp there
      obtain rfl := Except.ok.inj (located.symm.trans (untypes.locate_iff.mp located'))
      rw [untypes.elsewhere (fun own => apart own.1) fun source _ => Untypes.ne_untypedLocation typed] at held
      exact Bool.false_ne_true (gone.symm.trans (Disk.contains_eq_true_iff.mpr ⟨_, entry, located, held⟩))
    · obtain ⟨reached, located', held⟩ := Disk.read_eq_ok_iff.mp made
      obtain rfl := Except.ok.inj ((locate_convertedPath (isNamed_of_isConvertible convertible).1 located).symm.trans located')
      refine Disk.read_eq_ok_iff.mpr ⟨_, untypes.locate_iff.mpr located', ?_⟩
      rw [untypes.elsewhere (fun own => ?_) fun source own typed' same => ?_, held]
      · exact Bool.false_ne_true ((isConvertible_untypedLocation typed).symm.trans own.2.named)
      · exact apart (untypedLocation_injective typed'.named typed same ▸ own)
  · exact .failed defies ((untypes.read_of_not_given convertible located apart).trans left)

theorem convertFile_run_of_occupied (yields : Yields session.disk path output)
    (taken : session.disk.isDirectory (convertedPath path) = true) :
    (convertFile path).run session = (.error (.text (.trouble ⟨.isDirectory, convertedPath path⟩)), session) := by
  obtain ⟨content, read, untyped⟩ := yields
  obtain ⟨location, located, held⟩ := Disk.isDirectory_eq_true_iff.mp taken
  have unwritten : session.disk.write (convertedPath path) output = .error ⟨.isDirectory, convertedPath path⟩ := by
    rw [Disk.write, located]
    dsimp only
    rw [held]
  rw [convertFile_run, read]
  dsimp only
  rw [untyped]
  dsimp only
  rw [unwritten]

theorem convertFile_run_of_defies (defies : Defies session.disk path fault) :
    (convertFile path).run session = (.error (.conversion fault), session) := by
  obtain ⟨content, read, untyped⟩ := defies
  rw [convertFile_run, read]
  dsimp only
  rw [untyped]

/-- A file that holds what can be converted is converted when no directory is in the way. -/
theorem exists_convertFile_of_yields (tree : session.disk.IsTree) (convertible : isConvertible path = true)
    (yields : Yields session.disk path output) (free : ¬ session.disk.isDirectory (convertedPath path) = true) :
    ∃ middle, (convertFile path).run session = (.ok (convertedPath path), middle) ∧ Settles session.disk middle.disk path := by
  obtain ⟨content, read, untyped⟩ := yields
  obtain ⟨location, located, held⟩ := Disk.read_eq_ok_iff.mp read
  have typed := isConvertible_of_locate convertible located
  have named := (isNamed_of_isConvertible convertible).1
  have reached := locate_convertedPath named located
  have open_ : session.disk.entry? (untypedLocation location) ≠ some .directory := fun there =>
    free (Disk.isDirectory_eq_true_iff.mpr ⟨_, reached, there⟩)
  have ran := convertFile_run_of_free tree named located held untyped open_
  have untypes := untypes_convertFile tree convertible ran
  have replaced := (entry?_replace tree held open_ output).2
  refine ⟨_, ran, .converted ⟨content, read, untyped⟩ (Bool.eq_false_iff.mpr fun there => ?_) ?_⟩
  · obtain ⟨place, entry, located', held'⟩ := Disk.contains_eq_true_iff.mp there
    obtain rfl := Except.ok.inj (located.symm.trans (untypes.locate_iff.mp located'))
    rw [replaced, if_pos rfl] at held'
    cases held'
  · refine Disk.read_eq_ok_iff.mpr ⟨_, untypes.locate_iff.mpr reached, ?_⟩
    rw [replaced, if_neg (untypedLocation_ne typed), if_pos rfl]

theorem convertFiles_cons_run (path : Path) (later : List Path) (session : Session) :
    (convertFiles (path :: later)).run session =
      match (convertFile path).run session with
      | (.ok target, middle) =>
        match (convertFiles later).run middle with
        | (.ok rest, last) => (.ok { rest with converted := target :: rest.converted }, last)
        | (.error failure, last) => (.error failure, last)
      | (.error (.conversion fault), middle) =>
        match (Operation.say (skipNotice path fault)).run middle with
        | (.ok (), told) =>
          match (convertFiles later).run told with
          | (.ok rest, last) => (.ok { rest with failures := (path, fault.message) :: rest.failures }, last)
          | (.error failure, last) => (.error failure, last)
        | (.error failure, told) => (.error failure, told)
      | (.error failure, middle) => (.error failure, middle) := by
  rw [convertFiles, bind_run, tryCatch_run, bind_run]
  rcases (convertFile path).run session with ⟨failure | target, middle⟩
  · cases failure with
    | conversion fault =>
      change (Operation.say (skipNotice path fault) >>= _).run middle = _
      rw [bind_run]
      dsimp only
      rcases (Operation.say (skipNotice path fault)).run middle with ⟨failure | value, told⟩
      · rfl
      · dsimp only
        rw [bind_run]
        rcases (convertFiles later).run told with ⟨failure | rest, last⟩ <;> rfl
    | _ => rfl
  · change (convertFiles later >>= _).run middle = _
    rw [bind_run]
    dsimp only
    rcases (convertFiles later).run middle with ⟨failure | rest, last⟩ <;> rfl

/-! ## All files -/

/-- What a run of conversions comes to: it tells of all files and settles each, or there is a file that it does not get past. -/
inductive Outcome (session : Session) (paths : List Path) : Except Failure Conversion × Session → Prop
  | ended {conversion : Conversion} {last : Session} (passes : ∀ path ∈ paths, ¬ Halts session.disk path)
      (tells : Tells session.disk paths conversion) (settles : ∀ path ∈ paths, Settles session.disk last.disk path) :
      Outcome session paths (.ok conversion, last)
  | stopped {path : Path} {failure : Failure} {last : Session} (mem : path ∈ paths) (halts : Halts session.disk path) :
      Outcome session paths (.error failure, last)

namespace AreSources

variable {later : List Path}

theorem tail (sources : AreSources disk (path :: later)) : AreSources disk later :=
  ⟨(List.forall_mem_cons.mp sources.convertible).2, (List.forall_mem_cons.mp sources.held).2,
    (List.pairwise_cons.mp sources.apart).2⟩

theorem exists_locate (sources : AreSources disk paths) {path : Path} (mem : path ∈ paths) :
    ∃ location, disk.locate path = .ok location := by
  obtain ⟨content, read⟩ := sources.held path mem
  obtain ⟨location, located, -⟩ := Disk.read_eq_ok_iff.mp read
  exact ⟨location, located⟩

/-- The conversion of the first file leaves the others. -/
theorem read_later (sources : AreSources before (path :: later))
    (untypes : Untypes (fun location => before.locate path = .ok location) before after) {other : Path} (mem : other ∈ later) :
    after.read other = before.read other := by
  obtain ⟨location, located⟩ := sources.tail.exists_locate mem
  refine untypes.read_of_not_given (sources.tail.convertible other mem) located fun same => ?_
  exact (List.pairwise_cons.mp sources.apart).1 other mem (same.trans located.symm)

theorem onward (sources : AreSources before (path :: later))
    (untypes : Untypes (fun location => before.locate path = .ok location) before after) : AreSources after later := by
  refine ⟨sources.tail.convertible, fun other mem => ?_, sources.tail.apart.imp_of_mem fun first second apart same => apart ?_⟩
  · rw [sources.read_later untypes mem]
    exact sources.tail.held other mem
  · obtain ⟨location, located⟩ := sources.tail.exists_locate first
    obtain ⟨location', located'⟩ := sources.tail.exists_locate second
    rw [untypes.locate_iff.mpr located, untypes.locate_iff.mpr located'] at same
    rw [located, located', same]

/-- What has become of the first file stays so when the others are converted. -/
theorem settles_head (sources : AreSources before (path :: later)) (settles : Settles before disk path)
    (reached : ∀ {path location}, disk.locate path = .ok location ↔ before.locate path = .ok location)
    (untypes : Untypes (fun location => ∃ path ∈ later, disk.locate path = .ok location) disk after) :
    Settles before after path := by
  obtain ⟨location, located⟩ := sources.exists_locate List.mem_cons_self
  refine settles.untypes (sources.convertible path List.mem_cons_self) (reached.mpr located) untypes ?_
  rintro ⟨other, mem, same⟩
  exact (List.pairwise_cons.mp sources.apart).1 other mem (located.trans (reached.mp same).symm)

end AreSources

theorem Defies.not_halts {text : String} (defies : Defies disk path fault)
    (shown : Console.showMarkup (skipNotice path fault) = .ok text) : ¬ Halts disk path := by
  obtain ⟨content, read, fails⟩ := defies
  rintro (⟨⟨other, read', untyped⟩, -⟩ | ⟨⟨other, read', fails'⟩, unshown⟩)
  · obtain rfl := Except.ok.inj (read.symm.trans read')
    cases fails.symm.trans untyped
  · obtain rfl := Except.ok.inj (read.symm.trans read')
    obtain rfl := Except.error.inj (fails.symm.trans fails')
    cases shown.symm.trans unshown

theorem Yields.not_halts (yields : Yields disk path output) (free : ¬ disk.isDirectory (convertedPath path) = true) :
    ¬ Halts disk path := by
  obtain ⟨content, read, untyped⟩ := yields
  rintro (⟨-, taken⟩ | ⟨⟨other, read', fails⟩, -⟩)
  · exact free taken
  · obtain rfl := Except.ok.inj (read.symm.trans read')
    cases untyped.symm.trans fails

/-- The files are converted one after the other, each as if it were alone. -/
theorem outcome_convertFiles (tree : session.disk.IsTree) (sources : AreSources session.disk paths) :
    Outcome session paths ((convertFiles paths).run session) := by
  induction paths generalizing session with
  | nil => exact .ended (by simp) .nil (by simp)
  | cons path later outcome =>
    obtain ⟨content, read⟩ := sources.held path List.mem_cons_self
    have convertible := sources.convertible path List.mem_cons_self
    rw [convertFiles_cons_run]
    cases untyped : withoutTypes path content with
    | error fault =>
      have defies : Defies session.disk path fault := ⟨content, read, untyped⟩
      rw [convertFile_run_of_defies defies]
      dsimp only
      rw [say_run]
      cases shown : Console.showMarkup (skipNotice path fault) with
      | error markup => exact .stopped List.mem_cons_self (.malformed defies shown)
      | ok text =>
        dsimp only
        have others : Outcome { session with shown := session.shown ++ [.text (text ++ "\n")] } later _ :=
          outcome (by exact tree) (by exact sources.tail)
        rcases ran : (convertFiles later).run { session with shown := session.shown ++ [.text (text ++ "\n")] }
          with ⟨failure | rest, last⟩ <;> rw [ran] at others <;> cases others
        case stopped mem halts => exact .stopped (List.mem_cons_of_mem _ mem) halts
        case ended passes tells settles =>
          have untypes := untypes_convertFiles (by exact tree) sources.tail.convertible ran
          have own := sources.settles_head (.failed defies rfl) Iff.rfl untypes
          exact .ended (List.forall_mem_cons.mpr ⟨defies.not_halts shown, passes⟩) (.failed defies tells)
            (List.forall_mem_cons.mpr ⟨own, settles⟩)
    | ok output =>
      have yields : Yields session.disk path output := ⟨content, read, untyped⟩
      by_cases free : session.disk.isDirectory (convertedPath path) = true
      · rw [convertFile_run_of_occupied yields free]
        exact .stopped List.mem_cons_self (.occupied yields free)
      · obtain ⟨middle, first, settled⟩ := exists_convertFile_of_yields tree convertible yields free
        have untypes := untypes_convertFile tree convertible first
        have same {other : Path} (mem : other ∈ later) := sources.read_later untypes mem
        have others := outcome untypes.tree (sources.onward untypes)
        rw [first]
        dsimp only
        rcases ran : (convertFiles later).run middle with ⟨failure | rest, last⟩ <;> rw [ran] at others <;> cases others
        case stopped other mem halts =>
          exact .stopped (List.mem_cons_of_mem _ mem) ((halts_congr (same mem) (untypes.isDirectory _)).mp halts)
        case ended passes tells settles =>
          have own := sources.settles_head settled untypes.locate_iff
            (untypes_convertFiles untypes.tree sources.tail.convertible ran)
          refine .ended (List.forall_mem_cons.mpr ⟨yields.not_halts free, fun other mem halts => ?_⟩)
            (.converted yields (tells.congr fun other mem => same mem))
            (List.forall_mem_cons.mpr ⟨own, fun other mem => (settles other mem).of_read (same mem)⟩)
          exact passes other mem ((halts_congr (same mem) (untypes.isDirectory _)).mpr halts)

/-! ## The files of a tree -/

theorem before_trans {first second third : Path} (one : first.before second = true) (other : second.before third = true) :
    first.before third = true := by
  rw [Path.before, Bool.not_eq_true'] at one other ⊢
  exact List.lex_eq_false_iff_ge.mpr (List.le_trans (List.lex_eq_false_iff_ge.mp one) (List.lex_eq_false_iff_ge.mp other))

theorem before_total (first second : Path) : (first.before second || second.before first) = true := by
  rw [Bool.or_eq_true, Path.before, Path.before, Bool.not_eq_true', Bool.not_eq_true', List.lex_eq_false_iff_ge,
    List.lex_eq_false_iff_ge]
  exact List.le_total _ _

theorem parts_eq_of_before {first second : Path} (one : first.before second = true) (other : second.before first = true) :
    first.parts = second.parts := by
  rw [Path.before, Bool.not_eq_true'] at one other
  exact List.le_antisymm (List.lex_eq_false_iff_ge.mp one) (List.lex_eq_false_iff_ge.mp other)

/-- The files under a directory come once each, in the order of paths. -/
theorem ordered_filesUnder (tree : disk.IsTree) (directory : Path) (accepts : Path → Bool) :
    (disk.filesUnder directory accepts).Pairwise fun first second => second.before first = false := by
  have ordered : (disk.filesUnder directory accepts).Pairwise fun first second => first.before second = true := by
    unfold Disk.filesUnder
    split
    · exact .nil
    · apply List.pairwise_mergeSort
      · exact fun _ _ _ => before_trans
      · exact before_total
  have distinct : (disk.filesUnder directory accepts).Pairwise fun first second => first.parts ≠ second.parts := by
    unfold Disk.filesUnder
    split
    · exact .nil
    · next base located =>
      refine ((List.mergeSort_perm _ _).pairwise_iff fun apart => apart.symm).mpr (List.Pairwise.filter _ ?_)
      unfold Disk.under
      rw [List.pairwise_filterMap, List.pairwise_map]
      refine ((List.pairwise_map.mp tree.distinct).filter _).imp_of_mem fun {first second} mem mem' apart => ?_
      intro path own path' own' same
      simp only [List.mem_filter, Bool.and_eq_true, List.isPrefixOf_iff_prefix] at mem mem'
      obtain ⟨-, ⟨names, whole⟩, -⟩ := mem
      obtain ⟨-, ⟨names', whole'⟩, -⟩ := mem'
      dsimp only at own own'
      rw [← whole, List.drop_left] at own
      rw [← whole', List.drop_left] at own'
      split at own <;> cases own
      split at own' <;> cases own'
      dsimp only at same
      rw [← whole, ← whole', List.append_cancel_left same] at apart
      exact apart rfl
  exact (ordered.and distinct).imp fun both => Bool.eq_false_iff.mpr fun later => both.2 (parts_eq_of_before both.1 later)

theorem areSources_filesUnder (tree : disk.IsTree) (directory : Path) :
    AreSources disk (disk.filesUnder directory isConvertible) := by
  have reaches {path : Path} (mem : path ∈ disk.filesUnder directory isConvertible) :
      ∃ base names content, disk.locate directory = .ok base ∧ path.parts = directory.parts ++ names ∧
        disk.locate path = .ok (base ++ names) ∧ disk.entry? (base ++ names) = some (.file content) := by
    cases located : disk.locate directory with
    | error cause =>
      rw [Disk.filesUnder, located] at mem
      cases mem
    | ok base =>
      obtain ⟨names, -, rfl, -, content, held⟩ := (mem_filesUnder_iff tree located).mp mem
      exact ⟨base, names, content, rfl, rfl, locate_append tree located held, held⟩
  refine ⟨fun path => isConvertible_of_mem_filesUnder, fun path mem => ?_, ?_⟩
  · obtain ⟨base, names, content, -, -, located, held⟩ := reaches mem
    exact ⟨content, Disk.read_eq_ok_iff.mpr ⟨_, located, held⟩⟩
  · refine (ordered_filesUnder tree directory _).imp_of_mem fun {first second} mem mem' ordered same => ?_
    obtain ⟨base, names, content, origin, parts, located, -⟩ := reaches mem
    obtain ⟨base', names', content', origin', parts', located', -⟩ := reaches mem'
    obtain rfl := Except.ok.inj (origin.symm.trans origin')
    rw [located, located', Except.ok.injEq, List.append_cancel_left_eq] at same
    have reflexive := before_total second first
    rw [Path.before, Path.before, parts, parts', same, Bool.or_self] at reflexive
    rw [Path.before, parts, parts', same, reflexive] at ordered
    cases ordered

/-- The files of a tree that a conversion is about: the regular files under its directory with names of files that can
lose their types, each once, and in the order of their paths. -/
structure ListsSources (disk : Disk) (directory : Path) (files : List Path) : Prop where
  mem_iff : ∀ path, path ∈ files ↔ ∃ names ≠ [], (∀ name ∈ names, IsPlain name) ∧
    path = { directory with parts := directory.parts ++ names } ∧ isConvertible path = true ∧ disk.isFile path = true
  ordered : files.Pairwise fun first second => second.before first = false

theorem listsSources_filesUnder (tree : disk.IsTree) (directory : Path) :
    ListsSources disk directory (disk.filesUnder directory isConvertible) := by
  refine ⟨fun path => ⟨fun mem => ?_, ?_⟩, ordered_filesUnder tree directory _⟩
  · cases located : disk.locate directory with
    | error cause =>
      rw [Disk.filesUnder, located] at mem
      cases mem
    | ok base =>
      obtain ⟨names, some_, rfl, convertible, content, held⟩ := (mem_filesUnder_iff tree located).mp mem
      refine ⟨names, some_, fun name mem => tree.isPlain_of_mem held (List.mem_append_right _ mem), rfl, convertible, ?_⟩
      exact Disk.isFile_of_read (Disk.read_eq_ok_iff.mpr ⟨_, locate_append tree located held, held⟩)
  · rintro ⟨names, some_, plain, rfl, convertible, there⟩
    obtain ⟨content, read⟩ := exists_read_of_isFile there
    obtain ⟨location, located, held⟩ := Disk.read_eq_ok_iff.mp read
    rw [Disk.locate, Disk.follow_append] at located
    cases base : disk.locate directory with
    | error cause =>
      rw [Disk.locate] at base
      rw [base] at located
      cases located
    | ok here =>
      have origin := base
      rw [Disk.locate] at base
      rw [base] at located
      obtain rfl := Disk.follow_eq_append (fun up => (plain _ up).2.2.1 rfl) located
      exact (mem_filesUnder_iff tree origin).mpr ⟨names, some_, rfl, convertible, content, held⟩

theorem convertTree_run (directory : Path) (tree : session.disk.IsTree) :
    (convertTree directory).run session =
      (convertFiles (session.disk.filesUnder directory isConvertible)).run session := by
  rw [convertTree, bind_run, ask_run]
  dsimp only
  split
  · rfl
  · next other =>
    have none_ : session.disk.filesUnder directory isConvertible = [] := by
      refine List.eq_nil_iff_forall_not_mem.mpr fun path mem => other ?_
      obtain ⟨content, read⟩ := (areSources_filesUnder tree directory).held path mem
      exact Disk.isDirectory_of_mem_filesUnder mem read
    rw [none_]

/-- The conversion of a tree yields a result unless there is a file that it does not get past. The result tells of the
files of the tree in their order. Those that can be converted are gone, and what came out of them lies next to where
they were; the others hold what they held. -/
theorem conversion_settles_files (tree : session.disk.IsTree) (directory : Path) :
    ∃ files, ListsSources session.disk directory files ∧
      ((∃ conversion last, (convertTree directory).run session = (.ok conversion, last)) ↔
        ∀ path ∈ files, ¬ Halts session.disk path) ∧
      ∀ conversion last, (convertTree directory).run session = (.ok conversion, last) →
        Tells session.disk files conversion ∧ ∀ path ∈ files, Settles session.disk last.disk path := by
  refine ⟨_, listsSources_filesUnder tree directory, ?_⟩
  have outcome := outcome_convertFiles tree (areSources_filesUnder tree directory)
  rw [← convertTree_run directory tree] at outcome
  rcases ran : (convertTree directory).run session with ⟨failure | conversion, last⟩ <;> rw [ran] at outcome
  · cases outcome with
    | stopped mem halts =>
      refine ⟨⟨?_, fun passes => absurd halts (passes _ mem)⟩, ?_⟩
      · rintro ⟨conversion, last, ⟨⟩⟩
      · rintro conversion last ⟨⟩
  · cases outcome with
    | ended passes tells settles =>
      refine ⟨⟨fun _ => passes, fun _ => ⟨conversion, last, rfl⟩⟩, ?_⟩
      rintro conversion last ⟨⟩
      exact ⟨tells, settles⟩

/-- Sources of which the first cannot be converted. -/
def mixedSources : Session :=
  ⟨⟨[], [(["src"], .directory), (["src", "a.ts"], .file [0xE9]), (["src", "b.ts"], .file [])]⟩, [], []⟩

theorem mergeSort_sources : List.mergeSort [⟨false, ["src", "a.ts"]⟩, ⟨false, ["src", "b.ts"]⟩] Path.before =
    [⟨false, ["src", "a.ts"]⟩, ⟨false, ["src", "b.ts"]⟩] := by
  have ordered : Path.before ⟨false, ["src", "a.ts"]⟩ ⟨false, ["src", "b.ts"]⟩ = true := by decide
  simp [List.mergeSort, List.MergeSort.Internal.splitInTwo, ordered]

/-- The first file holds what it held, and the second one is converted all the same. -/
theorem mixed_sources_are_settled :
    mixedSources.disk.IsTree ∧ ∃ conversion last, (convertTree ⟨false, ["src"]⟩).run mixedSources = (.ok conversion, last) ∧
      conversion.converted = [⟨false, ["src", "b.js"]⟩] ∧
      Settles mixedSources.disk last.disk ⟨false, ["src", "a.ts"]⟩ ∧ Settles mixedSources.disk last.disk ⟨false, ["src", "b.ts"]⟩ := by
  have tree : mixedSources.disk.IsTree := by decide
  refine ⟨tree, ?_⟩
  obtain ⟨files, lists, -, results⟩ := conversion_settles_files tree ⟨false, ["src"]⟩
  have ran : (convertTree ⟨false, ["src"]⟩).run mixedSources =
      (convertFiles [⟨false, ["src", "a.ts"]⟩, ⟨false, ["src", "b.ts"]⟩]).run mixedSources := by
    rw [convertTree_run _ tree]
    exact congrArg (fun files => (convertFiles files).run mixedSources) mergeSort_sources
  have told : ((convertFiles [⟨false, ["src", "a.ts"]⟩, ⟨false, ["src", "b.ts"]⟩]).run mixedSources).1.toOption.map
      Conversion.converted = some [⟨false, ["src", "b.js"]⟩] := by decide +kernel
  rw [← ran] at told
  rcases ran : (convertTree ⟨false, ["src"]⟩).run mixedSources with ⟨failure | conversion, last⟩
  · rw [ran] at told
    cases told
  · rw [ran] at told
    have settles := (results conversion last ran).2
    refine ⟨conversion, last, rfl, Option.some.inj told, settles _ ((lists.mem_iff _).mpr ⟨["a.ts"], ?_⟩),
      settles _ ((lists.mem_iff _).mpr ⟨["b.ts"], ?_⟩)⟩
    all_goals decide

/-- Sources with a directory where a new file belongs. -/
def occupiedSources : Session :=
  ⟨⟨[], [(["src"], .directory), (["src", "a.js"], .directory), (["src", "a.ts"], .file []), (["src", "b.ts"], .file [])]⟩, [], []⟩

/-- The conversion stops at the first file, and the second one is not converted. -/
theorem occupied_sources_are_left :
    occupiedSources.disk.IsTree ∧ (convertTree ⟨false, ["src"]⟩).run occupiedSources =
      (.error (.text (.trouble ⟨.isDirectory, ⟨false, ["src", "a.js"]⟩⟩)), occupiedSources) := by
  have tree : occupiedSources.disk.IsTree := by decide
  refine ⟨tree, ?_⟩
  rw [convertTree_run _ tree]
  refine (congrArg (fun files => (convertFiles files).run occupiedSources) mergeSort_sources).trans ?_
  with_unfolding_all rfl

end Scaffold.Project
