import Scaffold.Proofs.Files.Frames
import Scaffold.Proofs.Project.Aftermath
import Scaffold.Proofs.Project.Fates

/-! # Operations that find nothing to do

Where nothing is left to be removed, pruned or converted, the steps of a removal leave the disk and the manifest as they
are. An edit depends on the content of its file only: on a disk that has the same content there it does nothing again,
or fails again.
-/

namespace Scaffold.Project

open Scaffold.Text Scaffold.Files Scaffold.Json Stateful Processing Manifest

variable {α : Type} {family : Family} {target path : Path} {rule : Rule} {disk : Disk} {given : Option Manifest}
variable {before after : Progress}

/-! ## Standing still -/

/-- An operation leaves a disk as it is, whatever comes of it. -/
def IsIdle (operation : Operation α) (disk : Disk) : Prop :=
  ∀ session, session.disk = disk → (operation.run session).2.disk = disk

/-- The disk of a session still is what it was. -/
def StaysAt (disk : Disk) (before after : Session) : Prop := before.disk = disk → after.disk = disk

instance : Std.Refl (StaysAt disk) where
  refl _ := id

instance : Trans (StaysAt disk) (StaysAt disk) (StaysAt disk) where
  trans first second := second ∘ first

theorem staysAt_of_eq {before after : Session} (same : after.disk = before.disk) : StaysAt disk before after :=
  same.trans

theorem IsIdle.keeps {operation : Operation α} (idle : IsIdle operation disk) : Keeps operation (StaysAt disk) := by
  intro session outcome next ran same
  have kept := idle session same
  rwa [ran] at kept

/-- The disk and the manifest of a removal still are what they were. -/
def Still (disk : Disk) (given : Option Manifest) (before after : Progress) : Prop :=
  before.session.disk = disk ∧ before.manifest = given → after.session.disk = disk ∧ after.manifest = given

instance : Std.Refl (Still disk given) where
  refl _ := id

instance : Trans (Still disk given) (Still disk given) (Still disk given) where
  trans first second := second ∘ first

theorem lifts_still : Lifts (StaysAt disk) (Still disk given) where
  session stays := fun ⟨same, held⟩ => ⟨stays same, held⟩
  result _ _ := id
  disk := staysAt_of_eq

theorem allows_still {change : Manifest → Manifest} (same : ∀ manifest, given = some manifest → change manifest = manifest) :
    Allows (Still disk given) change := by
  rintro before ⟨here, rfl⟩
  exact ⟨here, map_eq_self_iff.mpr same⟩

theorem staysAt_removePath (absent : disk.contains path = false) : Keeps (Operation.removePath path) (StaysAt disk) := by
  intro session outcome next ran
  cases ran
  rintro rfl
  unfold Disk.contains Disk.at? at absent
  change (session.disk.removePath path).2 = session.disk
  unfold Disk.removePath
  split
  · rfl
  · next location located =>
    rw [located] at absent
    rw [if_neg (Bool.eq_false_iff.mp absent)]

theorem staysAt_changeText {change : List Char → List Char} (rests : RestsIn change disk path) :
    Keeps (changeText path change) (StaysAt disk) := by
  intro session outcome next ran
  rintro rfl
  rw [changeText_run_of_restsIn rests] at ran
  cases ran
  rfl

/-- A file that cannot lose its types is not converted. -/
theorem staysAt_convertFile (refused : ∀ content, disk.read path = .ok content → ¬ Converts path content) :
    Keeps (convertFile path) (StaysAt disk) := by
  intro session outcome next ran
  rintro rfl
  have converted := converted_convertFile path session
  rw [ran] at converted
  cases converted with
  | refused => rfl
  | unwritten => rfl
  | stuck read converts => exact absurd converts (refused _ read)
  | done read converts => exact absurd converts (refused _ read)

theorem staysAt_convertTree {directory : Path} (refused : ∀ path ∈ disk.filesUnder directory isConvertible, ∀ content,
    disk.read path = .ok content → ¬ Converts path content) : Keeps (convertTree directory) (StaysAt disk) := by
  intro session outcome next ran
  rintro rfl
  rw [convertTree, bind_run, ask_run] at ran
  refine keeps_convertFiles staysAt_of_eq (fun path mem => staysAt_convertFile (refused path ?_)) _ _ _ ran rfl
  split at mem
  · exact mem
  · cases mem

/-! ## Features that are gone already -/

/-- The manifest is the one that the file of a project holds, if it holds one. -/
def IsLoadedFrom (target : Path) (disk : Disk) (given : Option Manifest) : Prop :=
  ∀ manifest, given = some manifest → ∃ data, Holds disk (target.child fileName) (.object data) ∧
    manifest = ofData (target.child fileName) data

theorem Holds.nodup {data : Members} (held : Holds disk path (.object data)) : data.keys.Nodup := by
  obtain ⟨_, _, _, _, parsed⟩ := held
  exact (distinct_of_parse parsed).1

/-- A change that does nothing to the manifest of a project does nothing to a manifest that was loaded from it. -/
theorem IsLoadedFrom.change_eq {change : Manifest → Manifest} (loaded : IsLoadedFrom target disk given)
    (same : ∀ data, Holds disk (target.child fileName) (.object data) →
      change (ofData (target.child fileName) data) = ofData (target.child fileName) data) :
    ∀ manifest, given = some manifest → change manifest = manifest := by
  intro manifest held
  obtain ⟨data, here, rfl⟩ := loaded manifest held
  exact same data here

/-- No configuration file is there that would be converted. -/
def Family.HasPlainConfigs (family : Family) (target : Path) (disk : Disk) : Prop :=
  ∀ stem ∈ family.configFiles, ∀ path ∈ candidates target (stem ++ ".*"), isConvertible path = true →
    IsIdle (convertFile path) disk

theorem Family.IsShorn.still_stripTypes (shorn : family.IsShorn target rule disk) (transpile : rule.transpile = true)
    (configs : family.HasPlainConfigs target disk) (loaded : IsLoadedFrom target disk given) :
    Keeps (family.stripTypes target) (Still disk given) := by
  have stripped := shorn.stripped transpile
  refine keeps_stripTypes (allows_still (loaded.change_eq fun data held => ?_))
    (allows_still (loaded.change_eq fun data held => ?_)) (keeps_stripFiles lifts_still ?_ ?_ ?_)
  · exact untypeManifest_of_isUntyped held.nodup (shorn.typeless transpile data held).isUntyped
  · exact retainPackages_of_typeless held.nodup (shorn.typeless transpile data held)
  · exact fun stem mem path held convertible => (configs stem mem path held convertible).keeps
  · exact staysAt_convertTree stripped.sources
  · exact staysAt_changeText stripped.page

/-! ## Steps that fail again -/

section Failing

variable {invariant : Progress → Prop}

/-- Steps that keep an invariant fail if one of them fails wherever it holds. -/
theorem forEach_fails {items : List α} {item : α} {step : α → Processing Unit}
    (keeps : ∀ item ∈ items, Keeps (step item) fun before after => invariant before → invariant after) (mem : item ∈ items)
    (fails : ∀ before, invariant before → ∃ failure after, (step item).run before = (.error failure, after))
    (begun : invariant before) : ∃ failure after, (forEach step items).run before = (.error failure, after) := by
  induction items generalizing before with
  | nil => cases mem
  | cons first later failsLater =>
    rw [forEach_run]
    rcases ran : (step first).run before with ⟨failure | value, after⟩
    · exact ⟨failure, after, rfl⟩
    · obtain ⟨own, others⟩ := List.forall_mem_cons.mp keeps
      rcases List.mem_cons.mp mem with rfl | mem
      · obtain ⟨failure, stopped, failed⟩ := fails before begun
        rw [ran] at failed
        cases failed
      · exact failsLater others mem (own before _ after ran begun)

/-- A step on what a target matches fails if it fails at one of the paths that are there. -/
theorem resolve_fails {root : Path} {pattern : String} {step : Path → Processing Unit}
    (keeps : ∀ path ∈ candidates root pattern, Keeps (step path) fun before after => invariant before → invariant after)
    (held : path ∈ candidates root pattern) (there : before.session.disk.contains path = true)
    (fails : ∀ before, invariant before → ∃ failure after, (step path).run before = (.error failure, after))
    (begun : invariant before) :
    ∃ failure after, (do forEach step (← perform (resolve root pattern))).run before = (.error failure, after) := by
  rw [bind_run, perform_run, resolve, ask_run]
  exact forEach_fails (fun path mem => keeps path (List.mem_filter.mp mem).1) (List.mem_filter.mpr ⟨held, there⟩) fails begun

end Failing

/-- An operation fails on a disk. -/
def Fails (operation : Operation α) (disk : Disk) : Prop :=
  ∀ session, session.disk = disk → ∃ failure next, operation.run session = (.error failure, next)

/-- The removal of types halts again before it comes to the page: at a configuration file whose new place is taken, or in
the sources, of which nothing is converted before. -/
inductive Family.StillHalts (family : Family) (target : Path) (disk : Disk) : Prop
  | config {stem : String} {path : Path} {output : Bytes} (mem : stem ∈ family.configFiles)
      (held : path ∈ candidates target (stem ++ ".*")) (convertible : isConvertible path = true) (yields : Yields disk path output)
      (taken : disk.isDirectory (convertedPath path) = true) : StillHalts family target disk
  | sources (idle : IsIdle (convertTree (target.child "src")) disk) (fails : Fails (convertTree (target.child "src")) disk) :
      StillHalts family target disk

theorem convertConfig_fails {output : Bytes} (convertible : isConvertible path = true) (yields : Yields disk path output)
    (taken : disk.isDirectory (convertedPath path) = true) (here : before.session.disk = disk) :
    ∃ failure after, (convertConfig path).run before = (.error failure, after) := by
  subst here
  unfold convertConfig
  rw [if_pos convertible, bind_run, tryCatch_run, bind_run, perform_run, convertFile_run_of_occupied yields taken]
  exact ⟨_, _, rfl⟩

theorem Family.StillHalts.stripFiles_fails (halts : family.StillHalts target disk) (configs : family.HasPlainConfigs target disk)
    (here : before.session.disk = disk ∧ before.manifest = given) :
    ∃ failure after, (family.stripFiles target).run before = (.error failure, after) ∧
      after.session.disk = disk ∧ after.manifest = given := by
  have kept (stem : String) (mem : stem ∈ family.configFiles) :
      ∀ path ∈ candidates target (stem ++ ".*"), Keeps (convertConfig path) (Still disk given) := fun path held =>
    keeps_convertConfig lifts_still fun convertible => (configs stem mem path held convertible).keeps
  have still (stem : String) (mem : stem ∈ family.configFiles) :
      Keeps (do forEach convertConfig (← perform (resolve target (stem ++ ".*")))) (Still disk given) :=
    keeps_resolve lifts_still target (stem ++ ".*") (kept stem mem)
  unfold stripFiles
  rw [bind_run]
  rcases ran : (forEach (fun stem => do forEach convertConfig (← perform (resolve target (stem ++ ".*"))))
    family.configFiles).run before with ⟨failure | value, middle⟩
  · exact ⟨failure, middle, rfl, keeps_forEach still _ _ _ ran here⟩
  · have middleHere := keeps_forEach still _ _ _ ran here
    cases halts with
    | @config stem path output mem held convertible yields taken =>
      exfalso
      obtain ⟨failure, after, failed⟩ := forEach_fails still mem
        (fun before here => resolve_fails (kept stem mem) held (here.1 ▸ yields.contains) (fun before here =>
          convertConfig_fails convertible yields taken here.1) here) here
      rw [ran] at failed
      cases failed
    | sources idle fails =>
      obtain ⟨failure, next, failed⟩ := fails middle.session middleHere.1
      have same := idle middle.session middleHere.1
      rw [failed] at same
      dsimp only
      rw [bind_run, perform_run, failed]
      exact ⟨failure, _, rfl, same, middleHere.2⟩

/-- A removal of types that halts again does nothing. -/
theorem Family.StillHalts.stripTypes_fails (halts : family.StillHalts target disk) (configs : family.HasPlainConfigs target disk)
    (untyped : ∀ data, Holds disk (target.child fileName) (.object data) → family.IsUntyped data)
    (loaded : IsLoadedFrom target disk given) (here : before.session.disk = disk ∧ before.manifest = given) :
    ∃ failure after, (family.stripTypes target).run before = (.error failure, after) ∧
      after.session.disk = disk ∧ after.manifest = given := by
  have untypes : Allows (Still disk given) family.untypeManifest :=
    allows_still (loaded.change_eq fun data held => untypeManifest_of_isUntyped held.nodup (untyped data held))
  obtain ⟨failure, after, failed, still⟩ := halts.stripFiles_fails configs (untypes before here)
  rw [stripTypes_eq, bind_run, changeManifest_run]
  dsimp only
  rw [bind_run, failed]
  exact ⟨failure, after, rfl, still⟩

/-! ## What edits come to -/

/-- An operation does to a file what an effect says for its content: it fails, or writes the content that is new. -/
def ActsBy (effect : Bytes → Except Failure Bytes) (path : Path) (operation : Operation Bool) : Prop :=
  ∀ session, operation.run session =
    match session.disk.read path with
    | .error _ => (.ok false, session)
    | .ok content =>
      match effect content with
      | .error failure => (.error failure, session)
      | .ok new => (writeChanged path content new).run session

theorem writeChanged_run_self (path : Path) (content : Bytes) (session : Session) :
    (writeChanged path content content).run session = (.ok false, session) := by
  rw [writeChanged, if_pos rfl]
  rfl

/-- What an edit of a file that fits the grammar comes to. -/
def treeEffect (path : Path) (edit : Bytes → Syntax.Tree → Bytes) (content : Bytes) : Except Failure Bytes := do
  let _ ← (decode content).mapError fun fault => .source (.encoding path fault)
  let tree ← ((dialectOf path).parse content).mapError fun line => .source (.grammar path line)
  return edit content tree

/-- What an edit comes to that has something to do with a file that does not fit the grammar, too. -/
def eitherEffect (path : Path) (edit : Bytes → Syntax.Tree → Bytes) (otherwise : Bytes → Bytes) (content : Bytes) :
    Except Failure Bytes := do
  let _ ← (decode content).mapError fun fault => .source (.encoding path fault)
  return ((dialectOf path).parse content).toOption.elim (otherwise content) (edit content)

theorem actsBy_editTree (path : Path) (edit : Bytes → Syntax.Tree → Bytes) :
    ActsBy (treeEffect path edit) path (editTree path edit) := by
  intro session
  rw [editTree_run]
  cases session.disk.read path with
  | error trouble => rfl
  | ok content =>
    dsimp only [treeEffect]
    cases decode content with
    | error fault => rfl
    | ok text =>
      dsimp only
      cases (dialectOf path).parse content <;> rfl

theorem actsBy_editEither (path : Path) (edit : Bytes → Syntax.Tree → Bytes) (otherwise : Bytes → Bytes) :
    ActsBy (eitherEffect path edit otherwise) path (editEither path edit otherwise) := by
  intro session
  rw [editEither_run]
  cases session.disk.read path with
  | error trouble => rfl
  | ok content =>
    dsimp only [eitherEffect]
    cases decode content with
    | error fault => rfl
    | ok text =>
      dsimp only
      cases (dialectOf path).parse content <;> rfl

/-- What an action does depends on what it finds in its file only. -/
theorem exists_actsBy (action : Action) (path : Path) (arguments : List String) :
    ∃ effect, ActsBy effect path (action.run path arguments) := by
  unfold Action.run
  split
  · exact ⟨_, actsBy_editTree _ _⟩
  · exact ⟨_, actsBy_editTree _ _⟩
  · exact ⟨_, actsBy_editEither _ _ _⟩
  · exact ⟨_, actsBy_editEither _ _ _⟩
  · refine ⟨fun content => .ok (Edit.removeNamedImports content arguments), fun session => ?_⟩
    rw [removeNamedImports, onFile_run, bind_run, readBytes_run]
    cases session.disk.read path <;> rfl
  · exact ⟨_, actsBy_editEither _ _ _⟩
  · refine ⟨.ok, fun session => ?_⟩
    cases session.disk.read path with
    | error trouble => rfl
    | ok content => exact (writeChanged_run_self path content session).symm

/-- An operation that leaves a disk as it is leaves every session as it is in which its file has the same content. -/
theorem ActsBy.run_of_isIdle {effect : Bytes → Except Failure Bytes} {operation : Operation Bool}
    (acts : ActsBy effect path operation) (idle : IsIdle operation disk) {content : Bytes} (read : disk.read path = .ok content)
    {session : Session} (same : session.disk.read path = .ok content) : (operation.run session).2 = session := by
  have stays := idle ⟨disk, [], []⟩ rfl
  rw [acts, read] at stays
  rw [acts, same]
  dsimp only at stays ⊢
  cases new : effect content with
  | error failure => rfl
  | ok after =>
    rw [new] at stays
    dsimp only at stays ⊢
    by_cases unchanged : after = content
    · rw [unchanged, writeChanged_run_self]
    · -- a content that is new is there afterwards
      exfalso
      obtain ⟨location, -, written, reads⟩ := Disk.exists_write_of_read read after
      rw [writeChanged, if_neg unchanged, bind_run, Operation.writeBytes, change_run, written] at stays
      change disk.put location (.file after) = disk at stays
      rw [stays, read] at reads
      exact unchanged (Except.ok.inj reads).symm

/-- An operation that fails on a disk fails in every session in which its file has the same content. -/
theorem ActsBy.run_of_fails {effect : Bytes → Except Failure Bytes} {operation : Operation Bool}
    (acts : ActsBy effect path operation) (fails : ∃ failure next, operation.run ⟨disk, [], []⟩ = (.error failure, next)) :
    ∃ content, disk.read path = .ok content ∧ ∀ session : Session, session.disk.read path = .ok content →
      ∃ failure, operation.run session = (.error failure, session) := by
  obtain ⟨failure, next, ran⟩ := fails
  rw [acts] at ran
  dsimp only at ran
  split at ran
  · cases ran
  · next content read =>
    refine ⟨content, read, fun session same => ?_⟩
    split at ran
    · next failed =>
      refine ⟨failure, ?_⟩
      rw [acts, same]
      dsimp only
      rw [failed]
      cases ran
      rfl
    · exact absurd ran (writeChanged_run_ne_error read _ _)

/-! ## Disks that differ in a footprint -/

/-- A disk differs from an origin in the contents of files in a footprint only. -/
structure IsNear (origin : Disk) (footprint : Location → Prop) (disk : Disk) : Prop where
  shape : Disk.SameShape disk origin
  outside : Disk.KeepsOutside footprint origin disk

variable {origin : Disk} {footprint : Location → Prop}

theorem IsNear.refl (origin : Disk) (footprint : Location → Prop) : IsNear origin footprint origin :=
  ⟨⟨rfl, fun _ => rfl⟩, fun _ _ => rfl⟩

theorem IsNear.read_eq (near : IsNear origin footprint disk) {location : Location} (located : origin.locate path = .ok location)
    (apart : ¬ footprint location) : disk.read path = origin.read path := by
  unfold Disk.read
  rw [near.shape.locate, located]
  dsimp only
  rw [near.outside location apart]

theorem IsNear.contains_eq (near : IsNear origin footprint disk) (path : Path) : disk.contains path = origin.contains path := by
  unfold Disk.contains Disk.at?
  rw [near.shape.locate]
  cases origin.locate path with
  | error cause => rfl
  | ok location =>
    dsimp only
    rw [← Option.isSome_map, near.shape.2 location, Option.isSome_map]

/-- A session that is near an origin remains so. -/
def StaysNear (origin : Disk) (footprint : Location → Prop) (before after : Session) : Prop :=
  IsNear origin footprint before.disk → IsNear origin footprint after.disk

instance : Std.Refl (StaysNear origin footprint) where
  refl _ := id

instance : Trans (StaysNear origin footprint) (StaysNear origin footprint) (StaysNear origin footprint) where
  trans first second := second ∘ first

theorem staysNear_of_eq {before after : Session} (same : after.disk = before.disk) : StaysNear origin footprint before after :=
  fun near => same ▸ near

/-- An action that leaves the origin as it is, or whose file lies in the footprint, stays near the origin. -/
theorem staysNear_action (action : Action) (arguments : List String) (own : ∀ location, origin.locate path = .ok location →
      footprint location ∨ IsIdle (action.run path arguments) origin) :
    Keeps (action.run path arguments) (StaysNear origin footprint) := by
  intro session outcome next ran near
  have edited := edited_action action path arguments session
  rw [ran] at edited
  cases edited with
  | left => exact near
  | @rewrote old new disk read written =>
    obtain ⟨location, located, held⟩ := Disk.read_eq_ok_iff.mp read
    have located' : origin.locate path = .ok location := near.shape.locate path ▸ located
    by_cases inside : footprint location
    · obtain ⟨place, reached, wrote, -⟩ := Disk.exists_write_of_read read new
      obtain rfl := Except.ok.inj (located.symm.trans reached)
      obtain rfl := Except.ok.inj (written.symm.trans wrote)
      refine ⟨?_, near.outside.put (Disk.ne_root_of_file held) inside⟩
      exact ⟨(Disk.sameShape_put held new).1.trans near.shape.1, fun place =>
        ((Disk.sameShape_put held new).2 place).trans (near.shape.2 place)⟩
    · have idle := (own location located').resolve_left inside
      obtain ⟨effect, acts⟩ := exists_actsBy action path arguments
      have here : origin.read path = .ok old := (near.read_eq located' inside).symm.trans read
      have same := acts.run_of_isIdle idle here read
      rw [ran] at same
      exact same ▸ near

theorem staysNear_removePath (absent : origin.contains path = false) :
    Keeps (Operation.removePath path) (StaysNear origin footprint) := by
  intro session outcome next ran near
  have kept := staysAt_removePath ((near.contains_eq path).trans absent) session outcome next ran rfl
  exact kept ▸ near

end Scaffold.Project
