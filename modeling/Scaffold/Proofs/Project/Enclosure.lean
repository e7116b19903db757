import Scaffold.Proofs.Files.Frames
import Scaffold.Proofs.Project.Aftermath
import Scaffold.Proofs.Project.Generating

/-! # A generation stays in its directory

Whatever a generation does once its template has been copied is done at paths that lead down from the directory of the
project. So everything that is not beneath this directory is left as it is, and so it is when the generation fails.
-/

namespace Scaffold.Project

open Scaffold.Text Scaffold.Files Stateful Processing Manifest

variable {origin disk : Disk} {here : Location} {path target : Path} {family : Family} {name : String}
variable {selection : Selection}

/-! ## Operations beneath a location -/

/-- A session whose disk differs from an origin beneath a location only remains so. -/
def RemainsEnclosed (origin : Disk) (here : Location) (before after : Session) : Prop :=
  Disk.IsBeneath origin here before.disk → Disk.IsBeneath origin here after.disk

instance : Std.Refl (RemainsEnclosed origin here) where
  refl _ := id

instance : Trans (RemainsEnclosed origin here) (RemainsEnclosed origin here) (RemainsEnclosed origin here) where
  trans first second := second ∘ first

theorem remainsEnclosed_of_eq {before after : Session} (same : after.disk = before.disk) : RemainsEnclosed origin here before after :=
  fun beneath => same ▸ beneath

theorem enclosed_action (lands : origin.LandsBeneath here path) (action : Action) (arguments : List String) :
    Keeps (action.run path arguments) (RemainsEnclosed origin here) := by
  intro session outcome next ran
  have edited := edited_action action path arguments session
  rw [ran] at edited
  cases edited with
  | left => exact id
  | rewrote read written => exact fun beneath => beneath.write lands written

theorem enclosed_writeBytes (lands : origin.LandsBeneath here path) (content : Bytes) :
    Keeps (Operation.writeBytes path content) (RemainsEnclosed origin here) := by
  intro session outcome next ran
  rw [Operation.writeBytes, change_run] at ran
  split at ran
  · next written =>
    cases ran
    exact fun beneath => beneath.write lands written
  · cases ran
    exact id

theorem enclosed_changeText (lands : origin.LandsBeneath here path) (change : List Char → List Char) :
    Keeps (changeText path change) (RemainsEnclosed origin here) := by
  intro session outcome next ran
  rw [changeText_run] at ran
  split at ran
  · cases ran
    exact id
  · split at ran
    · cases ran
      exact id
    · split at ran
      · cases ran
        exact id
      · split at ran
        · cases ran
          exact id
        · next written =>
          cases ran
          exact fun beneath => beneath.write lands written

theorem enclosed_removePath (lands : origin.LandsBeneath here path) :
    Keeps (Operation.removePath path) (RemainsEnclosed origin here) := by
  intro session outcome next ran
  cases ran
  exact fun beneath => beneath.removePath lands

/-- A file in a directory is converted in this directory. -/
theorem enclosed_convertFile {directory : Path} {names : List String} (lands : origin.LandsBeneath here directory)
    (some_ : names ≠ []) (plain : ∀ name ∈ names, IsPlain name)
    (convertible : isConvertible { directory with parts := directory.parts ++ names } = true) :
    Keeps (convertFile { directory with parts := directory.parts ++ names }) (RemainsEnclosed origin here) := by
  have own : origin.LandsBeneath here { directory with parts := directory.parts ++ names } := lands.append plain
  obtain ⟨front, last, rfl⟩ : ∃ front last, names = front ++ [last] :=
    ⟨_, _, (List.dropLast_append_getLast some_).symm⟩
  have name : (Files.Path.mk directory.absolute (directory.parts ++ (front ++ [last]))).name = last := by
    rw [Path.name, ← List.append_assoc, List.getLast?_concat, Option.getD_some]
  have converted : convertedPath { directory with parts := directory.parts ++ (front ++ [last]) } =
      { directory with parts := directory.parts ++ (front ++ [untypedName last]) } := by
    unfold convertedPath Path.withSuffix
    rw [Files.Path.mk.injEq]
    refine ⟨rfl, ?_⟩
    change (directory.parts ++ (front ++ [last])).dropLast ++ [untypedName _] = _
    rw [name, ← List.append_assoc, List.dropLast_concat, List.append_assoc]
  have new : origin.LandsBeneath here (convertedPath { directory with parts := directory.parts ++ (front ++ [last]) }) := by
    rw [converted]
    refine lands.append fun part mem => ?_
    rcases List.mem_append.mp mem with old | new
    · exact plain part (List.mem_append_left _ old)
    · rw [List.mem_singleton.mp new]
      exact isPlain_untypedName (plain last (by simp))
  intro session outcome next ran
  have spec := converted_convertFile { directory with parts := directory.parts ++ (front ++ [last]) } session
  rw [ran] at spec
  cases spec with
  | refused => exact id
  | unwritten => exact id
  | stuck read converts write => exact fun beneath => beneath.write new write
  | done read converts write unlink => exact fun beneath => (beneath.write new write).unlink own unlink

theorem enclosed_convertTree {directory : Path} (lands : origin.LandsBeneath here directory) :
    Keeps (convertTree directory) (RemainsEnclosed origin here) := by
  intro session outcome next ran beneath
  rw [convertTree, bind_run, ask_run] at ran
  refine keeps_convertFiles remainsEnclosed_of_eq (fun path mem => ?_) _ _ _ ran beneath
  split at mem
  · obtain ⟨convertible, names, some_, plain, rfl⟩ := beneath.names.exists_of_mem_filesUnder mem
    exact enclosed_convertFile lands some_ plain convertible
  · cases mem

/-! ## The removal of features -/

/-- The files of a family are all named down from the directory of a project. -/
structure Family.LeadsDown (family : Family) : Prop extends family.IsSparing where
  configs : ∀ stem ∈ family.configFiles, ∀ text ∈ candidateTexts (stem ++ ".*"), IsPlain text

theorem leadsDown_of_mem (packaged : family ∈ families) : family.LeadsDown := by
  refine ⟨isSparing_of_mem packaged, ?_⟩
  rcases List.mem_cons.mp packaged with rfl | packaged
  · decide +kernel
  · obtain rfl := List.mem_singleton.mp packaged
    decide +kernel

variable (lands : origin.LandsBeneath here target)

include lands

theorem landsBeneath_candidate {text : String} (down : ∀ candidate ∈ candidateTexts text, Path.LeadsDown candidate) :
    ∀ path ∈ candidates target text, origin.LandsBeneath here path := by
  intro path mem
  rw [candidates_eq] at mem
  obtain ⟨candidate, held, rfl⟩ := List.mem_map.mp mem
  exact lands.child (down candidate held)

theorem Family.LeadsDown.keeps_removeFeatures (down : family.LeadsDown) (selection : Selection) :
    Keeps (family.removeFeatures target selection) (BySession (RemainsEnclosed origin here)) := by
  have lifts : Lifts (RemainsEnclosed origin here) (BySession (RemainsEnclosed origin here)) :=
    lifts_bySession remainsEnclosed_of_eq
  refine Project.keeps_forEach fun name _ => keeps_removeFeature lifts (fun rule found => ?_) fun _ => id
  have own := mem_of_rule? found
  refine keeps_applyRule (fun _ => keeps_stripTypes (fun _ => id) (fun _ => id) ?_)
    (keeps_finishRule (fun _ => id) (Project.keeps_forEach fun step mem => ?_) (Project.keeps_forEach fun pattern mem => ?_))
  · refine keeps_stripFiles lifts (fun stem mem path candidate convertible => ?_)
      (enclosed_convertTree (lands.child (Disk.leadsDown_of_isPlain (by decide))))
      (enclosed_changeText (lands.child (Disk.leadsDown_of_isPlain (by decide))) renameEntry)
    rw [candidates_eq] at candidate
    obtain ⟨text, held, rfl⟩ := List.mem_map.mp candidate
    have plain := down.configs stem mem text held
    rw [Path.child_of_isPlain plain] at convertible ⊢
    exact enclosed_convertFile lands (List.cons_ne_nil _ _) (by simpa using plain) convertible
  · refine keeps_runStep lifts fun action _ path candidate => enclosed_action ?_ action _
    exact landsBeneath_candidate lands (fun text held => (down.edits _ own step mem text held).1) path candidate
  · refine keeps_removeMatches lifts fun path candidate => enclosed_removePath ?_
    exact landsBeneath_candidate lands (fun text held => (down.paths _ own pattern mem text held).1) path candidate

omit lands in
theorem enclosed_save {manifest : Manifest} (lands : origin.LandsBeneath here manifest.path) (force : Bool) :
    Keeps (manifest.save force) (RemainsEnclosed origin here) := by
  unfold Manifest.save
  split
  · exact .pure _
  · exact .bind (enclosed_writeBytes lands _) fun _ => .pure _

theorem Family.LeadsDown.keeps_processProject (down : family.LeadsDown) (selection : Selection) :
    Keeps (family.processProject target selection) (RemainsEnclosed origin here) := by
  intro session outcome next ran beneath
  have begun {loaded : Progress} {outcome : Except Failure Unit}
      (load : (loadManifest target).run (family.start target session none) = (outcome, loaded)) :
      Disk.IsBeneath origin here loaded.session.disk := disk_loadManifest load ▸ beneath
  have saved {loaded last after : Progress} {outcome : Except Failure Unit}
      (load : (loadManifest target).run (family.start target session none) = (.ok (), loaded))
      (removal : (family.removeFeatures target selection).run loaded = (.ok (), last))
      (save : saveManifest.run last = (outcome, after)) : Disk.IsBeneath origin here after.session.disk := by
    have removed := down.keeps_removeFeatures lands selection _ _ _ removal (begun load)
    cases Saves.of_run save with
    | quiet | refused => exact removed
    | written held dirty wrote =>
      obtain ⟨first, -, place, -⟩ := exists_loaded_of_removal load removal held
      exact removed.write (place ▸ lands.child (Disk.leadsDown_of_isPlain (by decide))) wrote
  cases Course.of_run ran with
  | unloaded load => exact begun load
  | unremoved load removal => exact down.keeps_removeFeatures lands selection _ _ _ removal (begun load)
  | unsaved load removal save | ended load removal save => exact saved load removal save

theorem Family.LeadsDown.keeps_processLoaded (down : family.LeadsDown) (selection : Selection) (manifest : Manifest) :
    Keeps (family.processLoaded target selection manifest) (RemainsEnclosed origin here) := by
  intro session outcome next ran beneath
  rw [processLoaded_run] at ran
  rcases removal : (family.removeFeatures target selection).run (family.start target session (some manifest))
    with ⟨failure | value, last⟩ <;> rw [removal] at ran <;> cases ran <;>
    exact down.keeps_removeFeatures lands selection _ _ _ removal beneath

theorem enclosed_applyName (name : String) (given : Option Manifest) :
    Keeps (applyName target name given) (RemainsEnclosed origin here) :=
  .bind (enclosed_changeText (lands.child (Disk.leadsDown_of_isPlain (by decide))) _) fun _ =>
    .bind (enclosed_changeText (lands.child (Disk.leadsDown_of_isPlain (by decide))) _) fun _ => .pure _

/-- What a generation does once the template has been copied stays beneath the directory of the project. -/
theorem Family.LeadsDown.keeps_complete (down : family.LeadsDown) (selection : Selection) (name : String) :
    Keeps (family.complete target selection name) (RemainsEnclosed origin here) := by
  refine .bind_of (fun session outcome next ran => ?_) fun session given next load => ?_
  · rw [inDirectory_session target _ _ _ ran]
    exact id
  · refine .bind_of (enclosed_applyName lands name given) fun _ named _ naming => ?_
    obtain rfl := applyName_run_ok naming
    cases given with
    | none => exact down.keeps_processProject lands selection
    | some manifest =>
      refine .bind_of (down.keeps_processLoaded lands selection _) fun before processed after ran => ?_
      obtain ⟨result, _ | final⟩ := processed
      · exact .pure _
      · refine .bind (enclosed_save ?_ false) fun _ => .pure _
        obtain ⟨-, -, loaded⟩ := holds_of_inDirectory load
        obtain ⟨data, -, rfl⟩ := loaded manifest rfl
        have place : final.path = target.child fileName := by
          rw [processLoaded_run] at ran
          rcases removal : (family.removeFeatures target selection).run
            (family.start target before (some ((ofData (target.child fileName) data).setName name))) with ⟨failure | value, last⟩
          · rw [removal] at ran
            cases ran
          · rw [removal] at ran
            obtain ⟨change, edits, eq⟩ := family.editsManifest_removeFeatures target selection _ _ _ removal
            have yielded : last.manifest = some final := congrArg Prod.snd (Except.ok.inj (congrArg Prod.fst ran))
            obtain rfl := Option.some.inj (yielded.symm.trans eq)
            rw [edits]
            rfl
        rw [place]
        exact lands.child (Disk.leadsDown_of_isPlain (by decide))

omit lands

theorem Family.generate_eq {session : Session} {templates : Path}
    (there : session.disk.isDirectory (family.templatePath templates) = true) (selection : Selection) (name : String) :
    (family.generate templates target selection name).run session =
      (copyTemplate (family.templatePath templates) target >>= fun _ => family.complete target selection name).run session := by
  unfold generate
  rw [bind_run, ask_run]
  dsimp only
  rw [there, if_neg (by decide)]
  rfl

/-- A path of plain names and ways up lands beneath its own landing. -/
theorem landsBeneath_self (working : ∀ part ∈ disk.workingDirectory, IsPlain part) (proper : target.IsProper) :
    disk.LandsBeneath (disk.resolve target).parts target := by
  refine ⟨List.prefix_rfl, Disk.isPlain_landing ?_ proper⟩
  split
  · simp
  · exact working

/-- A generation makes the directories on the way to its target, and then leaves alone what is not beneath the target. -/
theorem Family.LeadsDown.exists_beneath_generate (down : family.LeadsDown) {session : Session} {templates : Path}
    (there : session.disk.isDirectory (family.templatePath templates) = true) (names : session.disk.HasPlainNames)
    (working : ∀ part ∈ session.disk.workingDirectory, IsPlain part) (proper : target.IsProper) (selection : Selection)
    (name : String) :
    ∃ begun, Disk.MakesWay (session.disk.IsWaypoint target) session.disk begun ∧
      Disk.IsBeneath begun (session.disk.resolve target).parts
        ((family.generate templates target selection name).run session).2.disk := by
  obtain ⟨begun, makes, beneath⟩ := Disk.exists_beneath_copyTree names working proper (family.templatePath templates)
  refine ⟨begun, makes, ?_⟩
  have lands := (landsBeneath_self working proper).congr makes.workingDirectory
  rw [generate_eq there, bind_run, copyTemplate_run]
  rcases copied : session.disk.copyTree (family.templatePath templates) target with ⟨trouble | _ | ⟨report, reports⟩, disk⟩ <;>
    rw [copied] at beneath
  · exact beneath
  · exact down.keeps_complete lands selection name { session with disk := disk } _ _ rfl beneath
  · exact beneath

end Scaffold.Project
