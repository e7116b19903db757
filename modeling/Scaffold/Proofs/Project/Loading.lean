import Scaffold.Proofs.Project.Pruning

/-! # The manifest that a removal begins with

A manifest that was loaded holds the object that its file holds, under keys that are all different. Whatever a
removal changes in it, keys stay different.
-/

namespace Scaffold.Project

open Scaffold.Text Scaffold.Files Scaffold.Json Stateful Processing Manifest

variable {path target : Path} {session after : Session}

theorem readJson_run (path : Path) (session : Session) :
    (Operation.readJson path).run session =
      match session.disk.read path with
      | .error trouble => (.error (.text (.trouble trouble)), session)
      | .ok content =>
        match decode content with
        | .error fault => (.error (.text (.encoding fault)), session)
        | .ok text =>
          match parse (Operation.unifyLines text) with
          | .error fault => (.error (.text (.json (Operation.unifyLines text) fault)), session)
          | .ok value => (.ok value, session) := by
  unfold Operation.readJson
  rw [bind_run, readText_run]
  cases session.disk.read path with
  | error trouble => rfl
  | ok content =>
    dsimp only
    cases decode content with
    | error fault => rfl
    | ok text =>
      dsimp only
      cases parse (Operation.unifyLines text) <;> rfl

/-- What is loaded is the object that the file holds. -/
theorem holds_of_load {manifest : Manifest} (ran : (load path).run session = (.ok manifest, after)) :
    after = session ∧ ∃ data, Holds session.disk path (.object data) ∧ manifest = ofData path data := by
  unfold load at ran
  rw [bind_run, ask_run] at ran
  dsimp only at ran
  split at ran
  · cases ran
  · obtain ⟨value, middle, read, done⟩ := bind_run_eq_ok_iff.mp ran
    rw [tryCatch_run] at read
    rcases json : (Operation.readJson path).run session with ⟨failure | found, reached⟩
    · rw [json] at read
      dsimp only at read
      split at read <;> cases read
    · rw [json] at read
      cases read
      have same : middle = session := by
        rw [readJson_run] at json
        split at json
        · cases json
        · split at json
          · cases json
          · split at json <;> cases json
            rfl
      subst same
      cases value with
      | object data =>
        cases done
        exact ⟨rfl, data, readJson_run_iff.mp json, rfl⟩
      | _ => cases done

/-- The manifest of a directory is loaded when there is a file, and is the object that the file holds. -/
theorem holds_of_inDirectory {given : Option Manifest} (ran : (inDirectory target).run session = (.ok given, after)) :
    after = session ∧ (given = none → session.disk.isFile (target.child fileName) = false) ∧
      ∀ manifest, given = some manifest → ∃ data, Holds session.disk (target.child fileName) (.object data) ∧
        manifest = ofData (target.child fileName) data := by
  unfold inDirectory loadOptional at ran
  rw [bind_run, ask_run] at ran
  dsimp only at ran
  split at ran
  · obtain ⟨manifest, middle, loaded, done⟩ := bind_run_eq_ok_iff.mp ran
    cases done
    obtain ⟨rfl, holds⟩ := holds_of_load loaded
    refine ⟨rfl, nofun, fun other same => ?_⟩
    obtain rfl := Option.some.inj same
    exact holds
  · next absent =>
    cases ran
    exact ⟨rfl, fun _ => Bool.eq_false_iff.mpr absent, nofun⟩

/-- Loading a manifest changes nothing, whether it fails or not. -/
theorem inDirectory_session (target : Path) : Keeps (inDirectory target) fun before after => after = before := by
  have : Std.Refl fun before after : Session => after = before := ⟨fun _ => rfl⟩
  have : Trans (fun before after : Session => after = before) (fun before after : Session => after = before)
      (fun before after : Session => after = before) := ⟨fun first second => second.trans first⟩
  have read (path : Path) : Keeps (Operation.readJson path) fun before after => after = before := by
    intro session outcome next ran
    rw [readJson_run] at ran
    split at ran
    · cases ran; rfl
    · split at ran
      · cases ran; rfl
      · split at ran <;> cases ran <;> rfl
  refine .bind (keeps_ask _) fun isFile => ?_
  split
  · refine .bind (.bind (keeps_ask _) fun isFile => ?_) fun _ => .pure _
    dsimp only
    split
    · exact .bind (.throw _) fun _ => .bind (.tryCatch (read _) fun failure => by split <;> exact .throw _) fun value => by
        cases value <;> first | exact .pure _ | exact .throw _
    · exact .bind (.tryCatch (read _) fun failure => by split <;> exact .throw _) fun value => by
        cases value <;> first | exact .pure _ | exact .throw _
  · exact .pure none

/-- A manifest is in its directory when the file holds an object. -/
theorem inDirectory_run_of_holds {data : Members} (held : Holds session.disk (target.child fileName) (.object data)) :
    (inDirectory target).run session = (.ok (some (ofData (target.child fileName) data)), session) := by
  have isFile : session.disk.isFile (target.child fileName) = true := by
    obtain ⟨content, -, read, -⟩ := held
    exact Disk.isFile_of_read read
  unfold inDirectory loadOptional
  rw [bind_run, ask_run, isFile]
  dsimp only
  rw [if_pos rfl, bind_run, load_run held]
  rfl

/-! ## Keys that are all different -/

/-- No object in the manifest holds a key twice. -/
def Progress.IsDistinct (progress : Progress) : Prop :=
  ∀ manifest, progress.manifest = some manifest → (Value.object manifest.data).Distinct

/-- The states in which the removal of features begins: the manifest was loaded in the directory, or given. -/
inductive Family.Begins (family : Family) (target : Path) (session : Session) : Progress → Prop
  | loaded {loaded : Progress} (load : (loadManifest target).run (family.start target session none) = (.ok (), loaded)) :
      Begins family target session loaded
  | given {manifest : Manifest} (distinct : (Value.object manifest.data).Distinct) :
      Begins family target session (family.start target session (some manifest))

variable {family : Family} {rule : Rule} {manifest : Manifest} {before next : Progress}

theorem disk_loadManifest {start loaded : Progress} {outcome : Except Failure Unit}
    (ran : (loadManifest target).run start = (outcome, loaded)) : loaded.session.disk = start.session.disk := by
  rw [loadManifest_run] at ran
  split at ran
  · next load =>
    cases ran
    rw [inDirectory_session target _ _ _ load]
  · next load =>
    obtain rfl := inDirectory_session target _ _ _ load
    rw [warn_run] at ran
    split at ran <;> cases ran <;> rfl
  · next load =>
    cases ran
    rw [inDirectory_session target _ _ _ load]

theorem loadManifest_manifest {start loaded : Progress} (ran : (loadManifest target).run start = (.ok (), loaded))
    (fresh : start.manifest = none) :
    ∀ manifest, loaded.manifest = some manifest → ∃ data,
      Holds start.session.disk (target.child fileName) (.object data) ∧ manifest = ofData (target.child fileName) data := by
  rw [loadManifest_run] at ran
  intro manifest held
  split at ran
  · next given session load =>
    cases ran
    exact (holds_of_inDirectory load).2.2 manifest held
  · rw [warn_run] at ran
    split at ran
    · cases ran
      rw [fresh] at held
      cases held
    · cases ran
  · cases ran

theorem Family.Begins.isDistinct (begins : family.Begins target session before) : before.IsDistinct := by
  intro manifest held
  cases begins with
  | loaded load =>
    obtain ⟨data, ⟨_, _, _, _, parsed⟩, rfl⟩ := loadManifest_manifest load rfl manifest held
    exact distinct_of_parse parsed
  | given distinct =>
    obtain rfl := Option.some.inj held
    exact distinct

theorem distinct_untypeManifest (family : Family) (distinct : (Value.object manifest.data).Distinct) :
    (Value.object (family.untypeManifest manifest).data).Distinct :=
  hereditary_distinct.apply (.rewriteScripts untypedScript)
    (hereditary_distinct.apply (.removeDependencies family.typeDependencies "devDependencies") distinct)

theorem distinct_retainPackages (family : Family) (distinct : (Value.object manifest.data).Distinct) :
    (Value.object (family.retainPackages manifest).data).Distinct := by
  unfold Family.retainPackages
  generalize family.retainedDependencies = packages
  induction packages generalizing manifest with
  | nil => exact distinct
  | cons package later distincts =>
    exact distincts (hereditary_distinct.apply (.ensureDependency package.1 package.2 "devDependencies") distinct)

theorem distinct_pruneManifest (rule : Rule) (distinct : (Value.object manifest.data).Distinct) :
    (Value.object (rule.pruneManifest manifest).data).Distinct :=
  hereditary_distinct.apply (.removeScripts rule.scripts)
    (hereditary_distinct.apply (.removeDependencies rule.devDependencies "devDependencies")
      (hereditary_distinct.apply (.removeDependencies rule.dependencies "dependencies") distinct))

/-! ## A removal from its beginning to its end -/

/-- A manifest is saved when its file can be read. -/
theorem exists_saveManifest_run {last : Progress} {content : Bytes} (held : last.manifest = some manifest)
    (read : last.session.disk.read manifest.path = .ok content) :
    ∃ saved, saveManifest.run last = (.ok (), saved) ∧ saved.result = last.result ∧
      (manifest.isDirty = true → last.session.disk.write manifest.path (encodeChars manifest.text.toList) =
        .ok saved.session.disk) := by
  obtain ⟨location, -, write, -⟩ := Disk.exists_write_of_read read (encodeChars manifest.text.toList)
  rw [saveManifest_run, held]
  dsimp only
  split
  · rw [write]
    exact ⟨_, rfl, rfl, fun _ => rfl⟩
  · next clean => exact ⟨last, rfl, rfl, fun dirty => absurd dirty clean⟩

theorem Family.processProject_run_of_ok {selection : Selection} {data : Members} {last saved : Progress}
    (held : Holds session.disk (target.child fileName) (.object data))
    (removal : (family.removeFeatures target selection).run
      (family.start target session (some (ofData (target.child fileName) data))) = (.ok (), last))
    (save : saveManifest.run last = (.ok (), saved)) :
    (loadManifest target).run (family.start target session none) =
        (.ok (), family.start target session (some (ofData (target.child fileName) data))) ∧
      (family.processProject target selection).run session = (.ok saved.result, saved.session) := by
  have load : (loadManifest target).run (family.start target session none) =
      (.ok (), family.start target session (some (ofData (target.child fileName) data))) := by
    rw [loadManifest_run, start, inDirectory_run_of_holds held]
    rfl
  refine ⟨load, ?_⟩
  rw [processProject_run, load]
  dsimp only
  rw [removal]
  dsimp only
  rw [save]

/-! ## Nothing but the document changes -/

/-- Nothing but the document of a manifest has been changed. -/
def Manifest.Edits (change : Manifest → Manifest) : Prop := ∀ manifest, change manifest = { manifest with data := (change manifest).data }

theorem edits_id : Edits id := fun _ => rfl

theorem Manifest.Edits.comp {first second : Manifest → Manifest} (later : Edits second) (earlier : Edits first) :
    Edits (second ∘ first) := by
  intro manifest
  rw [Function.comp, later, earlier]

theorem edits_apply (change : Change) : Edits change.apply := apply_eq change

theorem edits_untypeManifest (family : Family) : Edits family.untypeManifest :=
  (edits_apply (.rewriteScripts untypedScript)).comp (edits_apply (.removeDependencies family.typeDependencies "devDependencies"))

theorem edits_pruneManifest (rule : Rule) : Edits rule.pruneManifest :=
  (edits_apply (.removeScripts rule.scripts)).comp
    ((edits_apply (.removeDependencies rule.devDependencies "devDependencies")).comp
      (edits_apply (.removeDependencies rule.dependencies "dependencies")))

theorem edits_retainPackages (family : Family) : Edits family.retainPackages := by
  unfold Family.retainPackages
  induction family.retainedDependencies with
  | nil => exact edits_id
  | cons package later edits => exact edits.comp (edits_apply (.ensureDependency package.1 package.2 "devDependencies"))

/-- The manifest of one state is an edited one of another. -/
def EditsManifest (before after : Progress) : Prop := ∃ change, Edits change ∧ after.manifest = before.manifest.map change

theorem editsManifest_of_eq {before after : Progress} (same : after.manifest = before.manifest) :
    EditsManifest before after :=
  ⟨id, edits_id, by rw [same, Option.map_id_apply]⟩

instance : Std.Refl EditsManifest where
  refl _ := editsManifest_of_eq rfl

instance : Trans EditsManifest EditsManifest EditsManifest where
  trans := by
    rintro first second third ⟨change, edits, eq⟩ ⟨change', edits', eq'⟩
    exact ⟨change' ∘ change, edits'.comp edits, by rw [eq', eq, Option.map_map]⟩

theorem lifts_editsManifest : Lifts AnySessions EditsManifest where
  session _ := editsManifest_of_eq rfl
  result _ _ := editsManifest_of_eq rfl
  disk _ := trivial

theorem Family.editsManifest_removeFeatures (family : Family) (target : Path) (selection : Selection) :
    Keeps (family.removeFeatures target selection) EditsManifest := by
  have allows {change : Manifest → Manifest} (edits : Edits change) : Allows EditsManifest change := fun _ => ⟨change, edits, rfl⟩
  refine keeps_forEach fun name _ => keeps_removeFeature lifts_editsManifest (fun rule _ => ?_) fun _ =>
    editsManifest_of_eq rfl
  refine keeps_applyRule (fun _ => ?_) (keeps_finishRule (allows (edits_pruneManifest rule)) ?_ ?_)
  · exact keeps_stripTypes (allows (edits_untypeManifest family)) (allows (edits_retainPackages family))
      (keeps_stripFiles lifts_editsManifest (fun _ _ _ _ _ => keeps_anySessions _) (keeps_anySessions _) (keeps_anySessions _))
  · exact keeps_forEach fun _ _ => keeps_runStep lifts_editsManifest fun _ _ _ _ => keeps_anySessions _
  · exact keeps_forEach fun _ _ => keeps_removeMatches lifts_editsManifest fun _ _ => keeps_anySessions _

end Scaffold.Project
