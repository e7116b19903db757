import Scaffold.Proofs.Project.Accounts

/-! # The features of a project are removed one by one

A removal yields a result that accounts for every feature with a rule, or it is interrupted: a warning
cannot be shown, the page of the project is no text when types are removed, or the manifest cannot be
written back. Nothing else stops a removal.
-/

namespace Scaffold.Project

open Scaffold.Text Scaffold.Files Stateful Processing

/-! ## Loading and saving the manifest -/

/-- The progress of a removal that has not begun. -/
def Family.start (family : Family) (target : Path) (session : Session) (given : Option Manifest) : Progress :=
  ⟨session, given, Result.start target family.name⟩

/-- What ends a removal that loads and saves the manifest: a warning about the manifest that cannot be
shown, an interruption at a feature, or a manifest that cannot be written back. -/
inductive Interruption (family : Family) (target : Path) (selection : Selection) (session : Session) :
    Failure → Session → Prop
  | loading {unread : ManifestFault} {fault : Console.MarkupFault} {stopped : Session}
      (failed : (Manifest.inDirectory target).run session = (.error (.manifest unread), stopped))
      (malformed : Console.showMarkup (warningLine ("manifest: " ++ unread.message)) = .error fault) :
      Interruption family target selection session (.markup fault) stopped
  | removing {failure : Failure} {loaded stopped : Progress}
      (load : (loadManifest target).run (family.start target session none) = (.ok (), loaded))
      (interrupted : Interrupted family target (removalOrder family.features selection) loaded failure stopped) :
      Interruption family target selection session failure stopped.session
  | saving {manifest : Manifest} {trouble : Trouble} {loaded last : Progress} {accounts : List Account}
      (load : (loadManifest target).run (family.start target session none) = (.ok (), loaded))
      (removes : Removes family target (removalOrder family.features selection) loaded accounts last)
      (held : last.manifest = some manifest) (dirty : manifest.isDirty = true)
      (unwritable : last.session.disk.write manifest.path (encodeChars manifest.text.toList) = .error trouble) :
      Interruption family target selection session (.text (.trouble trouble)) last.session

/-- Loading a manifest fails for reasons of the manifest only. -/
theorem stops_inDirectory (target : Path) :
    Stops (Manifest.inDirectory target) fun failure _ => ∃ fault, failure = .manifest fault := by
  have read (path : Path) : Stops (Operation.readJson path) fun failure _ => ∃ fault, failure = .text fault := by
    refine .bind ?_ fun text => ?_
    · refine .bind (.bind .get fun session => ?_) fun content => ?_
      · cases session.disk.read path with
        | ok content => exact .pure content
        | error trouble => exact .throw fun _ => ⟨_, rfl⟩
      · cases decode content with
        | ok text => exact .pure _
        | error fault => exact .throw fun _ => ⟨_, rfl⟩
    · cases Json.parse text with
      | ok value => exact .pure value
      | error fault => exact .throw fun _ => ⟨_, rfl⟩
  refine .bind (stops_ask _) fun isFile => ?_
  split
  · refine .bind (.bind (stops_ask _) fun isFile => ?_) fun manifest => .pure _
    dsimp only
    split
    · exact .throw_bind (fun _ => ⟨_, rfl⟩) _
    · refine .bind (.tryCatch (read _) ?_) fun value => ?_
      · rintro failure state ⟨fault, rfl⟩ other next ran
        cases ran
        exact ⟨_, rfl⟩
      · cases value with
        | object members => exact .pure _
        | _ => exact .throw fun _ => ⟨_, rfl⟩
  · exact .pure none

theorem loadManifest_run (target : Path) (progress : Progress) :
    (loadManifest target).run progress =
      match (Manifest.inDirectory target).run progress.session with
      | (.ok manifest, session) => (.ok (), { progress with session := session, manifest := manifest })
      | (.error (.manifest fault), session) =>
        (warn ("manifest: " ++ fault.message)).run { progress with session := session }
      | (.error failure, session) => (.error failure, { progress with session := session }) := by
  unfold loadManifest
  rw [bind_run, tryCatch_run, bind_run, perform_run]
  rcases (Manifest.inDirectory target).run progress.session with ⟨failure | manifest, session⟩
  · cases failure <;> rfl
  · rfl

theorem change_run (act : Disk → Except Trouble Disk) (session : Session) :
    (Operation.change act).run session =
      match act session.disk with
      | .ok disk => (.ok (), { session with disk := disk })
      | .error trouble => (.error (.text (.trouble trouble)), session) := by
  change (Operation.liftTrouble (act session.disk) >>= Operation.setDisk).run session = _
  cases act session.disk <;> rfl

theorem save_run (manifest : Manifest) (force : Bool) (session : Session) :
    (manifest.save force).run session =
      if force || manifest.isDirty then
        match session.disk.write manifest.path (encodeChars manifest.text.toList) with
        | .ok disk => (.ok (true, { manifest with stored := manifest.text }), { session with disk := disk })
        | .error trouble => (.error (.text (.trouble trouble)), session)
      else (.ok (false, manifest), session) := by
  have writes : (Operation.change (fun disk => disk.write manifest.path (encodeChars manifest.text.toList)) >>= fun _ =>
      pure (true, { manifest with stored := manifest.text }) : Operation (Bool × Manifest)).run session =
      match session.disk.write manifest.path (encodeChars manifest.text.toList) with
      | .ok disk => (.ok (true, { manifest with stored := manifest.text }), { session with disk := disk })
      | .error trouble => (.error (.text (.trouble trouble)), session) := by
    rw [bind_run, change_run]
    rcases session.disk.write manifest.path (encodeChars manifest.text.toList) with trouble | disk <;> rfl
  unfold Manifest.save
  cases force <;> cases manifest.isDirty
  · rfl
  · exact writes
  · exact writes
  · exact writes

theorem saveManifest_run (progress : Progress) :
    saveManifest.run progress =
      match progress.manifest with
      | none => (.ok (), progress)
      | some manifest =>
        if manifest.isDirty then
          match progress.session.disk.write manifest.path (encodeChars manifest.text.toList) with
          | .ok disk =>
            (.ok (), { progress with
              session := { progress.session with disk := disk }
              manifest := some { manifest with stored := manifest.text } })
          | .error trouble => (.error (.text (.trouble trouble)), progress)
        else (.ok (), progress) := by
  rcases progress with ⟨session, _ | manifest, result⟩
  · rfl
  · change (perform (manifest.save false) >>= fun saved => changeManifest fun _ => saved.2).run _ = _
    rw [bind_run, perform_run, save_run, Bool.false_or]
    cases dirty : manifest.isDirty <;> dsimp only <;> rw [dirty]
    · rfl
    · rcases session.disk.write manifest.path (encodeChars manifest.text.toList) with trouble | disk <;> rfl

/-- What saving the manifest comes to: there is nothing to save, or the manifest is written, or it cannot be. -/
inductive Saves (before : Progress) : Except Failure Unit × Progress → Prop
  | quiet (clean : ∀ manifest, before.manifest = some manifest → manifest.isDirty = false) : Saves before (.ok (), before)
  | written {manifest : Manifest} {disk : Disk} (held : before.manifest = some manifest) (dirty : manifest.isDirty = true)
      (wrote : before.session.disk.write manifest.path (encodeChars manifest.text.toList) = .ok disk) :
      Saves before (.ok (), { before with
        session := { before.session with disk := disk }
        manifest := some { manifest with stored := manifest.text } })
  | refused {manifest : Manifest} {trouble : Trouble} (held : before.manifest = some manifest) (dirty : manifest.isDirty = true)
      (unwritable : before.session.disk.write manifest.path (encodeChars manifest.text.toList) = .error trouble) :
      Saves before (.error (.text (.trouble trouble)), before)

theorem Saves.of_run {before saved : Progress} {outcome : Except Failure Unit} (ran : saveManifest.run before = (outcome, saved)) :
    Saves before (outcome, saved) := by
  rw [← ran, saveManifest_run]
  split
  · next none_ =>
    refine .quiet fun manifest held => ?_
    rw [none_] at held
    cases held
  · next manifest held =>
    split
    · next dirty =>
      split
      · next disk wrote => exact .written held dirty wrote
      · next trouble unwritable => exact .refused held dirty unwritable
    · next clean =>
      refine .quiet fun other same => ?_
      obtain rfl := Option.some.inj (held.symm.trans same)
      exact Bool.eq_false_iff.mpr clean

theorem process_run (steps : Processing Unit) (target : Path) (template : String) (given : Option Manifest)
    (session : Session) :
    (process steps target template given).run session =
      match steps.run ⟨session, given, Result.start target template⟩ with
      | (.ok (), last) => (.ok (last.result, last.manifest), last.session)
      | (.error failure, stopped) => (.error failure, stopped.session) := by
  unfold process
  rcases ran : steps.run ⟨session, given, Result.start target template⟩ with ⟨failure | value, progress⟩ <;>
    simp only [ExceptT.run, show steps _ = _ from ran] <;> rfl

theorem processLoaded_run (family : Family) (target : Path) (selection : Selection) (manifest : Manifest)
    (session : Session) :
    (family.processLoaded target selection manifest).run session =
      match (family.removeFeatures target selection).run (family.start target session (some manifest)) with
      | (.ok (), last) => (.ok (last.result, last.manifest), last.session)
      | (.error failure, stopped) => (.error failure, stopped.session) :=
  process_run _ target family.name (some manifest) session

theorem processProject_run (family : Family) (target : Path) (selection : Selection) (session : Session) :
    (family.processProject target selection).run session =
      match (loadManifest target).run (family.start target session none) with
      | (.error failure, stopped) => (.error failure, stopped.session)
      | (.ok (), loaded) =>
        match (family.removeFeatures target selection).run loaded with
        | (.error failure, stopped) => (.error failure, stopped.session)
        | (.ok (), last) =>
          match saveManifest.run last with
          | (.ok (), saved) => (.ok saved.result, saved.session)
          | (.error failure, stopped) => (.error failure, stopped.session) := by
  unfold Family.processProject
  rw [bind_run, process_run, bind_run]
  unfold Family.start
  rcases (loadManifest target).run ⟨session, none, Result.start target family.name⟩ with ⟨failure | value, loaded⟩
  · rfl
  · dsimp only
    rw [bind_run]
    rcases (family.removeFeatures target selection).run loaded with ⟨failure | value, last⟩
    · rfl
    · dsimp only
      rcases saveManifest.run last with ⟨failure | value, saved⟩ <;> rfl

/-- How a removal goes that loads and saves the manifest: it stops at one of its three parts, or it ends. -/
inductive Family.Course (family : Family) (target : Path) (selection : Selection) (session : Session) :
    Except Failure Result × Session → Prop
  | unloaded {failure : Failure} {stopped : Progress}
      (load : (loadManifest target).run (family.start target session none) = (.error failure, stopped)) :
      Course family target selection session (.error failure, stopped.session)
  | unremoved {failure : Failure} {loaded stopped : Progress}
      (load : (loadManifest target).run (family.start target session none) = (.ok (), loaded))
      (removal : (family.removeFeatures target selection).run loaded = (.error failure, stopped)) :
      Course family target selection session (.error failure, stopped.session)
  | unsaved {failure : Failure} {loaded last stopped : Progress}
      (load : (loadManifest target).run (family.start target session none) = (.ok (), loaded))
      (removal : (family.removeFeatures target selection).run loaded = (.ok (), last))
      (save : saveManifest.run last = (.error failure, stopped)) :
      Course family target selection session (.error failure, stopped.session)
  | ended {loaded last saved : Progress}
      (load : (loadManifest target).run (family.start target session none) = (.ok (), loaded))
      (removal : (family.removeFeatures target selection).run loaded = (.ok (), last))
      (save : saveManifest.run last = (.ok (), saved)) : Course family target selection session (.ok saved.result, saved.session)

theorem Family.Course.of_run {family : Family} {target : Path} {selection : Selection} {session final : Session}
    {outcome : Except Failure Result} (ran : (family.processProject target selection).run session = (outcome, final)) :
    Course family target selection session (outcome, final) := by
  rw [← ran, processProject_run]
  rcases load : (loadManifest target).run (family.start target session none) with ⟨failure | value, loaded⟩
  · exact .unloaded load
  · dsimp only
    rcases removal : (family.removeFeatures target selection).run loaded with ⟨failure | value, last⟩
    · exact .unremoved load removal
    · dsimp only
      rcases save : saveManifest.run last with ⟨failure | value, saved⟩
      · exact .unsaved load removal save
      · exact .ended load removal save

theorem keeps_loadManifest (target : Path) : Keeps (loadManifest target) Annotates := by
  refine .bind (.tryCatch (.bind (keeps_perform lifts_annotates (keeps_anySessions _)) fun _ => .pure _) fun failure => ?_) fun outcome => ?_
  · split
    · exact .pure _
    · exact .throw _
  · cases outcome with
    | ok manifest => exact .modify fun _ => ⟨⟨[], by simp⟩, rfl⟩
    | error message => exact keeps_warn lifts_annotates _

/-- A load that does not end well is one whose warning cannot be shown. -/
theorem loadManifest_eq_error_iff (target : Path) (before stopped : Progress) (failure : Failure) :
    (loadManifest target).run before = (.error failure, stopped) ↔
      ∃ unread fault, (Manifest.inDirectory target).run before.session = (.error (.manifest unread), stopped.session) ∧
        Console.showMarkup (warningLine ("manifest: " ++ unread.message)) = .error fault ∧
        failure = .markup fault ∧ stopped = { before with session := stopped.session } := by
  rw [loadManifest_run]
  rcases ran : (Manifest.inDirectory target).run before.session with ⟨cause | manifest, session⟩
  · obtain ⟨unread, rfl⟩ := stops_inDirectory target before.session cause session ran
    dsimp only
    rw [warn_run]
    constructor
    · intro failed
      split at failed
      · cases failed
      · next malformed =>
        cases failed
        exact ⟨unread, _, rfl, malformed, rfl, rfl⟩
    · rintro ⟨other, fault, same, malformed, rfl, whole⟩
      cases same
      rw [malformed, whole]
  · constructor
    · intro failed
      cases failed
    · rintro ⟨_, _, same, _⟩
      cases same

theorem saveManifest_eq_error_iff (last stopped : Progress) (failure : Failure) :
    saveManifest.run last = (.error failure, stopped) ↔
      ∃ manifest trouble, last.manifest = some manifest ∧ manifest.isDirty = true ∧
        last.session.disk.write manifest.path (encodeChars manifest.text.toList) = .error trouble ∧
        failure = .text (.trouble trouble) ∧ stopped = last := by
  constructor
  · intro failed
    cases Saves.of_run failed with
    | refused held dirty unwritable => exact ⟨_, _, held, dirty, unwritable, rfl, rfl⟩
  · rintro ⟨manifest, trouble, held, dirty, unwritable, rfl, rfl⟩
    rw [saveManifest_run, held]
    dsimp only
    rw [if_pos dirty, unwritable]

theorem Family.removeFeatures_eq_error_iff {family : Family} (registered : family.isRegistered = true)
    (target : Path) (selection : Selection) (before stopped : Progress) (failure : Failure) :
    (family.removeFeatures target selection).run before = (.error failure, stopped) ↔
      Interrupted family target (removalOrder family.features selection) before failure stopped := by
  constructor
  · intro ran
    rcases family.removes_or_interrupted registered target (removalOrder family.features selection) before with
      ⟨accounts, last, removes⟩ | ⟨other, ended, interrupted⟩
    · have done := removes.run_eq
      rw [show forEach _ _ = family.removeFeatures target selection from rfl, ran] at done
      cases done
    · have ends := interrupted.run_eq
      rw [show forEach _ _ = family.removeFeatures target selection from rfl, ran] at ends
      cases ends
      exact interrupted
  · exact Interrupted.run_eq

theorem Family.removeFeatures_eq_ok_iff {family : Family} (registered : family.isRegistered = true)
    (target : Path) (selection : Selection) (before last : Progress) :
    (family.removeFeatures target selection).run before = (.ok (), last) ↔
      ∃ accounts, Removes family target (removalOrder family.features selection) before accounts last := by
  constructor
  · intro ran
    rcases family.removes_or_interrupted registered target (removalOrder family.features selection) before with
      ⟨accounts, ended, removes⟩ | ⟨failure, stopped, interrupted⟩
    · have done := removes.run_eq
      rw [show forEach _ _ = family.removeFeatures target selection from rfl, ran] at done
      cases done
      exact ⟨accounts, removes⟩
    · have ends := interrupted.run_eq
      rw [show forEach _ _ = family.removeFeatures target selection from rfl, ran] at ends
      cases ends
  · rintro ⟨accounts, removes⟩
    exact removes.run_eq

theorem Family.processProject_eq_error_iff {family : Family} (registered : family.isRegistered = true)
    (target : Path) (selection : Selection) (session stopped : Session) (failure : Failure) :
    (family.processProject target selection).run session = (.error failure, stopped) ↔
      Interruption family target selection session failure stopped := by
  constructor
  · intro ran
    cases Course.of_run ran with
    | unloaded load =>
      obtain ⟨unread, fault, failed, malformed, rfl, -⟩ := (loadManifest_eq_error_iff _ _ _ _).mp load
      exact .loading failed malformed
    | unremoved load removal => exact .removing load ((removeFeatures_eq_error_iff registered _ _ _ _ _).mp removal)
    | unsaved load removal save =>
      obtain ⟨accounts, removes⟩ := (removeFeatures_eq_ok_iff registered _ _ _ _).mp removal
      obtain ⟨manifest, trouble, held, dirty, unwritable, rfl, rfl⟩ := (saveManifest_eq_error_iff _ _ _).mp save
      exact .saving load removes held dirty unwritable
  · intro interruption
    rw [processProject_run]
    cases interruption with
    | @loading unread fault stopped failed malformed =>
      have load := (loadManifest_eq_error_iff target (family.start target session none)
        { family.start target session none with session := stopped } _).mpr ⟨unread, fault, failed, malformed, rfl, rfl⟩
      rw [load]
    | removing load interrupted =>
      rw [load]
      dsimp only
      rw [(removeFeatures_eq_error_iff registered _ _ _ _ _).mpr interrupted]
    | saving load removes held dirty unwritable =>
      rw [load]
      dsimp only
      rw [(removeFeatures_eq_ok_iff registered _ _ _ _).mpr ⟨_, removes⟩]
      dsimp only
      rw [(saveManifest_eq_error_iff _ _ _).mpr ⟨_, _, held, dirty, unwritable, rfl, rfl⟩]

theorem saveManifest_result {last saved : Progress} {outcome : Except Failure Unit}
    (ran : saveManifest.run last = (outcome, saved)) : saved.result = last.result := by
  cases Saves.of_run ran <;> rfl

/-- A removal that yields a result has loaded the manifest, accounted for the features and saved the manifest. -/
theorem Family.exists_removes_of_processProject {family : Family} (registered : family.isRegistered = true)
    {target : Path} {selection : Selection} {session final : Session} {result : Result}
    (ran : (family.processProject target selection).run session = (.ok result, final)) :
    ∃ loaded accounts last saved,
      (loadManifest target).run (family.start target session none) = (.ok (), loaded) ∧
        Removes family target (removalOrder family.features selection) loaded accounts last ∧
        saveManifest.run last = (.ok (), saved) ∧ result = saved.result ∧ final = saved.session := by
  cases Course.of_run ran with
  | ended load removal save =>
    obtain ⟨accounts, removes⟩ := (removeFeatures_eq_ok_iff registered _ _ _ _).mp removal
    exact ⟨_, accounts, _, _, load, removes, save, rfl, rfl⟩

theorem Family.processLoaded_eq_error_iff {family : Family} (registered : family.isRegistered = true)
    (target : Path) (selection : Selection) (manifest : Manifest) (session stopped : Session) (failure : Failure) :
    (family.processLoaded target selection manifest).run session = (.error failure, stopped) ↔
      ∃ reached, Interrupted family target (removalOrder family.features selection)
        (family.start target session (some manifest)) failure reached ∧ reached.session = stopped := by
  rw [processLoaded_run]
  constructor
  · intro ran
    rcases removal : (family.removeFeatures target selection).run (family.start target session (some manifest)) with
      ⟨cause | value, reached⟩
    · rw [removal] at ran
      cases ran
      exact ⟨reached, (removeFeatures_eq_error_iff registered _ _ _ _ _).mp removal, rfl⟩
    · rw [removal] at ran
      cases ran
  · rintro ⟨reached, interrupted, rfl⟩
    rw [(removeFeatures_eq_error_iff registered _ _ _ _ _).mpr interrupted]

end Scaffold.Project
