import Scaffold.CommandLine.Create
import Scaffold.Proofs.Project.Enclosure

/-! # What a creation changes

A creation settles its plan before it changes anything: the name, the template, the features, and the target. Then it
makes sure of the target, which may empty it, and generates the project there.
-/

namespace Scaffold.CommandLine

open Scaffold.Text Scaffold.Files Scaffold.Project Stateful Processing

variable {environment : Environment} {arguments : CreateArguments} {session settled last : Session}

/-! ## Plans -/

/-- What a creation has settled before it changes anything. -/
structure Plan where
  family : Family
  templates : Path
  selection : Selection
  target : Path
  name : String
  /-- Whether the target is emptied without asking. -/
  force : Bool

def Plan.template (plan : Plan) : Path := plan.family.templatePath plan.templates

/-- Settles the plan of a creation. -/
def settle (environment : Environment) (arguments : CreateArguments) : Operation Plan := do
  let config ← Config.discover environment (← Operation.ask Disk.workingPath)
  let templates := (givenPath arguments.templates).getD config.templates
  let name ← settleName arguments
  let family ← settleFamily arguments config
  let template := family.templatePath templates
  if !(← Operation.ask fun disk => disk.isDirectory template) then
    throw (.templateMissing family.name (some template))
  let selection ← settleFeatures arguments family
  let target := ((givenPath arguments.directory).getD config.output).child name
  return ⟨family, templates, selection, target, name, arguments.force || config.force⟩

/-- Carries out a plan. -/
def Plan.carryOut (plan : Plan) (yes : Bool) : Operation Unit := do
  if ← prepareTarget plan.target plan.force yes then
    reportCreation plan.name plan.family plan.selection
      (← plan.family.generate plan.templates plan.target plan.selection plan.name)
  else warn "Cancelled."

theorem create_eq (environment : Environment) (arguments : CreateArguments) :
    create environment arguments = settle environment arguments >>= fun plan => plan.carryOut arguments.yes := by
  unfold create settle Plan.carryOut
  simp only [bind_assoc]
  refine bind_congr fun working => bind_congr fun config => bind_congr fun name => bind_congr fun family => bind_congr fun there => ?_
  split
  · simp only [bind_assoc, pure_bind]
  · simp only [bind_assoc, pure_bind]

/-! ## Settling a plan -/

/-- The disk is as it was. -/
def SameDisk (before after : Session) : Prop := after.disk = before.disk

instance : Std.Refl SameDisk where
  refl _ := rfl

instance : Trans SameDisk SameDisk SameDisk where
  trans first second := second.trans first

theorem sameDisk_liftMarkup {α : Type} (outcome : Except Console.MarkupFault α) : Keeps (Operation.liftMarkup outcome) SameDisk := by
  cases outcome with
  | ok value => exact .pure value
  | error fault => exact .throw _

theorem sameDisk_askAmong {α : Type} (prompt complaint : String) (answer? : String → Option α) (lines : List String) :
    Keeps (askAmong prompt complaint answer? lines) SameDisk := by
  induction lines with
  | nil => exact .bind (.modify fun _ => rfl) fun _ => .throw _
  | cons line later asks =>
    refine .bind (.modify fun _ => rfl) fun _ => .bind (.modify fun _ => rfl) fun _ => ?_
    cases answer? line with
    | some answer => exact .pure answer
    | none => exact .bind (.modify fun _ => rfl) fun _ => asks

theorem sameDisk_ask {α : Type} (question hint complaint : String) (answer? : String → Option α) :
    Keeps (ask question hint complaint answer?) SameDisk :=
  .bind (sameDisk_liftMarkup _) fun _ => .bind (.of_same fun _ => rfl) fun _ => sameDisk_askAmong _ _ _ _

theorem sameDisk_warn (text : String) : Keeps (warn text) SameDisk := keeps_say id _

theorem sameDisk_load (path : Path) : Keeps (Config.load environment path) SameDisk := by
  refine .bind (.of_same fun session => ?_) fun text => ?_
  · rw [readText_run]
    split
    · rfl
    · split <;> rfl
  · cases Config.ofDocument environment text with
    | ok config => exact .pure config
    | error reports => exact .throw _

theorem sameDisk_discover (directory : Path) : Keeps (Config.discover environment directory) SameDisk := by
  refine .bind (keeps_ask _) fun isFile => ?_
  dsimp only
  split
  · exact .bind (sameDisk_load _) fun _ => .pure _
  · exact .bind (.pure _) fun _ => .pure _

theorem sameDisk_settleName : Keeps (settleName arguments) SameDisk := by
  unfold settleName
  split
  · split
    · exact .pure _
    · exact .throw _
  · split
    · exact .throw _
    · exact sameDisk_ask _ _ _ _

theorem sameDisk_knownFamily (name : String) : Keeps (knownFamily name) SameDisk := by
  unfold knownFamily
  split
  · exact .pure _
  · exact .throw _

theorem sameDisk_settleFamily (config : Config) : Keeps (settleFamily arguments config) SameDisk := by
  unfold settleFamily
  split
  · exact sameDisk_knownFamily _
  · split
    · exact sameDisk_knownFamily _
    · exact .bind (sameDisk_ask _ _ _ _) fun name => sameDisk_knownFamily name

theorem sameDisk_askFeatures (features : List Feature) : Keeps (askFeatures features) SameDisk := by
  induction features with
  | nil => exact .pure _
  | cons feature later asks => exact .bind (sameDisk_ask _ _ _ _) fun _ => .bind asks fun _ => .pure _

theorem sameDisk_settleFeatures (family : Family) : Keeps (settleFeatures arguments family) SameDisk := by
  unfold settleFeatures
  dsimp only
  split
  · exact .pure _
  · exact .pure _
  · split
    · exact .bind (sameDisk_warn _) fun _ => .pure _
    · exact .pure _
  · split
    · exact .pure _
    · exact sameDisk_askFeatures _

/-- Nothing is changed while a plan is settled. -/
theorem sameDisk_settle : Keeps (settle environment arguments) SameDisk := by
  refine .bind (keeps_ask _) fun _ => .bind (sameDisk_discover _) fun config => .bind sameDisk_settleName fun name => ?_
  refine .bind (sameDisk_settleFamily config) fun family => .bind (keeps_ask _) fun there => ?_
  split
  · exact .bind (.throw _) fun _ => .bind (sameDisk_settleFeatures _) fun _ => .pure _
  · exact .bind (sameDisk_settleFeatures _) fun _ => .pure _

/-! ## What a plan names -/

theorem isProper_output_of_load {path : Path} {config : Config}
    (ran : (Config.load environment path).run session = (.ok config, settled)) : config.output.IsProper := by
  obtain ⟨text, middle, -, lifted⟩ := bind_run_eq_ok_iff.mp ran
  have described : Config.ofDocument environment text = .ok config := by
    cases found : Config.ofDocument environment text with
    | ok other =>
      rw [found] at lifted
      cases lifted
      rfl
    | error reports =>
      rw [found] at lifted
      cases lifted
  unfold Config.ofDocument at described
  split at described
  · cases described
  · next members _ =>
    unfold Config.ofMembers at described
    dsimp only at described
    split at described
    · next templates template output force _ _ read _ =>
      cases described
      unfold setting at read
      split at read
      · unfold readPath at read
        split at read <;> cases read
        exact Path.isProper_ofString _
      · cases read
        exact Path.isProper_ofString _
    · cases described
  · cases described

theorem isProper_output_of_discover {directory : Path} {config : Config}
    (ran : (Config.discover environment directory).run session = (.ok config, settled)) : config.output.IsProper := by
  have overridden {config : Config} (proper : config.output.IsProper) : (config.withEnvironment environment).output.IsProper := by
    change (((Config.lookup? environment "HS_CLI_OUTPUT_DIR").map Path.ofString).getD config.output).IsProper
    cases Config.lookup? environment "HS_CLI_OUTPUT_DIR" with
    | none => exact proper
    | some text => exact Path.isProper_ofString text
  obtain ⟨isFile, middle, -, rest⟩ := bind_run_eq_ok_iff.mp ran
  dsimp only at rest
  split at rest
  · obtain ⟨loaded, last, load, done⟩ := bind_run_eq_ok_iff.mp rest
    cases done
    exact overridden (isProper_output_of_load load)
  · obtain ⟨loaded, last, started, done⟩ := bind_run_eq_ok_iff.mp rest
    cases started
    cases done
    exact overridden (Path.isProper_ofString ".")

theorem mem_of_knownFamily {name : String} {family : Family} (ran : (knownFamily name).run session = (.ok family, settled)) :
    family ∈ families := by
  unfold knownFamily at ran
  split at ran
  · next found =>
    cases ran
    exact List.mem_of_find?_eq_some found
  · cases ran

theorem mem_of_settleFamily {config : Config} {family : Family}
    (ran : (settleFamily arguments config).run session = (.ok family, settled)) : family ∈ families := by
  unfold settleFamily at ran
  split at ran
  · exact mem_of_knownFamily ran
  · split at ran
    · exact mem_of_knownFamily ran
    · obtain ⟨name, middle, -, known⟩ := bind_run_eq_ok_iff.mp ran
      exact mem_of_knownFamily known

/-- A settled plan is about a family of the program whose template is there, and its target has a proper path. -/
structure Plan.IsSound (plan : Plan) (disk : Disk) : Prop where
  packaged : plan.family ∈ families
  template : disk.isDirectory plan.template = true
  target : plan.target.IsProper

theorem isSound_of_settle {plan : Plan} (ran : (settle environment arguments).run session = (.ok plan, settled)) :
    plan.IsSound session.disk := by
  obtain ⟨working, first, asked, rest⟩ := bind_run_eq_ok_iff.mp ran
  cases asked
  obtain ⟨config, second, discover, rest⟩ := bind_run_eq_ok_iff.mp rest
  obtain ⟨name, third, named, rest⟩ := bind_run_eq_ok_iff.mp rest
  obtain ⟨family, fourth, chosen, rest⟩ := bind_run_eq_ok_iff.mp rest
  obtain ⟨there, fifth, asked, rest⟩ := bind_run_eq_ok_iff.mp rest
  cases asked
  have same : fourth.disk = session.disk :=
    (sameDisk_settleFamily config _ _ _ chosen).trans ((sameDisk_settleName _ _ _ named).trans (sameDisk_discover _ _ _ _ discover))
  dsimp only at rest
  split at rest
  · obtain ⟨none_, _, stopped, -⟩ := bind_run_eq_ok_iff.mp rest
    cases stopped
  · next there =>
    obtain ⟨selection, sixth, -, done⟩ := bind_run_eq_ok_iff.mp rest
    cases done
    refine ⟨mem_of_settleFamily chosen, ?_, Path.IsProper.append ?_ (Path.isProper_ofString name)⟩
    · rw [← same]
      change fourth.disk.isDirectory (family.templatePath _) = true
      simpa using there
    · unfold givenPath
      cases arguments.directory.filter (· ≠ "") with
      | none => exact isProper_output_of_discover discover
      | some text => exact Path.isProper_ofString text

/-! ## Making sure of the target -/

/-- Emptying an occupied directory if a question, whose answer leaves the disk as it is, is answered so. -/
theorem emptyIf_cases {target : Path} {asking : Operation Bool} (asks : Keeps asking SameDisk)
    (directory : session.disk.isDirectory target = true) {outcome : Except Failure Bool}
    (ran : (do
      let agreed ← asking
      if agreed = true then do
        Operation.change fun disk => disk.clear target
        pure agreed
      else pure agreed : Operation Bool).run session = (outcome, settled)) :
    settled.disk = session.disk ∧ outcome ≠ .ok true ∨
      outcome = .ok true ∧ settled.disk = session.disk.empty (session.disk.resolve target).parts := by
  rw [bind_run] at ran
  rcases asked : asking.run session with ⟨failure | agreed, after⟩
  · rw [asked] at ran
    cases ran
    exact .inl ⟨asks _ _ _ asked, nofun⟩
  · have same : after.disk = session.disk := asks _ _ _ asked
    rw [asked] at ran
    dsimp only at ran
    split at ran
    · next agrees =>
      obtain ⟨location, located, held⟩ := Disk.isDirectory_eq_true_iff.mp directory
      have cleared : session.disk.clear target = .ok (session.disk.empty location) := by
        rw [Disk.clear, located]
        dsimp only
        rw [held]
      rw [bind_run, change_run, same, cleared] at ran
      cases ran
      exact .inr ⟨congrArg Except.ok agrees, by rw [← Disk.eq_resolve_of_locate located]⟩
    · next declines =>
      cases ran
      exact .inl ⟨same, fun agrees => declines (Except.ok.inj agrees)⟩

/-- The target is as it was, or it was an occupied directory and has been emptied. -/
theorem prepareTarget_cases {target : Path} {force yes : Bool} {outcome : Except Failure Bool}
    (ran : (prepareTarget target force yes).run session = (outcome, settled)) :
    settled.disk = session.disk ∧ (outcome = .ok true → session.disk.isVacant target = true) ∨
      outcome = .ok true ∧ session.disk.isVacant target = false ∧
        settled.disk = session.disk.empty (session.disk.resolve target).parts := by
  unfold prepareTarget at ran
  rw [bind_run, ask_run] at ran
  dsimp only at ran
  split at ran
  · cases ran
    exact .inl ⟨rfl, nofun⟩
  · next free =>
    rw [bind_run, ask_run] at ran
    dsimp only at ran
    split at ran
    · next vacant =>
      cases ran
      exact .inl ⟨rfl, fun _ => vacant⟩
    · next occupied =>
      have directory : session.disk.isDirectory target = true := by
        refine (Bool.not_eq_false _).mp fun other => free ?_
        rw [other, Disk.contains_of_occupied (Bool.eq_false_iff.mpr occupied)]
        rfl
      split at ran
      · cases ran
        exact .inl ⟨rfl, nofun⟩
      · suffices settled.disk = session.disk ∧ outcome ≠ .ok true ∨
            outcome = .ok true ∧ settled.disk = session.disk.empty (session.disk.resolve target).parts from
          this.imp (fun ⟨same, declines⟩ => ⟨same, fun agrees => absurd agrees declines⟩) fun ⟨agrees, emptied⟩ =>
            ⟨agrees, Bool.eq_false_iff.mpr occupied, emptied⟩
        split at ran
        · exact emptyIf_cases (.pure true) directory ran
        · exact emptyIf_cases (sameDisk_ask _ _ _ _) directory ran

/-! ## Refusals -/

/-- Whether a creation is refused with this failure. -/
def refuses : Failure → Bool
  | .creation _ | .templateMissing _ _ => true
  | _ => false

/-- The failures that are no refusals. -/
def Undertaken {σ : Type} (failure : Failure) (_ : σ) : Prop := refuses failure = false

theorem undertaken_of_isLocal {failure : Failure} (isLocal : failure.isLocal = true) : refuses failure = false := by
  cases failure with
  | creation fault => cases isLocal
  | templateMissing name path => cases isLocal
  | _ => rfl

theorem undertaken_of_setback {page : Path} {failure : Failure} {disk : Disk} (setback : Setback page failure disk) :
    refuses failure = false := by
  rcases setback with isLocal | fault
  · exact undertaken_of_isLocal isLocal
  · cases fault <;> rfl

theorem undertaken_of_interrupted {family : Family} {target : Path} {names : List String} {before after : Progress}
    {failure : Failure} (interrupted : Interrupted family target names before failure after) : refuses failure = false := by
  obtain ⟨_, _, _, _, _, -, -, interrupts⟩ := interrupted
  cases interrupts with
  | applying found strips failed fault => exact undertaken_of_setback (.inr fault)
  | telling found failed isLocal malformed => rfl

theorem stops_processProject {family : Family} (packaged : family ∈ families) (target : Path) (selection : Selection) :
    Stops (family.processProject target selection) Undertaken := by
  intro session failure stopped ran
  cases (Family.processProject_eq_error_iff (isRegistered_of_mem packaged) _ _ _ _ _).mp ran with
  | loading failed malformed => rfl
  | removing load interrupted => exact undertaken_of_interrupted interrupted
  | saving load removes held dirty unwritable => rfl

theorem stops_processLoaded {family : Family} (packaged : family ∈ families) (target : Path) (selection : Selection)
    (manifest : Manifest) : Stops (family.processLoaded target selection manifest) Undertaken := by
  intro session failure stopped ran
  obtain ⟨reached, interrupted, -⟩ := (Family.processLoaded_eq_error_iff (isRegistered_of_mem packaged) _ _ _ _ _ _).mp ran
  exact undertaken_of_interrupted interrupted

/-- A project is refused before it is copied, if at all. -/
theorem stops_complete {family : Family} (packaged : family ∈ families) (target : Path) (selection : Selection) (name : String) :
    Stops (family.complete target selection name) Undertaken := by
  refine .bind ((stops_inDirectory target).mono ?_) fun given => .bind ?_ fun named => ?_
  · rintro failure state ⟨fault, rfl⟩
    rfl
  · refine .bind ((stops_changeText _ _).mono fun _ _ => undertaken_of_setback) fun _ => ?_
    exact .bind ((stops_changeText _ _).mono fun _ _ => undertaken_of_setback) fun _ => .pure _
  · cases named with
    | none => exact stops_processProject packaged target selection
    | some manifest =>
      refine .bind (stops_processLoaded packaged target selection manifest) fun processed => ?_
      obtain ⟨result, _ | final⟩ := processed
      · exact .pure _
      · refine .bind ?_ fun _ => .pure _
        unfold Manifest.save
        split
        · exact .pure _
        · exact .bind ((stops_writeBytes _ _).mono fun _ _ => undertaken_of_isLocal) fun _ => .pure _

theorem stops_generate {family : Family} (packaged : family ∈ families) {templates target : Path} {selection : Selection}
    {name : String} (there : session.disk.isDirectory (family.templatePath templates) = true) {failure : Failure}
    (ran : (family.generate templates target selection name).run session = (.error failure, last)) : refuses failure = false := by
  have copies : Stops (copyTemplate (family.templatePath templates) target) Undertaken := by
    intro session failure stopped ran
    rw [copyTemplate_run] at ran
    split at ran <;> cases ran <;> rfl
  rw [Family.generate_eq there] at ran
  exact copies.bind (fun _ => stops_complete packaged target selection name) _ _ _ ran

/-- An operation leaves the disk as it is, and refuses nothing. -/
structure Reports {α : Type} (operation : Operation α) : Prop where
  keeps : Keeps operation SameDisk
  stops : Stops operation Undertaken

theorem Reports.bind {α β : Type} {first : Operation α} {second : α → Operation β} (begins : Reports first)
    (goesOn : ∀ value, Reports (second value)) : Reports (first >>= second) :=
  ⟨begins.keeps.bind fun value => (goesOn value).keeps, begins.stops.bind fun value => (goesOn value).stops⟩

theorem reports_put (text : String) : Reports (Operation.put text) := ⟨.modify fun _ => rfl, .modify _⟩

theorem reports_say (text : String) : Reports (Operation.say text) := by
  refine ⟨keeps_say id _, ?_⟩
  intro session failure next ran
  rw [say_run] at ran
  split at ran <;> cases ran
  rfl

theorem reports_forIn {α : Type} {step : α → Operation Unit} (items : List α) (reports : ∀ item, Reports (step item)) :
    Reports (forIn items PUnit.unit fun item _ => step item >>= fun _ => pure (ForInStep.yield PUnit.unit)) := by
  induction items with
  | nil => exact ⟨.pure _, .pure _⟩
  | cons item later others =>
    simp only [List.forIn_cons, bind_assoc, pure_bind]
    exact (reports item).bind fun _ => others

theorem reports_reportCreation (name : String) (family : Family) (selection : Selection) (result : Project.Result) :
    Reports (reportCreation name family selection result) := by
  have closing : Reports (do
      Operation.say ("  cd " ++ result.target.text)
      Operation.put ("  " ++ installCommand ++ "\n")
      Operation.put ("  " ++ startCommand ++ "\n")) :=
    (reports_say _).bind fun _ => (reports_put _).bind fun _ => reports_put _
  refine .bind (reports_forIn _ fun _ => reports_say _) fun _ => .bind ⟨keeps_ask _, stops_ask _⟩ fun location => ?_
  refine .bind ⟨.modify fun _ => rfl, .modify _⟩ fun _ => ?_
  dsimp only
  split
  · exact (reports_put _).bind fun _ => closing
  · exact (reports_put _).bind fun _ => closing

/-! ## Carrying out a plan -/

namespace Plan

variable {plan : Plan} {yes : Bool} {outcome : Except Failure Unit}

/-- Where the target of a plan is. -/
def place (plan : Plan) (disk : Disk) : Location := (disk.resolve plan.target).parts

/-- Outside its target a plan has left everything as it was, but for new directories on the way there. -/
def StaysInTarget (plan : Plan) (before after : Disk) : Prop :=
  ∀ location, after.entry? location = before.entry? location ∨ plan.place before <+: location ∨
    before.entry? location = none ∧ after.entry? location = some .directory ∧ before.IsWaypoint plan.target location

/-- A plan ends where its preparation ends, unless the project is generated after it. Then it is refused by the
generation, if at all. -/
theorem carryOut_cases (ran : (plan.carryOut yes).run session = (outcome, last)) :
    last.disk = session.disk ∨
      ∃ prepared generated result, (prepareTarget plan.target plan.force yes).run session = (.ok true, prepared) ∧
        (plan.family.generate plan.templates plan.target plan.selection plan.name).run prepared = (result, generated) ∧
        last.disk = generated.disk ∧ ∀ failure, outcome = .error failure → refuses failure = true → result = .error failure := by
  unfold carryOut at ran
  rw [bind_run] at ran
  rcases preparation : (prepareTarget plan.target plan.force yes).run session with ⟨failure | _ | _, prepared⟩ <;>
    rw [preparation] at ran
  · cases ran
    rcases prepareTarget_cases preparation with ⟨same, -⟩ | ⟨agreed, -⟩
    · exact .inl same
    · cases agreed
  · rcases prepareTarget_cases preparation with ⟨same, -⟩ | ⟨agreed, -⟩
    · exact .inl ((sameDisk_warn _ _ _ _ ran).trans same)
    · cases agreed
  · refine .inr ⟨prepared, ?_⟩
    dsimp only at ran
    rw [if_pos rfl, bind_run] at ran
    rcases generation : (plan.family.generate plan.templates plan.target plan.selection plan.name).run prepared
      with ⟨failure | result, generated⟩ <;> rw [generation] at ran
    · cases ran
      exact ⟨_, _, rfl, rfl, rfl, fun other same _ => congrArg Except.error (Except.error.inj same)⟩
    · have reports := reports_reportCreation plan.name plan.family plan.selection result
      refine ⟨generated, .ok result, rfl, rfl, reports.keeps _ _ _ ran, fun failure same refused => ?_⟩
      subst same
      rw [show refuses failure = false from reports.stops _ _ _ ran] at refused
      cases refused

theorem generate_of_missing {prepared : Session} (missing : prepared.disk.isDirectory plan.template = false) :
    (plan.family.generate plan.templates plan.target plan.selection plan.name).run prepared =
      (.error (.templateMissing plan.family.name (some plan.template)), prepared) := by
  unfold Family.generate
  rw [bind_run, ask_run]
  dsimp only
  rw [show prepared.disk.isDirectory (plan.family.templatePath plan.templates) = false from missing]
  rfl

/-- Carrying out a plan changes nothing outside the target. -/
theorem IsSound.staysInTarget (sound : plan.IsSound session.disk) (tree : session.disk.IsTree)
    (ran : (plan.carryOut yes).run session = (outcome, last)) : plan.StaysInTarget session.disk last.disk := by
  rcases carryOut_cases ran with same | ⟨prepared, generated, result, preparation, generation, same, -⟩
  · rw [same]
    exact fun location => .inl rfl
  have working : ∀ part ∈ session.disk.workingDirectory, IsPlain part := fun part => tree.isPlain_of_mem tree.here
  obtain ⟨names, directory, outside⟩ : prepared.disk.HasPlainNames ∧
      prepared.disk.workingDirectory = session.disk.workingDirectory ∧
      Disk.KeepsOutside (plan.place session.disk <+: ·) session.disk prepared.disk := by
    rcases prepareTarget_cases preparation with ⟨same, -⟩ | ⟨-, -, emptied⟩
    · rw [same]
      exact ⟨tree.hasPlainNames, rfl, fun _ _ => rfl⟩
    · rw [emptied]
      refine ⟨fun old mem => tree.plain old (List.mem_filter.mp mem).1, rfl, fun location apart => ?_⟩
      rw [Disk.entry?_empty, if_neg fun gone => apart gone.1]
  have resolves (path : Path) : prepared.disk.resolve path = session.disk.resolve path := by
    rw [Disk.resolve, Disk.resolve, directory]
  obtain ⟨begun, makes, beneath⟩ : ∃ begun, Disk.MakesWay (prepared.disk.IsWaypoint plan.target) prepared.disk begun ∧
      Disk.IsBeneath begun (plan.place session.disk) generated.disk := by
    cases there : prepared.disk.isDirectory plan.template with
    | true =>
      have spec := (leadsDown_of_mem sound.packaged).exists_beneath_generate there names (directory ▸ working) sound.target
        plan.selection plan.name
      rw [generation, resolves] at spec
      exact spec
    | false =>
      rw [generate_of_missing there] at generation
      cases generation
      exact ⟨_, .refl _, rfl, names, fun _ _ => rfl⟩
  rw [same]
  intro location
  by_cases under : plan.place session.disk <+: location
  · exact .inr (.inl under)
  rw [beneath.outside location under, ← outside location under]
  rcases makes.entries location with kept | ⟨absent, held, front, initial, eq⟩
  · exact .inl kept
  · exact .inr (.inr ⟨absent, held, front, initial, eq.trans (congrArg Path.parts (resolves _))⟩)

/-- The target of a plan holds a file of the template, or emptying it takes the template away. -/
def Clashes (plan : Plan) (disk : Disk) : Prop :=
  (∃ location content, (disk.resolve plan.template).parts <+: location ∧ plan.place disk <+: location ∧
      disk.entry? location = some (.file content)) ∨
    disk.isVacant plan.target = false ∧ (disk.empty (plan.place disk)).isDirectory plan.template = false

/-- A plan is refused before anything is changed, unless emptying the target has taken the template away. -/
theorem IsSound.sameDisk_of_refused (sound : plan.IsSound session.disk) {failure : Failure}
    (ran : (plan.carryOut yes).run session = (.error failure, last)) (refused : refuses failure = true) :
    last.disk = session.disk ∨
      failure = .templateMissing plan.family.name (some plan.template) ∧ session.disk.isVacant plan.target = false ∧
        last.disk = session.disk.empty (plan.place session.disk) ∧ last.disk.isDirectory plan.template = false := by
  rcases carryOut_cases ran with same | ⟨prepared, generated, result, preparation, generation, same, refusal⟩
  · exact .inl same
  obtain rfl := refusal failure rfl refused
  cases there : prepared.disk.isDirectory plan.template with
  | true =>
    rw [show refuses failure = false from stops_generate sound.packaged there generation] at refused
    cases refused
  | false =>
    rw [generate_of_missing there] at generation
    cases generation
    rcases prepareTarget_cases preparation with ⟨kept, -⟩ | ⟨-, occupied, emptied⟩
    · exact .inl (same.trans kept)
    · exact .inr ⟨rfl, occupied, same.trans emptied, same ▸ there⟩

end Plan

/-- A creation changes nothing while its plan is settled, and nothing outside the target of the plan after that. When it
is refused or the user declines, the disk is as it was. Files of the template are left alone, and a missing template is
noticed before anything is changed, unless the plan clashes: then emptying the target may take the template away. -/
theorem creation_stays_in_target (tree : session.disk.IsTree) {outcome : Except Failure Unit}
    (ran : (create environment arguments).run session = (outcome, last)) :
    (∃ failure, outcome = .error failure ∧ last.disk = session.disk ∧
        (settle environment arguments).run session = (.error failure, last)) ∨
      ∃ plan settled, (settle environment arguments).run session = (.ok plan, settled) ∧ settled.disk = session.disk ∧
        plan.IsSound session.disk ∧ plan.StaysInTarget session.disk last.disk ∧
        (∀ fault, outcome = .error (.creation fault) → last.disk = session.disk) ∧
        (∀ asked, (prepareTarget plan.target plan.force arguments.yes).run settled = (.ok false, asked) →
          last.disk = session.disk) ∧
        (¬ plan.Clashes session.disk →
          (∀ name path, outcome = .error (.templateMissing name path) → last.disk = session.disk) ∧
          ∀ location content, (session.disk.resolve plan.template).parts <+: location →
            session.disk.entry? location = some (.file content) → last.disk.entry? location = some (.file content)) ∧
        ∀ name path, outcome = .error (.templateMissing name path) → last.disk ≠ session.disk →
          session.disk.isVacant plan.target = false ∧ last.disk = session.disk.empty (plan.place session.disk) := by
  rw [create_eq, bind_run] at ran
  rcases settling : (settle environment arguments).run session with ⟨failure | plan, settled⟩ <;> rw [settling] at ran
  · cases ran
    exact .inl ⟨failure, rfl, sameDisk_settle _ _ _ settling, rfl⟩
  have same : settled.disk = session.disk := sameDisk_settle _ _ _ settling
  have sound : plan.IsSound session.disk := isSound_of_settle settling
  have stays : plan.StaysInTarget session.disk last.disk := same ▸ (same ▸ sound).staysInTarget (same ▸ tree) ran
  have refused {failure : Failure} (stopped : outcome = .error failure) (refusal : refuses failure = true) :
      last.disk = session.disk ∨
        failure = .templateMissing plan.family.name (some plan.template) ∧ session.disk.isVacant plan.target = false ∧
          last.disk = session.disk.empty (plan.place session.disk) ∧ last.disk.isDirectory plan.template = false := by
    subst stopped
    rw [← same]
    exact (show plan.IsSound settled.disk from same.symm ▸ sound).sameDisk_of_refused ran refusal
  refine .inr ⟨plan, settled, rfl, same, sound, stays, fun fault stopped => ?_, fun asked declined => ?_, fun apart => ⟨?_, ?_⟩, ?_⟩
  · rcases refused stopped rfl with kept | ⟨other, -⟩
    · exact kept
    · cases other
  · rcases Plan.carryOut_cases ran with kept | ⟨prepared, generated, result, agreed, -⟩
    · exact kept.trans same
    · rw [declined] at agreed
      cases agreed
  · intro name path stopped
    rcases refused stopped rfl with kept | ⟨-, occupied, emptied, gone⟩
    · exact kept
    · exact absurd (.inr ⟨occupied, emptied ▸ gone⟩) apart
  · intro location content own held
    rcases stays location with kept | under | ⟨absent, -⟩
    · exact kept.trans held
    · exact absurd (.inl ⟨location, content, own, under, held⟩) apart
    · rw [held] at absent
      cases absent
  · intro name path stopped changed
    rcases refused stopped rfl with kept | ⟨-, occupied, emptied, -⟩
    · exact absurd kept changed
    · exact ⟨occupied, emptied⟩

/-- A creation with nothing left open. -/
def plainly (name templates : String) (force : Bool) : CreateArguments :=
  ⟨some name, some "vue3", .none, none, some templates, force, true⟩

/-- A template with nothing but a manifest is left alone by a project beside it. -/
theorem lone_creation_stays_in_target :
    loneTemplate.disk.IsTree ∧ ∃ (plan : Plan) (last : Session),
      ((create ⟨⟨true, []⟩, []⟩ (plainly "app" "templates" false)).run loneTemplate).2 = last ∧
        plan.target = ⟨false, ["app"]⟩ ∧ ¬ plan.Clashes loneTemplate.disk ∧ plan.StaysInTarget loneTemplate.disk last.disk ∧
        last.disk.entry? ["templates", "vue3", Manifest.fileName] = some (.file (encodeChars ['\x7b', '\x7d'])) := by
  have tree : loneTemplate.disk.IsTree := by decide
  have settling : (settle ⟨⟨true, []⟩, []⟩ (plainly "app" "templates" false)).run loneTemplate =
      (.ok ⟨vue3, ⟨false, ["templates"]⟩, .ofChosen vue3.features [], ⟨false, ["app"]⟩, "app", false⟩, loneTemplate) := by
    with_unfolding_all rfl
  rcases ran : (create ⟨⟨true, []⟩, []⟩ (plainly "app" "templates" false)).run loneTemplate with ⟨outcome, last⟩
  rcases creation_stays_in_target tree ran with ⟨failure, -, -, stopped⟩ | ⟨plan, settled, settled', -, -, stays, -, -, apart, -⟩
  · rw [settling] at stopped
    cases stopped
  · rw [settling] at settled'
    cases settled'
    have clashless : ¬ Plan.Clashes ⟨vue3, ⟨false, ["templates"]⟩, .ofChosen vue3.features [], ⟨false, ["app"]⟩, "app", false⟩
        loneTemplate.disk := by
      rintro (⟨location, content, own, under, -⟩ | ⟨occupied, -⟩)
      · obtain ⟨names, rfl⟩ := own
        obtain ⟨others, eq⟩ := under
        exact absurd (List.cons.inj eq).1 (by decide)
      · exact absurd occupied (by decide)
    exact ⟨tree, _, last, rfl, rfl, clashless, stays, (apart clashless).2 _ _ ⟨[Manifest.fileName], by decide⟩ (by rfl)⟩

/-- The target holds the templates: it is emptied, and then the template is missing. -/
theorem forced_creation_takes_template_away :
    ∃ last, (create ⟨⟨true, []⟩, []⟩ (plainly "templates" "templates" true)).run loneTemplate =
        (.error (.templateMissing "vue3" (some ⟨false, ["templates", "vue3"]⟩)), last) ∧
      loneTemplate.disk.entry? ["templates", "vue3", Manifest.fileName] = some (.file (encodeChars ['\x7b', '\x7d'])) ∧
      last.disk.entry? ["templates", "vue3", Manifest.fileName] = none :=
  ⟨{ loneTemplate with disk := loneTemplate.disk.empty ["templates"] }, by with_unfolding_all rfl, by rfl, by rfl⟩

end Scaffold.CommandLine
