import Scaffold.Proofs.Project.Keeping

/-! # What stops the removal of a feature

Reading, editing and converting files fails in ways that concern one feature only. Two failures of the
removal of types do not: a line about a file is shown as marked-up text although the name of the file
may hold brackets, and the page of a project is read as text although it may hold any bytes.
-/

namespace Scaffold.Project

open Scaffold.Text Scaffold.Files Stateful Processing

/-- The marked-up line of a warning; its message is not escaped. -/
def warningLine (message : String) : String := "  [yellow]Warning: " ++ message ++ "[/yellow]"

/-- The marked-up lines that tell of a failure. -/
inductive Notice : String → Prop
  | warning (message : String) : Notice (warningLine message)
  | skipping (name message : String) :
      Notice ("  [yellow]Skipping " ++ name ++ ": " ++ message ++ "[/yellow]")

/-- The page of a project. -/
def pageName : String := "index.html"

/-- A failure that does not concern one feature only, and how the disk is then. -/
inductive Fault (page : Path) : Failure → Disk → Prop
  | unshowable {line : String} {fault : Console.MarkupFault} {disk : Disk} (notice : Notice line)
      (malformed : Console.showMarkup line = .error fault) : Fault page (.markup fault) disk
  | undecodable {content : Bytes} {fault : Utf8Fault} {disk : Disk} (found : disk.read page = .ok content)
      (malformed : decode content = .error fault) : Fault page (.text (.encoding fault)) disk

theorem Fault.isLocal_eq_false {page : Path} {failure : Failure} {disk : Disk} (fault : Fault page failure disk) :
    failure.isLocal = false := by
  cases fault <;> rfl

/-- What can stop an operation that removes types. -/
def Setback (page : Path) (failure : Failure) (disk : Disk) : Prop :=
  failure.isLocal = true ∨ Fault page failure disk

/-- A failure that concerns one feature only. -/
def Confined {σ : Type} (failure : Failure) (_ : σ) : Prop := failure.isLocal = true

variable {page : Path}

/-- The setbacks of a session. -/
abbrev SessionSetback (page : Path) (failure : Failure) (session : Session) : Prop :=
  Setback page failure session.disk

/-- The setbacks of a removal. -/
abbrev ProgressSetback (page : Path) (failure : Failure) (progress : Progress) : Prop :=
  Setback page failure progress.session.disk

theorem Stateful.Stops.setback {α : Type} {operation : Operation α} (stops : Stops operation Confined) :
    Stops operation (SessionSetback page) :=
  stops.mono fun _ _ => .inl

/-! ## Operations of a session -/

theorem stops_ask {α : Type} {cause : Failure → Session → Prop} (question : Disk → α) :
    Stops (Operation.ask question) cause :=
  .bind .get fun _ => .pure _

theorem stops_liftTrouble {α : Type} (outcome : Except Trouble α) :
    Stops (Operation.liftTrouble outcome) Confined := by
  cases outcome with
  | ok value => exact .pure value
  | error trouble => exact .throw fun _ => rfl

theorem stops_change (act : Disk → Except Trouble Disk) : Stops (Operation.change act) Confined :=
  .bind .get fun _ => .bind (stops_liftTrouble _) fun _ => .modify _

theorem stops_writeBytes (path : Path) (content : Bytes) : Stops (Operation.writeBytes path content) Confined :=
  stops_change _

theorem stops_readBytes (path : Path) : Stops (Operation.readBytes path) Confined :=
  .bind .get fun _ => stops_liftTrouble _

theorem stops_readSource (path : Path) : Stops (readSource path) Confined := by
  apply Stops.bind (stops_readBytes path)
  intro source
  cases decode source with
  | ok _ => exact .pure source
  | error fault => exact .throw fun _ => rfl

theorem stops_readTree (path : Path) : Stops (readTree path) Confined := by
  apply Stops.bind (stops_readSource path)
  intro source
  cases (dialectOf path).parse source with
  | ok tree => exact .pure _
  | error line => exact .throw fun _ => rfl

theorem stops_writeChanged (path : Path) (before after : Bytes) :
    Stops (writeChanged path before after) Confined := by
  unfold writeChanged
  split
  · exact .pure false
  · exact .bind (stops_change _) fun _ => .pure true

theorem stops_onFile {path : Path} {act : Operation Bool} (stops : Stops act Confined) :
    Stops (onFile path act) Confined := by
  refine .bind (stops_ask _) fun isFile => ?_
  split
  · exact stops
  · exact .pure false

theorem stops_editTree (path : Path) (edit : Bytes → Syntax.Tree → Bytes) :
    Stops (editTree path edit) Confined :=
  stops_onFile (.bind (stops_readTree path) fun _ => stops_writeChanged _ _ _)

theorem stops_editEither (path : Path) (edit : Bytes → Syntax.Tree → Bytes) (otherwise : Bytes → Bytes) :
    Stops (editEither path edit otherwise) Confined := by
  refine stops_onFile (.bind (stops_readSource path) fun source => ?_)
  cases (dialectOf path).parse source with
  | ok tree => exact stops_writeChanged _ _ _
  | error line => exact stops_writeChanged _ _ _

theorem stops_action (action : Action) (path : Path) (arguments : List String) :
    Stops (action.run path arguments) Confined := by
  unfold Action.run
  split
  · exact stops_editTree _ _
  · exact stops_editTree _ _
  · exact stops_editEither _ _ _
  · exact stops_editEither _ _ _
  · exact stops_onFile (.bind (stops_readBytes path) fun _ => stops_writeChanged _ _ _)
  · exact stops_editEither _ _ _
  · exact .pure false

theorem stops_resolve {cause : Failure → Session → Prop} (root : Path) (target : String) :
    Stops (resolve root target) cause :=
  stops_ask _

theorem stops_removePath {cause : Failure → Session → Prop} (path : Path) :
    Stops (Operation.removePath path) cause :=
  .bind .get fun _ => .bind (.modify _) fun _ => .pure _

theorem stops_say {line : String} (notice : Notice line) : Stops (Operation.say line) (SessionSetback page) := by
  unfold Operation.say
  cases shown : Console.showMarkup line with
  | ok text => exact .bind (.pure text) fun _ => .modify _
  | error fault => exact .bind (.throw fun _ => .inr (.unshowable notice shown)) fun _ => .modify _

/-! ## Removing types -/

theorem stops_convertFile (path : Path) : Stops (convertFile path) Confined := by
  refine .bind (.tryCatch (stops_readSource path) ?_) fun source => ?_
  · intro failure state isLocal other next ran
    split at ran <;> cases ran
    · rfl
    · exact isLocal
  · cases Erasure.erase (dialectOf path) source with
    | error line => exact .throw fun _ => rfl
    | ok output => exact .bind (stops_change _) fun _ => .bind (stops_change _) fun _ => .pure _

theorem stops_convertFiles (paths : List Path) : Stops (convertFiles paths) (SessionSetback page) := by
  induction paths with
  | nil => exact .pure _
  | cons path later converted =>
    refine .bind (.tryCatch (.bind (stops_convertFile path) fun _ => .pure _) ?_) fun outcome => ?_
    · intro failure state isLocal other next ran
      split at ran <;> cases ran
      exact .inl isLocal
    · cases outcome with
      | ok target => exact .bind converted fun _ => .pure _
      | error message => exact .bind (stops_say (.skipping _ _)) fun _ => .bind converted fun _ => .pure _

theorem stops_convertTree (directory : Path) : Stops (convertTree directory) (SessionSetback page) :=
  .bind (stops_ask _) fun paths => stops_convertFiles paths

/-- Reading the page as text stops at bytes that are no text, and leaves them on the disk. -/
theorem stops_readText (page : Path) : Stops (Operation.readText page) (SessionSetback page) := by
  intro session failure next ran
  unfold Operation.readText at ran
  rw [bind_run] at ran
  rcases read : session.disk.read page with trouble | content
  · have stopped : (Operation.readBytes page).run session = (.error (.text (.trouble trouble)), session) := by
      unfold Operation.readBytes
      rw [bind_run]
      change (Operation.liftTrouble (session.disk.read page)).run session = _
      rw [read]
      rfl
    rw [stopped] at ran
    cases ran
    exact .inl rfl
  · have gone : (Operation.readBytes page).run session = (.ok content, session) := by
      unfold Operation.readBytes
      rw [bind_run]
      change (Operation.liftTrouble (session.disk.read page)).run session = _
      rw [read]
      rfl
    rw [gone] at ran
    dsimp only at ran
    rcases decoded : decode content with fault | text
    · rw [decoded] at ran
      cases ran
      exact .inr (.undecodable read decoded)
    · rw [decoded] at ran
      cases ran

theorem stops_changeText (page : Path) (rewrite : List Char → List Char) :
    Stops (changeText page rewrite) (SessionSetback page) := by
  refine .bind (stops_ask _) fun isFile => ?_
  split
  · apply Stops.bind (stops_readText page)
    intro text
    dsimp only
    split
    · exact .pure ()
    · exact (stops_writeBytes page _).setback
  · exact .pure ()

/-! ## Steps of a removal -/

theorem stops_perform {α : Type} {operation : Operation α} {cause : Failure → Session → Prop}
    (stops : Stops operation cause) :
    Stops (perform operation) fun failure progress => cause failure progress.session := by
  intro progress failure next ran
  rw [perform_run] at ran
  rcases outcome : operation.run progress.session with ⟨result, session⟩
  rw [outcome] at ran
  cases ran
  exact stops progress.session failure session outcome

theorem stops_forEach {α : Type} {step : α → Processing Unit} {cause : Failure → Progress → Prop}
    {items : List α} (stops : ∀ item ∈ items, Stops (step item) cause) : Stops (forEach step items) cause := by
  induction items with
  | nil => exact .pure ()
  | cons item later others =>
    exact .bind (stops item (by simp)) fun _ => others fun other mem => stops other (by simp [mem])

theorem stops_warn (message : String) : Stops (warn message) (ProgressSetback page) :=
  .bind (stops_perform (stops_say (.warning message))) fun _ => .modify _

theorem stops_convertConfig (path : Path) : Stops (convertConfig path) (ProgressSetback page) := by
  unfold convertConfig
  split
  · refine .bind (.tryCatch (.bind (stops_perform (stops_convertFile path)) fun _ => .pure _) ?_) fun outcome => ?_
    · intro failure state isLocal other next ran
      split at ran <;> cases ran
      exact .inl isLocal
    · cases outcome with
      | ok target => exact .modify _
      | error message => exact stops_warn message
  · exact .pure ()

theorem Family.stops_stripTypes (family : Family) (target : Path) :
    Stops (family.stripTypes target) (ProgressSetback (target.child pageName)) := by
  refine .bind (.modify _) fun _ => .bind (stops_forEach fun stem _ => ?_) fun _ => ?_
  · apply Stops.bind (stops_perform (stops_resolve _ _ : Stops _ (SessionSetback _)))
    intro paths
    exact stops_forEach fun path _ => stops_convertConfig path
  · refine .bind (stops_perform (stops_convertTree _)) fun conversion => .bind (.modify _) fun _ => ?_
    refine .bind (stops_forEach fun failure _ => .modify _) fun _ => ?_
    exact .bind (stops_perform (stops_changeText _ _)) fun _ => .modify _

/-! ## Rules that fit a family -/

/-- Whether an action can be called with these arguments. -/
def Action.accepts (action : Action) (arguments : List String) : Bool :=
  match action with
  | .removeImport | .removePlugin | .removeArrayEntry => arguments.length = 1
  | .removeCall => arguments.length = 1 || arguments.length = 2
  | .removeNamedImports => true
  | .disableTypeCheck => arguments.isEmpty

/-- Whether a step names an action of the family and calls it with the arguments that it takes. -/
def EditStep.fits (step : EditStep) (family : Family) : Bool :=
  (family.action? step.action).any fun action => action.accepts step.arguments

/-- Whether the rules of a family name nothing but its actions. -/
def Family.isRegistered (family : Family) : Bool :=
  family.rules.all fun entry => entry.2.edits.all fun step => step.fits family

theorem Family.mem_of_rule? {family : Family} {name : String} {rule : Rule} (found : family.rule? name = some rule) :
    (name, rule) ∈ family.rules := by
  unfold Family.rule? at found
  obtain ⟨earlier, later, split, -⟩ := List.lookup_eq_some_iff.mp found
  simp [split]

theorem Family.action?_of_isRegistered {family : Family} (registered : family.isRegistered = true)
    {name : String} {rule : Rule} (found : family.rule? name = some rule) {step : EditStep}
    (mem : step ∈ rule.edits) : ∃ action, family.action? step.action = some action := by
  unfold Family.isRegistered at registered
  have fitting := List.all_eq_true.mp registered _ (mem_of_rule? found)
  have fits := List.all_eq_true.mp fitting _ mem
  unfold EditStep.fits at fits
  cases known : family.action? step.action with
  | none => simp [known] at fits
  | some action => exact ⟨action, rfl⟩

/-! ## How a rule fails -/

/-- Only the removal of types can fail in a way that concerns more than one feature. -/
def RuleSetback (rule : Rule) (page : Path) (failure : Failure) (progress : Progress) : Prop :=
  failure.isLocal = true ∨ rule.transpile = true ∧ Fault page failure progress.session.disk

theorem Family.stops_runStep {family : Family} {step : EditStep} {action : Action}
    (known : family.action? step.action = some action) (target : Path) :
    Stops (family.runStep target step) Confined := by
  unfold Family.runStep
  rw [known]
  refine .bind (stops_perform (stops_resolve _ _ : Stops _ Confined)) fun paths => stops_forEach fun path _ => ?_
  exact .bind (stops_perform (stops_action action path _)) fun _ => .pure ()

theorem stops_removeMatches (root : Path) (target : String) : Stops (removeMatches root target) Confined := by
  refine .bind (stops_perform (stops_resolve _ _ : Stops _ Confined)) fun paths => stops_forEach fun path _ => ?_
  exact .bind (stops_perform (stops_removePath path : Stops _ Confined)) fun _ => .pure ()

theorem Family.stops_applyRule {family : Family} (registered : family.isRegistered = true) {name : String}
    {rule : Rule} (found : family.rule? name = some rule) (target : Path) :
    Stops (family.applyRule target rule) (RuleSetback rule (target.child pageName)) := by
  have edited : Stops (do forEach (family.runStep target) rule.edits; forEach (removeMatches target) rule.paths)
      (RuleSetback rule (target.child pageName)) := by
    refine .bind (stops_forEach fun step mem => ?_) fun _ => stops_forEach fun path _ => ?_
    · obtain ⟨action, known⟩ := action?_of_isRegistered registered found mem
      exact (stops_runStep known target).mono fun _ _ => .inl
    · exact (stops_removeMatches target path).mono fun _ _ => .inl
  unfold Family.applyRule
  split
  · next strips =>
    refine .bind ((family.stops_stripTypes target).mono fun _ _ setback => ?_) fun _ => .bind (.modify _) fun _ => edited
    exact setback.imp_right fun fault => ⟨strips, fault⟩
  · exact .bind (.modify _) fun _ => edited

end Scaffold.Project
