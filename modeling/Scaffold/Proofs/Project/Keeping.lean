import Scaffold.Proofs.Project.Runs

/-! # How the steps of a removal are composed

A removal carries out operations of the session, changes the manifest, and gives warnings. A relation between
the states before and after a removal holds when it holds for each of these, whatever fails on the way.
-/

namespace Scaffold.Project

open Scaffold.Files Stateful Processing

variable {α β : Type} {sessions : Session → Session → Prop} {states : Progress → Progress → Prop}

theorem perform_run (operation : Operation α) (progress : Progress) :
    (perform operation).run progress =
      match operation.run progress.session with
      | (outcome, session) => (outcome, { progress with session := session }) := rfl

theorem ask_run (question : Disk → α) (session : Session) :
    (Operation.ask question).run session = (.ok (question session.disk), session) := rfl

theorem say_run (line : String) (session : Session) :
    (Operation.say line).run session =
      match Console.showMarkup line with
      | .ok text => (.ok (), { session with shown := session.shown ++ [.text (text ++ "\n")] })
      | .error fault => (.error (.markup fault), session) := by
  unfold Operation.say
  cases Console.showMarkup line <;> rfl

/-- A relation between states is one between their sessions, and no matter of the warnings that are given. -/
structure Lifts (sessions : Session → Session → Prop) (states : Progress → Progress → Prop) : Prop where
  session : ∀ {before : Progress} {session : Session}, sessions before.session session →
    states before { before with session := session }
  result : ∀ {before : Progress} {result : Result}, (∃ notes, result.warnings = before.result.warnings ++ notes) →
    result.removed = before.result.removed → states before { before with result := result }
  disk : ∀ {before after : Session}, after.disk = before.disk → sessions before after

/-- A relation between sessions, as one between the states of a removal. -/
def BySession (sessions : Session → Session → Prop) (before after : Progress) : Prop := sessions before.session after.session

instance [Std.Refl sessions] : Std.Refl (BySession sessions) where
  refl progress := Std.Refl.refl (r := sessions) progress.session

instance [Trans sessions sessions sessions] : Trans (BySession sessions) (BySession sessions) (BySession sessions) where
  trans first second := Trans.trans (r := sessions) (s := sessions) (t := sessions) first second

theorem lifts_bySession [Std.Refl sessions] (disk : ∀ {before after : Session}, after.disk = before.disk → sessions before after) :
    Lifts sessions (BySession sessions) where
  session related := related
  result _ _ := Std.Refl.refl (r := sessions) _
  disk := disk

/-- A change of the manifest relates the states before and after it. -/
def Allows (states : Progress → Progress → Prop) (change : Manifest → Manifest) : Prop :=
  ∀ before, states before { before with manifest := before.manifest.map change }

namespace Stateful

theorem Keeps.of_same {σ : Type} {operation : Stateful σ α} {relation : σ → σ → Prop} [Std.Refl relation]
    (same : ∀ state, (operation.run state).2 = state) : Keeps operation relation := by
  intro state outcome next ran
  obtain rfl : next = state := by
    rw [← same state, ran]
  exact Std.Refl.refl next

/-- The second operation is related for what the first one can yield. -/
theorem Keeps.bind_of {σ : Type} {first : Stateful σ α} {second : α → Stateful σ β} {relation : σ → σ → Prop}
    [Trans relation relation relation] (begins : Keeps first relation)
    (goesOn : ∀ state value next, first.run state = (.ok value, next) → Keeps (second value) relation) :
    Keeps (first >>= second) relation := by
  intro state outcome next ran
  rw [bind_run] at ran
  rcases middle : first.run state with ⟨failed | value, reached⟩
  · rw [middle] at ran
    cases ran
    exact begins state _ next middle
  · rw [middle] at ran
    exact Trans.trans (begins state _ reached middle) (goesOn state value reached middle reached outcome next ran)

end Stateful

section Sessions

theorem keeps_ask [Std.Refl sessions] (question : Disk → α) : Keeps (Operation.ask question) sessions :=
  .of_same fun _ => rfl

variable (disk : ∀ {before after : Session}, after.disk = before.disk → sessions before after)

include disk

theorem keeps_say (line : String) : Keeps (Operation.say line) sessions := by
  intro session outcome next ran
  rw [say_run] at ran
  split at ran <;> cases ran <;> exact disk rfl

variable [Std.Refl sessions] [Trans sessions sessions sessions]

theorem keeps_convertFiles {paths : List Path} (each : ∀ path ∈ paths, Keeps (convertFile path) sessions) :
    Keeps (convertFiles paths) sessions := by
  induction paths with
  | nil => exact .pure _
  | cons path later converted =>
    obtain ⟨own, others⟩ := List.forall_mem_cons.mp each
    refine .bind (.tryCatch (.bind own fun _ => .pure _) fun failure => ?_) fun outcome => ?_
    · split
      · exact .pure _
      · exact .throw _
    · cases outcome with
      | ok target => exact .bind (converted others) fun _ => .pure _
      | error message => exact .bind (keeps_say disk _) fun _ => .bind (converted others) fun _ => .pure _

end Sessions

section States

theorem keeps_changeManifest {change : Manifest → Manifest} (allows : Allows states change) :
    Keeps (changeManifest change) states :=
  .modify allows

theorem keeps_forEach [Std.Refl states] [Trans states states states] {items : List α} {step : α → Processing Unit}
    (each : ∀ item ∈ items, Keeps (step item) states) : Keeps (forEach step items) states := by
  induction items with
  | nil => exact .pure ()
  | cons item later kept =>
    obtain ⟨own, others⟩ := List.forall_mem_cons.mp each
    exact .bind own fun _ => kept others

/-- What each step brings about and the others keep is there once all steps were carried out. -/
theorem forEach_establishes [Std.Refl states] [Trans states states states] {items : List α} {step : α → Processing Unit}
    (fact : α → Progress → Prop) (each : ∀ item ∈ items, Keeps (step item) states)
    (brings : ∀ item ∈ items, ∀ before after, (step item).run before = (.ok (), after) → fact item after)
    (lasts : ∀ item ∈ items, ∀ before after, fact item before → states before after → fact item after)
    {before after : Progress} (ran : (forEach step items).run before = (.ok (), after)) :
    ∀ item ∈ items, fact item after := by
  induction items generalizing before with
  | nil => exact nofun
  | cons item later establishes =>
    obtain ⟨own, others⟩ := List.forall_mem_cons.mp each
    obtain ⟨bringsOwn, bringsOthers⟩ := List.forall_mem_cons.mp brings
    obtain ⟨lastsOwn, lastsOthers⟩ := List.forall_mem_cons.mp lasts
    rw [forEach, bind_run_eq_ok_iff] at ran
    obtain ⟨⟨⟩, middle, first, rest⟩ := ran
    refine List.forall_mem_cons.mpr ⟨?_, establishes others bringsOthers lastsOthers rest⟩
    exact lastsOwn _ _ (bringsOwn _ _ first) (keeps_forEach others _ _ _ rest)

variable {family : Family} {target : Path} {rule : Rule}

/-- The removal of types but for what it changes in the manifest. -/
def Family.stripFiles (family : Family) (target : Path) : Processing Unit := do
  forEach (fun stem => do forEach convertConfig (← perform (resolve target (stem ++ ".*")))) family.configFiles
  let conversion ← perform (convertTree (target.child "src"))
  addConverted conversion.converted
  forEach (fun failure => addWarning failure.2) conversion.failures
  perform (changeText (target.child "index.html") renameEntry)

theorem Family.stripTypes_eq (family : Family) (target : Path) :
    family.stripTypes target = (do
      changeManifest family.untypeManifest
      family.stripFiles target
      changeManifest family.retainPackages) := by
  simp only [Family.stripTypes, Family.stripFiles, bind_assoc]

/-- What applying a rule does when there are no types to be removed, or after that. -/
def Family.finishRule (family : Family) (target : Path) (rule : Rule) : Processing Unit := do
  changeManifest rule.pruneManifest
  forEach (family.runStep target) rule.edits
  forEach (removeMatches target) rule.paths

theorem Family.applyRule_eq (family : Family) (target : Path) (rule : Rule) :
    family.applyRule target rule =
      if rule.transpile then (do family.stripTypes target; family.finishRule target rule)
      else family.finishRule target rule := by
  unfold Family.applyRule
  split <;> rfl

theorem Family.keeps_finishRule [Trans states states states] (prunes : Allows states rule.pruneManifest)
    (edits : Keeps (forEach (family.runStep target) rule.edits) states)
    (removes : Keeps (forEach (removeMatches target) rule.paths) states) :
    Keeps (family.finishRule target rule) states :=
  .bind (keeps_changeManifest prunes) fun _ => .bind edits fun _ => removes

theorem Family.keeps_stripTypes [Trans states states states] (untypes : Allows states family.untypeManifest)
    (retains : Allows states family.retainPackages) (files : Keeps (family.stripFiles target) states) :
    Keeps (family.stripTypes target) states := by
  rw [stripTypes_eq]
  exact .bind (keeps_changeManifest untypes) fun _ => .bind files fun _ => keeps_changeManifest retains

theorem Family.keeps_applyRule [Trans states states states]
    (strips : rule.transpile = true → Keeps (family.stripTypes target) states)
    (finishes : Keeps (family.finishRule target rule) states) : Keeps (family.applyRule target rule) states := by
  rw [applyRule_eq]
  split
  · next transpile => exact .bind (strips transpile) fun _ => finishes
  · exact finishes

variable (lifts : Lifts sessions states)

include lifts

theorem keeps_perform {operation : Operation α} (keeps : Keeps operation sessions) : Keeps (perform operation) states := by
  intro progress outcome next ran
  rw [perform_run] at ran
  cases ran
  exact lifts.session (keeps progress.session _ _ rfl)

theorem keeps_addWarning (message : String) : Keeps (addWarning message) states :=
  .modify fun _ => lifts.result ⟨[message], rfl⟩ rfl

theorem keeps_addConverted (paths : List Path) : Keeps (addConverted paths) states :=
  .modify fun _ => lifts.result ⟨[], by simp⟩ rfl

theorem keeps_warn [Trans states states states] (message : String) : Keeps (warn message) states :=
  .bind (keeps_perform lifts (keeps_say lifts.disk _)) fun _ => keeps_addWarning lifts message

variable [Std.Refl states] [Trans states states states]

theorem keeps_resolve [Std.Refl sessions] (root : Path) (target : String) {step : Path → Processing Unit}
    (each : ∀ path ∈ candidates root target, Keeps (step path) states) :
    Keeps (do forEach step (← perform (resolve root target))) states := by
  refine .bind_of (keeps_perform lifts (keeps_ask _)) fun state paths next ran => keeps_forEach fun path mem => ?_
  cases ran
  exact each path (List.mem_filter.mp mem).1

/-- What a step brings about at each path that is there, and what is so at the others, is so in the end. -/
theorem resolve_establishes [Std.Refl sessions] {root : Path} {target : String} {step : Path → Processing Unit}
    (fact : Path → Progress → Prop) (each : ∀ path ∈ candidates root target, Keeps (step path) states)
    (brings : ∀ path ∈ candidates root target, ∀ before after, (step path).run before = (.ok (), after) → fact path after)
    (lasts : ∀ path ∈ candidates root target, ∀ before after, fact path before → states before after → fact path after)
    (absent : ∀ path ∈ candidates root target, ∀ before after, before.session.disk.contains path = false →
      states before after → fact path after)
    {before after : Progress} (ran : (do forEach step (← perform (resolve root target))).run before = (.ok (), after)) :
    ∀ path ∈ candidates root target, fact path after := by
  intro path held
  have whole := keeps_resolve lifts root target each _ _ _ ran
  obtain ⟨paths, middle, resolved, done⟩ := bind_run_eq_ok_iff.mp ran
  cases resolved
  by_cases there : before.session.disk.contains path = true
  · have own {path : Path} (mem : path ∈ (candidates root target).filter before.session.disk.contains) :
        path ∈ candidates root target := (List.mem_filter.mp mem).1
    exact forEach_establishes fact (fun path mem => each path (own mem)) (fun path mem => brings path (own mem))
      (fun path mem => lasts path (own mem)) done path (List.mem_filter.mpr ⟨held, there⟩)
  · exact absent path held before after (Bool.eq_false_iff.mpr there) whole

theorem keeps_convertConfig {path : Path} (converts : isConvertible path = true → Keeps (convertFile path) sessions) :
    Keeps (convertConfig path) states := by
  unfold convertConfig
  split
  · next convertible =>
    refine .bind (.tryCatch ?_ fun failure => ?_) fun outcome => ?_
    · exact .bind (keeps_perform lifts (converts convertible)) fun _ => .pure _
    · split
      · exact .pure _
      · exact .throw _
    · cases outcome with
      | ok target => exact keeps_addConverted lifts [target]
      | error message => exact keeps_warn lifts message
  · exact .pure ()

/-- What the removal of types consists of, but for the manifest. -/
theorem Family.keeps_stripFiles [Std.Refl sessions]
    (configs : ∀ stem ∈ family.configFiles, ∀ path ∈ candidates target (stem ++ ".*"), isConvertible path = true →
      Keeps (convertFile path) sessions)
    (tree : Keeps (convertTree (target.child "src")) sessions)
    (page : Keeps (changeText (target.child "index.html") renameEntry) sessions) :
    Keeps (family.stripFiles target) states := by
  refine .bind (keeps_forEach fun stem mem => ?_) fun _ => ?_
  · exact keeps_resolve lifts target (stem ++ ".*") fun path held => keeps_convertConfig lifts (configs stem mem path held)
  · refine .bind (keeps_perform lifts tree) fun conversion => .bind (keeps_addConverted lifts _) fun _ => ?_
    refine .bind (keeps_forEach fun failure _ => keeps_addWarning lifts _) fun _ => ?_
    exact keeps_perform lifts page

theorem Family.keeps_runStep [Std.Refl sessions] {step : EditStep}
    (edits : ∀ action, family.action? step.action = some action → ∀ path ∈ candidates target step.target,
      Keeps (action.run path step.arguments) sessions) :
    Keeps (family.runStep target step) states := by
  unfold Family.runStep
  split
  · exact .throw _
  · next action known =>
    refine keeps_resolve lifts target step.target fun path mem => ?_
    exact .bind (keeps_perform lifts (edits action known path mem)) fun _ => .pure ()

theorem keeps_removeMatches [Std.Refl sessions] {pattern : String}
    (removes : ∀ path ∈ candidates target pattern, Keeps (Operation.removePath path) sessions) :
    Keeps (removeMatches target pattern) states :=
  keeps_resolve lifts target pattern fun path mem => .bind (keeps_perform lifts (removes path mem)) fun _ => .pure ()

/-- What is so of applying the rule of a feature is so of removing it. -/
theorem Family.keeps_removeFeature {name : String}
    (applies : ∀ rule, family.rule? name = some rule → Keeps (family.applyRule target rule) states)
    (lists : ∀ before, states before
      { before with result := { before.result with removed := before.result.removed ++ [name] } }) :
    Keeps (family.removeFeature target name) states := by
  unfold Family.removeFeature
  split
  · exact .pure ()
  · next rule found =>
    refine .bind (.tryCatch (.bind (applies rule found) fun _ => .pure _) fun failure => ?_) fun outcome => ?_
    · split
      · exact .pure _
      · exact .throw _
    · cases outcome with
      | none => exact .modify lists
      | some failure => exact keeps_warn lifts _

end States

end Scaffold.Project
