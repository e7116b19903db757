import Scaffold.Proofs.Project.Resting

/-! # Running a removal again

A removal that is run on its own result finds nothing in the manifest, at the paths, in the page and in the sources. So
it changes no file but those with which an edit still has something to do, as long as no configuration file has become
one that can lose its types, and what failed fails again.
-/

namespace Scaffold.Project

open Scaffold.Text Scaffold.Files Scaffold.Json Stateful Processing Manifest

variable {family : Family} {target path : Path} {rule : Rule} {disk : Disk} {given : Option Manifest}
variable {before after : Progress} {name : String} {selection : Selection} {origin : Disk} {footprint : Location → Prop}

/-! ## Removals that go on -/

/-- The disk of a removal remains near an origin, and the manifest is the one that is given. -/
def StillNear (origin : Disk) (footprint : Location → Prop) (given : Option Manifest) (before after : Progress) : Prop :=
  IsNear origin footprint before.session.disk ∧ before.manifest = given →
    IsNear origin footprint after.session.disk ∧ after.manifest = given

instance : Std.Refl (StillNear origin footprint given) where
  refl _ := id

instance : Trans (StillNear origin footprint given) (StillNear origin footprint given) (StillNear origin footprint given) where
  trans first second := second ∘ first

theorem lifts_stillNear : Lifts (StaysNear origin footprint) (StillNear origin footprint given) where
  session stays := fun ⟨near, held⟩ => ⟨stays near, held⟩
  result _ _ := id
  disk := staysNear_of_eq

theorem allows_stillNear {change : Manifest → Manifest} (same : ∀ manifest, given = some manifest → change manifest = manifest) :
    Allows (StillNear origin footprint given) change := by
  rintro before ⟨near, rfl⟩
  exact ⟨near, map_eq_self_iff.mpr same⟩

theorem lifts_bySession_staysNear : Lifts (StaysNear origin footprint) (BySession (StaysNear origin footprint)) :=
  lifts_bySession staysNear_of_eq

/-- An edit of a feature that is off has something to do with the file at a location. -/
inductive Family.Unsettled (family : Family) (target : Path) (selection : Selection) (disk : Disk) : Location → Prop
  | edit {name : String} {rule : Rule} {step : EditStep} {action : Action} {path : Path} {location : Location}
      (off : name ∈ removalOrder family.features selection) (found : family.rule? name = some rule) (mem : step ∈ rule.edits)
      (known : family.action? step.action = some action) (candidate : path ∈ candidates target step.target)
      (located : disk.locate path = .ok location) (busy : ¬ IsIdle (action.run path step.arguments) disk) :
      Unsettled family target selection disk location

/-- An edit of a rule fails at a file with which no edit has anything to do. -/
def Family.FailsAgain (family : Family) (target : Path) (selection : Selection) (rule : Rule) (disk : Disk) : Prop :=
  ∃ step ∈ rule.edits, ∃ action, family.action? step.action = some action ∧ ∃ path ∈ candidates target step.target,
    (∀ location, disk.locate path = .ok location → ¬ family.Unsettled target selection disk location) ∧
      ∃ failure next, (action.run path step.arguments).run ⟨disk, [], []⟩ = (.error failure, next)

section Edits

variable (off : name ∈ removalOrder family.features selection) (found : family.rule? name = some rule)

include off found

theorem Family.staysNear_edit {step : EditStep} (mem : step ∈ rule.edits) {action : Action}
    (known : family.action? step.action = some action) (held : path ∈ candidates target step.target) :
    Keeps (action.run path step.arguments) (StaysNear origin (family.Unsettled target selection origin)) := by
  refine staysNear_action action step.arguments fun location located => ?_
  by_cases idle : IsIdle (action.run path step.arguments) origin
  · exact .inr idle
  · exact .inl (.edit off found mem known held located idle)

theorem Family.stillNear_edits :
    Keeps (forEach (family.runStep target) rule.edits) (StillNear origin (family.Unsettled target selection origin) given) :=
  keeps_forEach fun _ mem => keeps_runStep lifts_stillNear fun _ known _ held => staysNear_edit off found mem known held

/-- An edit that fails on the origin fails near it, and the edits of its rule with it. -/
theorem Family.FailsAgain.fails (again : family.FailsAgain target selection rule origin) {before : Progress}
    (near : IsNear origin (family.Unsettled target selection origin) before.session.disk) :
    ∃ failure after, (forEach (family.runStep target) rule.edits).run before = (.error failure, after) := by
  obtain ⟨step, mem, action, known, path, held, settled, fails⟩ := again
  obtain ⟨effect, acts⟩ := exists_actsBy action path step.arguments
  obtain ⟨content, read, failsAt⟩ := acts.run_of_fails fails
  obtain ⟨location, located, file⟩ := Disk.read_eq_ok_iff.mp read
  have edits {step : EditStep} (mem : step ∈ rule.edits) :
      Keeps (family.runStep target step) (BySession (StaysNear origin (family.Unsettled target selection origin))) :=
    keeps_runStep lifts_bySession_staysNear fun action known path held => staysNear_edit off found mem known held
  have each (path : Path) (held : path ∈ candidates target step.target) :
      Keeps (do let _ ← perform (action.run path step.arguments))
        (BySession (StaysNear origin (family.Unsettled target selection origin))) :=
    .bind (keeps_perform lifts_bySession_staysNear (staysNear_edit off found mem known held)) fun _ => .pure ()
  refine forEach_fails (fun step => edits) mem (fun before near => ?_) near
  unfold runStep
  rw [known]
  refine resolve_fails each held ?_ (fun before near => ?_) near
  · rw [IsNear.contains_eq near]
    exact Disk.contains_eq_true_iff.mpr ⟨location, _, located, file⟩
  · obtain ⟨failure, failed⟩ := failsAt before.session ((IsNear.read_eq near located (settled location located)).trans read)
    refine ⟨failure, before, ?_⟩
    rw [bind_run, perform_run, failed]

/-- Finishing a rule again touches unsettled files only: nothing is left at its paths, or its edits fail again. -/
theorem Family.stillNear_finishRule (loaded : IsLoadedFrom target origin given)
    (pruned : ∀ data, Holds origin (target.child fileName) (.object data) → rule.Pruned data)
    (ends : rule.Cleared target origin ∨ family.FailsAgain target selection rule origin) :
    Keeps (family.finishRule target rule) (StillNear origin (family.Unsettled target selection origin) given) := by
  have prunes : Allows (StillNear origin (family.Unsettled target selection origin) given) rule.pruneManifest :=
    allows_stillNear (loaded.change_eq fun data held => Rule.pruneManifest_of_pruned held.nodup (pruned data held))
  have edits : Keeps (forEach (family.runStep target) rule.edits)
      (StillNear origin (family.Unsettled target selection origin) given) := stillNear_edits off found
  rcases ends with cleared | again
  · refine keeps_finishRule prunes edits (keeps_forEach fun pattern mem => ?_)
    exact keeps_removeMatches lifts_stillNear fun path held => staysNear_removePath (cleared pattern mem path held)
  · intro before outcome after ran start
    have begun := prunes before start
    rw [finishRule, bind_run, changeManifest_run] at ran
    dsimp only at ran
    obtain ⟨failure, stopped, failed⟩ := again.fails off found begun.1
    rw [bind_run, failed] at ran
    cases ran
    exact edits _ _ _ failed begun

end Edits

/-! ## A whole removal -/

/-- What became of a feature that is off, so that the same becomes of it on a second removal: it was removed, or an edit
of its rule fails again, or the removal of types halts again. An edit of the rule that removes types does so only where
the types were removed from the files before. -/
inductive Family.Recurs (family : Family) (target : Path) (selection : Selection) (removed : List String) (first last : Disk)
    (name : String) (rule : Rule) : Prop
  | removed (mem : name ∈ removed) : Recurs family target selection removed first last name rule
  | fails (strips : rule.transpile = true → ∀ before : Progress, before.session.disk = first → family.Strips target before)
      (again : family.FailsAgain target selection rule last) : Recurs family target selection removed first last name rule
  | halts (transpile : rule.transpile = true) (again : family.StillHalts target last) :
      Recurs family target selection removed first last name rule

/-- What a second removal needs to find: the same becomes of every feature that is off, and where one of them removes
types, no configuration file is there that would be converted. -/
def Family.Concludes (family : Family) (target : Path) (selection : Selection) (removed : List String) (first last : Disk) :
    Prop :=
  ∀ name ∈ removalOrder family.features selection, ∀ rule, family.rule? name = some rule →
    (rule.transpile = true → family.HasPlainConfigs target last) ∧
      family.Recurs target selection removed first last name rule

theorem isLoadedFrom_of_loadManifest {session : Session} {loaded : Progress}
    (load : (loadManifest target).run (family.start target session none) = (.ok (), loaded)) :
    IsLoadedFrom target session.disk loaded.manifest :=
  loadManifest_manifest load rfl

/-- A manifest that was loaded is as it is stored, so saving it does nothing. -/
theorem saveManifest_run_of_loaded (loaded : IsLoadedFrom target disk before.manifest) :
    saveManifest.run before = (.ok (), before) := by
  rw [saveManifest_run]
  split
  · rfl
  · next manifest held =>
    obtain ⟨data, -, rfl⟩ := loaded manifest held
    exact if_neg fun dirty => (of_decide_eq_true dirty : _ ≠ _) rfl

/-- What applying the rule of a feature leaves near an origin, removing the feature does. -/
theorem near_removeFeature {outcome : Except Failure Unit} (near : IsNear origin footprint before.session.disk ∧ before.manifest = given)
    (applies : ∀ rule, family.rule? name = some rule → ∀ outcome after,
      (family.applyRule target rule).run before = (outcome, after) →
        IsNear origin footprint after.session.disk ∧ after.manifest = given)
    (ran : (family.removeFeature target name).run before = (outcome, after)) :
    IsNear origin footprint after.session.disk ∧ after.manifest = given := by
  cases found : family.rule? name with
  | none =>
    rw [removeFeature_run_of_missing found] at ran
    cases ran
    exact near
  | some rule =>
    rw [removeFeature_run_of_rule found] at ran
    rcases applied : (family.applyRule target rule).run before with ⟨failure | value, stopped⟩
    · have stays := applies rule found _ _ applied
      rw [applied] at ran
      dsimp only at ran
      split at ran
      · rw [warn_run] at ran
        split at ran <;> cases ran <;> exact stays
      · cases ran
        exact stays
    · have stays := applies rule found _ _ applied
      rw [applied] at ran
      cases ran
      exact stays

/-- What is known of a feature after a first removal, and is needed for a second one. -/
inductive Family.IsDone (family : Family) (target : Path) (selection : Selection) (rule : Rule) (disk : Disk) : Prop
  | finished (configs : rule.transpile = true → family.HasPlainConfigs target disk) (shorn : family.IsShorn target rule disk)
      (ends : rule.Cleared target disk ∨ family.FailsAgain target selection rule disk) : IsDone family target selection rule disk
  | halted (transpile : rule.transpile = true) (configs : family.HasPlainConfigs target disk)
      (untyped : ∀ data, Holds disk (target.child fileName) (.object data) → family.IsUntyped data)
      (halts : family.StillHalts target disk) : IsDone family target selection rule disk

theorem Family.IsDone.stillNear (done : family.IsDone target selection rule origin)
    (off : name ∈ removalOrder family.features selection) (found : family.rule? name = some rule)
    (plain : rule.transpile = false) (loaded : IsLoadedFrom target origin given) :
    Keeps (family.applyRule target rule) (StillNear origin (family.Unsettled target selection origin) given) := by
  rw [applyRule_eq, if_neg (by rw [plain]; decide)]
  cases done with
  | finished _ shorn ends => exact stillNear_finishRule off found loaded shorn.pruned ends
  | halted transpile =>
    rw [plain] at transpile
    cases transpile

/-- The removal of types does nothing before the edits of its rule. -/
theorem Family.IsDone.near_applyRule (done : family.IsDone target selection rule origin)
    (off : name ∈ removalOrder family.features selection) (found : family.rule? name = some rule)
    (loaded : IsLoadedFrom target origin given) (here : before.session.disk = origin ∧ before.manifest = given)
    {outcome : Except Failure Unit} (ran : (family.applyRule target rule).run before = (outcome, after)) :
    IsNear origin (family.Unsettled target selection origin) after.session.disk ∧ after.manifest = given := by
  have near {progress : Progress} (here : progress.session.disk = origin ∧ progress.manifest = given) :
      IsNear origin (family.Unsettled target selection origin) progress.session.disk ∧ progress.manifest = given :=
    ⟨here.1 ▸ .refl _ _, here.2⟩
  cases transpile : rule.transpile with
  | false => exact done.stillNear off found transpile loaded _ _ _ ran (near here)
  | true =>
    rw [applyRule_eq, if_pos transpile, bind_run] at ran
    cases done with
    | finished configs shorn ends =>
      have strips := shorn.still_stripTypes transpile (configs transpile) loaded
      rcases stripped : (family.stripTypes target).run before with ⟨failure | value, middle⟩
      all_goals rw [stripped] at ran
      · cases ran
        exact near (strips _ _ _ stripped here)
      · exact stillNear_finishRule off found loaded shorn.pruned ends _ _ _ ran (near (strips _ _ _ stripped here))
    | halted _ configs untyped halts =>
      obtain ⟨failure, middle, failed, still⟩ := halts.stripTypes_fails configs untyped loaded here
      rw [failed] at ran
      cases ran
      exact near still

/-- Where every feature that is off is done with, removing them touches unsettled files only. -/
theorem Family.near_removeFeatures (tidy : family.IsTidy)
    (done : ∀ name ∈ removalOrder family.features selection, ∀ rule, family.rule? name = some rule →
      family.IsDone target selection rule origin)
    (loaded : IsLoadedFrom target origin given) (here : before.session.disk = origin ∧ before.manifest = given)
    {outcome : Except Failure Unit} (ran : (family.removeFeatures target selection).run before = (outcome, after)) :
    IsNear origin (family.Unsettled target selection origin) after.session.disk ∧ after.manifest = given := by
  have near : IsNear origin (family.Unsettled target selection origin) before.session.disk ∧ before.manifest = given :=
    ⟨here.1 ▸ .refl _ _, here.2⟩
  have plainFeatures {names : List String} (off : ∀ name ∈ names, name ∈ removalOrder family.features selection)
      (plain : typesFeature ∉ names) : Keeps (forEach (family.removeFeature target) names)
        (StillNear origin (family.Unsettled target selection origin) given) := by
    refine keeps_forEach fun name mem => keeps_removeFeature lifts_stillNear (fun rule found => ?_) fun _ => id
    refine (done name (off name mem) rule found).stillNear (off name mem) found ?_ loaded
    refine Bool.eq_false_iff.mpr fun transpile => plain ?_
    exact (tidy.transpile _ (mem_of_rule? found)).mp transpile ▸ mem
  obtain ⟨-, plain | ⟨others, eq, plain⟩⟩ := typesFirst_removalOrder tidy.features selection
  · exact plainFeatures (fun _ => id) plain _ _ _ ran near
  · have off : typesFeature ∈ removalOrder family.features selection := eq ▸ List.mem_cons_self
    have offLater : ∀ name ∈ others, name ∈ removalOrder family.features selection := fun name mem =>
      eq ▸ List.mem_cons_of_mem _ mem
    rw [removeFeatures, eq, forEach_run] at ran
    rcases first : (family.removeFeature target typesFeature).run before with ⟨failure | value, middle⟩
    · rw [first] at ran
      cases ran
      exact near_removeFeature near (fun rule found _ _ => (done _ off rule found).near_applyRule off found loaded here) first
    · rw [first] at ran
      refine plainFeatures offLater plain _ _ _ ran ?_
      exact near_removeFeature near (fun rule found _ _ => (done _ off rule found).near_applyRule off found loaded here) first

/-- A removal that is run on its own result makes and removes no file, and changes no file but those with which an edit
of a feature that is off still has something to do. -/
theorem Family.second_removal_keeps_files {session final again : Session} {result : Result} (packaged : family ∈ families)
    (tree : session.disk.IsTree) (ran : (family.processProject target selection).run session = (.ok result, final))
    (concludes : family.Concludes target selection result.removed session.disk final.disk) (same : again.disk = final.disk) :
    Disk.SameShape ((family.processProject target selection).run again).2.disk final.disk ∧
      ∀ location, ¬ family.Unsettled target selection final.disk location →
        Disk.entry? ((family.processProject target selection).run again).2.disk location = final.disk.entry? location := by
  have tidy := isTidy_of_mem packaged
  have done : ∀ name ∈ removalOrder family.features selection, ∀ rule, family.rule? name = some rule →
      family.IsDone target selection rule final.disk := by
    intro name off rule found
    have leaves := leaves_of_processProject packaged tree ran found off
    obtain ⟨configs, recurs⟩ := concludes name off rule found
    cases recurs with
    | removed mem =>
      obtain ⟨shorn, cleared⟩ := leaves.rid mem
      exact .finished configs shorn (.inl cleared)
    | fails strips again => exact .finished configs (leaves.shorn strips) (.inr again)
    | halts transpile again => exact .halted transpile (configs transpile) (leaves.untyped transpile) again
  suffices near : IsNear final.disk (family.Unsettled target selection final.disk)
      ((family.processProject target selection).run again).2.disk from ⟨near.shape, near.outside⟩
  rw [processProject_run]
  rcases load : (loadManifest target).run (family.start target again none) with ⟨failure | value, loaded⟩
  · exact ((disk_loadManifest load).trans same).symm ▸ .refl _ _
  · dsimp only
    have here : loaded.session.disk = final.disk := (disk_loadManifest load).trans same
    have held : IsLoadedFrom target final.disk loaded.manifest := same ▸ isLoadedFrom_of_loadManifest load
    rcases removal : (family.removeFeatures target selection).run loaded with ⟨failure | value, last⟩
    · exact (near_removeFeatures tidy done held ⟨here, rfl⟩ removal).1
    · obtain ⟨near, kept⟩ := near_removeFeatures tidy done held ⟨here, rfl⟩ removal
      rw [← kept] at held
      dsimp only
      rw [saveManifest_run_of_loaded held]
      exact near

/-! ## A plugin that is listed twice

Of two entries side by side the second one is left, so it takes two removals to be rid of both.
-/

open Scaffold.Syntax

theorem removeImport_of_none {source : Bytes} {moduleName : String} {tree : Tree}
    (none_ : Edit.importEdits source moduleName tree = []) : Edit.removeImport source moduleName tree = source := by
  rw [Edit.removeImport, none_, applyEdits, List.mergeSort_nil]
  rfl

/-- A step with one file carries out its action there. -/
theorem runStep_run_of_single {step : EditStep} {action : Action} {session : Session}
    (known : family.action? step.action = some action)
    (only : (candidates target step.target).filter before.session.disk.contains = [path])
    (ran : ∃ done, (action.run path step.arguments).run before.session = (.ok done, session)) :
    (family.runStep target step).run before = (.ok (), { before with session := session }) := by
  obtain ⟨done, ran⟩ := ran
  unfold Family.runStep
  rw [known]
  dsimp only
  rw [bind_run, perform_run, resolve, ask_run]
  dsimp only
  rw [only, forEach_run, bind_run, perform_run, ran]
  rfl

/-- All features but the support of markup. -/
def withoutMarkup : Selection := (Selection.default vue3.features).set "jsx" false

def projectRoot : Path := ⟨false, []⟩

def configPath : Path := ⟨false, ["vite.config.js"]⟩

/-- A project that consists of a configuration file. -/
def configured (content : Bytes) : Session := ⟨⟨[], [(["vite.config.js"], .file content)]⟩, [], []⟩

private theorem removalOrder_withoutMarkup : removalOrder vue3.features withoutMarkup = ["jsx"] := by
  decide +kernel

/-- What the removal of markup does to a configuration file without its import. -/
theorem markup_is_removed {content new : Bytes} {tree : Tree} {text : List Char} (decoded : decode content = .ok text)
    (parsed : Dialect.plain.parse content = .ok tree)
    (imports : Edit.importEdits content "@vitejs/plugin-vue-jsx" tree = [])
    (entries : Edit.removeEntries content (.plugin "vueJsx") tree = new) (differs : new ≠ content) :
    ∃ result, (vue3.processProject projectRoot withoutMarkup).run (configured content) = (.ok result, configured new) ∧
      result.removed = ["jsx"] := by
  obtain ⟨rule, found, edits, paths, plain⟩ : ∃ rule, vue3.rule? "jsx" = some rule ∧
      rule.edits = [importStep viteConfig "@vitejs/plugin-vue-jsx", pluginStep viteConfig "vueJsx"] ∧ rule.paths = [] ∧
      rule.transpile = false := ⟨_, rfl, rfl, rfl, rfl⟩
  have load : (loadManifest projectRoot).run (vue3.start projectRoot (configured content) none) =
      (.ok (), vue3.start projectRoot (configured content) none) := rfl
  have only : (candidates projectRoot viteConfig).filter (configured content).disk.contains = [configPath] := rfl
  have read : (configured content).disk.read configPath = .ok content := rfl
  have dialect : dialectOf configPath = .plain := rfl
  have first : (vue3.runStep projectRoot (importStep viteConfig "@vitejs/plugin-vue-jsx")).run
      (vue3.start projectRoot (configured content) none) = (.ok (), vue3.start projectRoot (configured content) none) := by
    refine runStep_run_of_single (by rfl : _ = some Action.removeImport) only ⟨false, ?_⟩
    change (removeImport configPath "@vitejs/plugin-vue-jsx").run (configured content) = _
    rw [removeImport, editTree_run, read]
    dsimp only
    rw [decoded]
    dsimp only
    rw [dialect, parsed]
    dsimp only
    rw [removeImport_of_none imports, writeChanged_run_self]
  have second : (vue3.runStep projectRoot (pluginStep viteConfig "vueJsx")).run
      (vue3.start projectRoot (configured content) none) = (.ok (), vue3.start projectRoot (configured new) none) := by
    refine runStep_run_of_single (by rfl : _ = some Action.removePlugin) only ⟨true, ?_⟩
    change (removeEntries configPath (.plugin "vueJsx")).run (configured content) = _
    rw [removeEntries, editEither_run, read]
    dsimp only
    rw [decoded]
    dsimp only
    rw [dialect, parsed]
    dsimp only
    rw [entries, writeChanged, if_neg differs]
    rfl
  have applied : (vue3.applyRule projectRoot rule).run (vue3.start projectRoot (configured content) none) =
      (.ok (), vue3.start projectRoot (configured new) none) := by
    have prunes : (changeManifest rule.pruneManifest).run (vue3.start projectRoot (configured content) none) =
        (.ok (), vue3.start projectRoot (configured content) none) := rfl
    rw [Family.applyRule_eq, if_neg (by rw [plain]; decide), Family.finishRule, bind_run, prunes]
    dsimp only
    rw [edits, paths, bind_run, forEach_run, first]
    dsimp only
    rw [forEach_run, second]
    rfl
  have removed : (vue3.removeFeatures projectRoot withoutMarkup).run (vue3.start projectRoot (configured content) none) =
      (.ok (), { vue3.start projectRoot (configured new) none with
        result := { Result.start projectRoot vue3.name with removed := ["jsx"] } }) := by
    rw [Family.removeFeatures, removalOrder_withoutMarkup, forEach_run, removeFeature_run_of_rule found, applied]
    rfl
  rw [processProject_run, load]
  dsimp only
  rw [removed]
  exact ⟨_, rfl, rfl⟩

/-- A call of the plugin without arguments at an offset. -/
def pluginTree (start : Nat) : Tree :=
  .node .callExpression none start (start + 8)
    [.node .identifier (some .function) start (start + 6) [],
      .node .arguments (some .arguments) (start + 6) (start + 8)
        [.node (.token "(") none (start + 6) (start + 7) [], .node (.token ")") none (start + 7) (start + 8) []]]

/-- The file of an array from its beginning up to an offset. -/
def pluginFile (inner : List Tree) (stop : Nat) : Tree :=
  .node .program none 0 (stop + 1) [.node .expressionStatement none 0 stop
    [.node .array none 0 stop (.node (.token "[") none 0 1 [] :: (inner ++ [.node (.token "]") none (stop - 1) stop []]))]]

def listedTwice : Bytes := encode "[vueJsx(), vueJsx()]\n"
def listedOnce : Bytes := encode "[vueJsx()]\n"
def listedNever : Bytes := encode "[]\n"

def twiceTree : Tree := pluginFile [pluginTree 1, .node (.token ",") none 9 10 [], pluginTree 11] 20

def onceTree : Tree := pluginFile [pluginTree 1] 10

private theorem sorted_twiceEdits :
    (Edit.entryEdits listedTwice (.plugin "vueJsx") twiceTree).mergeSort Edit.before = [.removal 1 11, .removal 9 19] := by
  have edits : Edit.entryEdits listedTwice (.plugin "vueJsx") twiceTree = [.removal 1 11, .removal 9 19] := by decide +kernel
  rw [edits]
  simp [List.mergeSort, List.MergeSort.Internal.splitInTwo, Edit.before, Edit.removal]

private theorem removeEntries_listedTwice : Edit.removeEntries listedTwice (.plugin "vueJsx") twiceTree = listedOnce := by
  have some_ : (Edit.entryEdits listedTwice (.plugin "vueJsx") twiceTree).isEmpty = false := by decide +kernel
  rw [Edit.removeEntries, some_, if_neg Bool.false_ne_true, applyEdits, sorted_twiceEdits]
  decide +kernel

private theorem removeEntries_listedOnce : Edit.removeEntries listedOnce (.plugin "vueJsx") onceTree = listedNever := by
  have edits : Edit.entryEdits listedOnce (.plugin "vueJsx") onceTree = [.removal 1 9] := by decide +kernel
  rw [Edit.removeEntries, edits, applyEdits, List.mergeSort_singleton]
  decide +kernel

private theorem markup_is_removed_once : ∃ result, (vue3.processProject projectRoot withoutMarkup).run (configured listedTwice) =
    (.ok result, configured listedOnce) ∧ result.removed = ["jsx"] := by
  have decoded : decode listedTwice = .ok "[vueJsx(), vueJsx()]\n".toList := by decide +kernel
  exact markup_is_removed decoded (by decide +kernel : _ = Except.ok twiceTree) (by decide +kernel) removeEntries_listedTwice
    (by decide)

/-- The first removal leaves an entry, so the configuration file is unsettled; all else stays as it is. -/
theorem listed_markup_is_removed_again :
    (configured listedTwice).disk.IsTree ∧ ∃ result, (vue3.processProject projectRoot withoutMarkup).run (configured listedTwice) =
        (.ok result, configured listedOnce) ∧
      vue3.Concludes projectRoot withoutMarkup result.removed (configured listedTwice).disk (configured listedOnce).disk ∧
      Disk.SameShape ((vue3.processProject projectRoot withoutMarkup).run (configured listedOnce)).2.disk
        (configured listedOnce).disk ∧
      ∀ location, ¬ vue3.Unsettled projectRoot withoutMarkup (configured listedOnce).disk location →
        Disk.entry? ((vue3.processProject projectRoot withoutMarkup).run (configured listedOnce)).2.disk location =
          (configured listedOnce).disk.entry? location := by
  have tree : (configured listedTwice).disk.IsTree := by decide
  obtain ⟨result, ran, removed⟩ := markup_is_removed_once
  have concludes : vue3.Concludes projectRoot withoutMarkup result.removed (configured listedTwice).disk
      (configured listedOnce).disk := by
    intro name off rule found
    rw [removalOrder_withoutMarkup] at off
    obtain rfl := List.mem_singleton.mp off
    rw [removed]
    refine ⟨fun transpile => ?_, .removed List.mem_cons_self⟩
    cases found
    cases transpile
  exact ⟨tree, result, ran, concludes, Family.second_removal_keeps_files (by decide) tree ran concludes rfl⟩

/-- The second removal changes the configuration file. -/
theorem second_removal_changes_config :
    ∃ first second, (vue3.processProject projectRoot withoutMarkup).run (configured listedTwice) = (.ok first, configured listedOnce) ∧
      (vue3.processProject projectRoot withoutMarkup).run (configured listedOnce) = (.ok second, configured listedNever) ∧
      (configured listedNever).disk.read configPath ≠ (configured listedOnce).disk.read configPath := by
  obtain ⟨first, ran, -⟩ := markup_is_removed_once
  have decoded : decode listedOnce = .ok "[vueJsx()]\n".toList := by decide +kernel
  obtain ⟨second, again, -⟩ := markup_is_removed decoded (by decide +kernel : _ = Except.ok onceTree) (by decide +kernel)
    removeEntries_listedOnce (by decide)
  refine ⟨first, second, ran, again, ?_⟩
  change (Except.ok listedNever : Except Trouble Bytes) ≠ .ok listedOnce
  exact fun same => absurd (Except.ok.inj same) (by decide)

end Scaffold.Project
