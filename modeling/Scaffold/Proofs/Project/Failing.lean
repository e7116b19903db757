import Scaffold.Proofs.Project.Loading

/-! # What a failed removal leaves in the manifest

A rule changes the manifest before it edits and removes files, and it takes nothing back when it fails there. So a
feature that could not be removed is missing from the manifest all the same. Only when types cannot be removed from
the files, the keys that the rule names are still there; then the scripts have already been rewritten. The manifest
is as before exactly when there was nothing to change in it.
-/

namespace Scaffold.Project

open Scaffold.Text Scaffold.Files Scaffold.Json Stateful Processing Manifest

variable {family : Family} {target : Path} {rule : Rule} {manifest : Manifest} {before after : Progress}

/-! ## What a rule changes in the manifest -/

/-- All that a rule changes in the manifest. -/
def Family.alterManifest (family : Family) (rule : Rule) (manifest : Manifest) : Manifest :=
  rule.pruneManifest (if rule.transpile then family.retainPackages (family.untypeManifest manifest) else manifest)

/-- The manifest is the same. -/
def SameManifest (before after : Progress) : Prop := after.manifest = before.manifest

instance : Std.Refl SameManifest where
  refl _ := rfl

instance : Trans SameManifest SameManifest SameManifest where
  trans first second := Eq.trans second first

theorem lifts_sameManifest : Lifts AnySessions SameManifest where
  session _ := rfl
  result _ _ := rfl
  disk _ := trivial

theorem Family.sameManifest_stripFiles (family : Family) (target : Path) :
    Keeps (family.stripFiles target) SameManifest :=
  keeps_stripFiles lifts_sameManifest (fun _ _ _ _ _ => keeps_anySessions _) (keeps_anySessions _) (keeps_anySessions _)

theorem changeManifest_run (change : Manifest → Manifest) (before : Progress) :
    (changeManifest change).run before = (.ok (), { before with manifest := before.manifest.map change }) := rfl

/-- The removal of types changes the manifest before it turns to the files; packages are retained after that. -/
theorem Family.manifest_stripTypes {outcome : Except Failure Unit}
    (ran : (family.stripTypes target).run before = (outcome, after)) :
    after.manifest = before.manifest.map (match outcome with
      | .ok () => fun manifest => family.retainPackages (family.untypeManifest manifest)
      | .error _ => family.untypeManifest) := by
  rw [stripTypes_eq, bind_run, changeManifest_run] at ran
  dsimp only at ran
  rw [bind_run] at ran
  rcases strip : (family.stripFiles target).run { before with manifest := before.manifest.map family.untypeManifest }
    with ⟨failure | value, stripped⟩
  · rw [strip] at ran
    cases ran
    exact family.sameManifest_stripFiles target _ _ _ strip
  · rw [strip] at ran
    cases ran
    have same : stripped.manifest = before.manifest.map family.untypeManifest :=
      family.sameManifest_stripFiles target _ _ _ strip
    change stripped.manifest.map family.retainPackages = _
    rw [same, Option.map_map]
    rfl

/-- After the removal of types, if any, a rule changes the manifest first, and nothing else in it. -/
theorem Family.manifest_finishRule {outcome : Except Failure Unit}
    (ran : (family.finishRule target rule).run before = (outcome, after)) :
    after.manifest = before.manifest.map rule.pruneManifest := by
  have rest : Keeps (do forEach (family.runStep target) rule.edits; forEach (removeMatches target) rule.paths) SameManifest :=
    .bind (keeps_forEach fun _ _ => keeps_runStep lifts_sameManifest fun _ _ _ _ => keeps_anySessions _) fun _ =>
      keeps_forEach fun _ _ => keeps_removeMatches lifts_sameManifest fun _ _ => keeps_anySessions _
  unfold finishRule at ran
  rw [bind_run, changeManifest_run] at ran
  exact rest _ _ _ ran

/-- A rule that is applied to its end makes all its changes in the manifest. -/
theorem Family.manifest_applyRule (ran : (family.applyRule target rule).run before = (.ok (), after)) :
    after.manifest = before.manifest.map (family.alterManifest rule) := by
  rw [applyRule_eq] at ran
  unfold alterManifest
  split at ran
  · next transpile =>
    obtain ⟨⟨⟩, stripped, strip, finish⟩ := bind_run_eq_ok_iff.mp ran
    rw [manifest_finishRule finish, manifest_stripTypes strip, Option.map_map]
    simp only [transpile, if_true]
    rfl
  · next plain =>
    rw [manifest_finishRule ran]
    simp only [plain]
    rfl

/-- A rule that fails has not come further than the removal of types, or has made all its changes. -/
theorem Family.manifest_applyRule_of_error {failure : Failure}
    (ran : (family.applyRule target rule).run before = (.error failure, after)) :
    (rule.transpile = true ∧ (family.stripTypes target).run before = (.error failure, after) ∧
        after.manifest = before.manifest.map family.untypeManifest) ∨
      (rule.transpile = true → ∃ stripped, (family.stripTypes target).run before = (.ok (), stripped)) ∧
        after.manifest = before.manifest.map (family.alterManifest rule) := by
  rw [applyRule_eq] at ran
  unfold alterManifest
  split at ran
  · next transpile =>
    rw [bind_run] at ran
    rcases strip : (family.stripTypes target).run before with ⟨cause | value, stripped⟩
    · rw [strip] at ran
      cases ran
      exact .inl ⟨transpile, rfl, manifest_stripTypes strip⟩
    · rw [strip] at ran
      refine .inr ⟨fun _ => ⟨stripped, rfl⟩, ?_⟩
      rw [manifest_finishRule ran, manifest_stripTypes strip, Option.map_map]
      simp only [transpile, if_true]
      rfl
  · next plain =>
    refine .inr ⟨fun transpile => absurd transpile plain, ?_⟩
    rw [manifest_finishRule ran]
    simp only [plain]
    rfl

/-! ## When there is nothing to change -/

/-- No rule of a family takes away the packages that it retains. -/
structure Family.IsRetaining (family : Family) : Prop where
  fresh : ∀ package ∈ family.retainedDependencies, package.1 ∉ family.typeDependencies
  retained : ∀ entry ∈ family.rules, ∀ package ∈ family.retainedDependencies,
    package.1 ∉ entry.2.dependencies ∧ package.1 ∉ entry.2.devDependencies ∧ package.1 ∉ entry.2.scripts

variable (nodup : manifest.data.keys.Nodup)

include nodup

theorem Family.untypeManifest_eq_self_iff (family : Family) :
    family.untypeManifest manifest = manifest ↔
      Lacks manifest.data "devDependencies" family.typeDependencies ∧ Untyped manifest.data := by
  constructor
  · intro same
    have untyped := family.isUntyped_untypeManifest manifest
    rw [same] at untyped
    exact ⟨untyped.lacks, untyped.untyped⟩
  · rintro ⟨lacks, untyped⟩
    exact untypeManifest_of_isUntyped nodup ⟨lacks, untyped⟩

theorem Rule.pruneManifest_eq_self_iff (rule : Rule) : rule.pruneManifest manifest = manifest ↔ rule.Pruned manifest.data := by
  constructor
  · intro same
    have pruned := rule.pruned_pruneManifest manifest
    rwa [same] at pruned
  · exact pruneManifest_of_pruned nodup

theorem Family.IsRetaining.alterManifest_eq_self_iff (retaining : family.IsRetaining) {name : String}
    (own : (name, rule) ∈ family.rules) :
    family.alterManifest rule manifest = manifest ↔
      rule.Pruned manifest.data ∧ (rule.transpile = true → family.Typeless manifest.data) := by
  unfold alterManifest
  split
  · next transpile =>
    constructor
    · intro same
      have typeless := (family.typeless_retainPackages retaining.fresh manifest).pruneManifest (retaining.retained _ own)
      have pruned := rule.pruned_pruneManifest (family.retainPackages (family.untypeManifest manifest))
      rw [same] at typeless pruned
      exact ⟨pruned, fun _ => typeless⟩
    · rintro ⟨pruned, typeless⟩
      rw [untypeManifest_of_isUntyped nodup (typeless transpile).isUntyped, retainPackages_of_typeless nodup (typeless transpile),
        Rule.pruneManifest_of_pruned nodup pruned]
  · next plain =>
    rw [rule.pruneManifest_eq_self_iff nodup]
    exact ⟨fun pruned => ⟨pruned, fun transpile => absurd transpile plain⟩, And.left⟩

omit nodup

theorem map_eq_self_iff {change : Manifest → Manifest} {given : Option Manifest} :
    given.map change = given ↔ ∀ manifest, given = some manifest → change manifest = manifest := by
  cases given with
  | none => simp
  | some manifest => simp

/-! ## Through a whole removal -/

theorem distinct_alterManifest (family : Family) (rule : Rule) (distinct : (Value.object manifest.data).Distinct) :
    (Value.object (family.alterManifest rule manifest).data).Distinct := by
  unfold Family.alterManifest
  split
  · exact distinct_pruneManifest rule (distinct_retainPackages family (distinct_untypeManifest family distinct))
  · exact distinct_pruneManifest rule distinct

/-- The removal of types goes through. -/
def Family.Strips (family : Family) (target : Path) (before : Progress) : Prop :=
  ∃ stripped, (family.stripTypes target).run before = (.ok (), stripped)

/-- What becomes of the manifest when a feature is accounted for. -/
theorem Accounts.manifest_eq {account : Account} (accounts : Accounts family target before account after) :
    ∃ rule, family.rule? account.name = some rule ∧
      (after.manifest = before.manifest.map (family.alterManifest rule) ∨
        account.failure ≠ none ∧ rule.transpile = true ∧ ¬ family.Strips target before ∧
          after.manifest = before.manifest.map family.untypeManifest) := by
  cases accounts with
  | @removed name rule notes before after found applied noted =>
    have eq := Family.manifest_applyRule applied
    exact ⟨rule, found, .inl eq⟩
  | @warned name rule notes failure before failed told found ran noted isLocal shown =>
    refine ⟨rule, found, ?_⟩
    rw [warn_run] at shown
    split at shown <;> cases shown
    rcases Family.manifest_applyRule_of_error ran with ⟨transpile, strip, eq⟩ | ⟨-, eq⟩
    · refine .inr ⟨nofun, transpile, fun ⟨stripped, done⟩ => ?_, eq⟩
      rw [strip] at done
      cases done
    · exact .inl eq

theorem Accounts.isDistinct {account : Account} (accounts : Accounts family target before account after)
    (distinct : before.IsDistinct) : after.IsDistinct := by
  intro manifest held
  obtain ⟨rule, -, eq | ⟨-, -, -, eq⟩⟩ := accounts.manifest_eq
  all_goals
    rw [eq, Option.map_eq_some_iff] at held
    obtain ⟨old, held, rfl⟩ := held
  · exact distinct_alterManifest family rule (distinct old held)
  · exact distinct_untypeManifest family (distinct old held)

theorem Removes.isDistinct {names : List String} {accounts : List Account} {last : Progress}
    (removes : Removes family target names before accounts last) (distinct : before.IsDistinct) : last.IsDistinct := by
  induction removes with
  | done => exact distinct
  | unruled _ _ keeps => exact keeps distinct
  | ruled first _ keeps => exact keeps (first.isDistinct distinct)

/-! ## What stays away -/

theorem Rule.Pruned.untypeManifest (pruned : rule.Pruned manifest.data) (family : Family) :
    rule.Pruned (family.untypeManifest manifest).data := by
  have shed := pruned.mono (sheds_removeKeys manifest "devDependencies" family.typeDependencies)
  exact ⟨lacks_rewriteScripts _ shed.dependencies, lacks_rewriteScripts _ shed.devDependencies,
    lacks_rewriteScripts _ shed.scripts⟩

theorem Rule.Pruned.retainPackages (pruned : rule.Pruned manifest.data) (apart : ∀ package ∈ family.retainedDependencies,
    package.1 ∉ rule.dependencies ∧ package.1 ∉ rule.devDependencies ∧ package.1 ∉ rule.scripts) :
    rule.Pruned (family.retainPackages manifest).data := by
  unfold Family.retainPackages
  generalize family.retainedDependencies = packages at apart
  induction packages generalizing manifest with
  | nil => exact pruned
  | cons package later keeps =>
    obtain ⟨⟨other, developed, script⟩, others⟩ := List.forall_mem_cons.mp apart
    refine keeps ⟨?_, ?_, ?_⟩ others
    · exact lacks_ensureDependency other pruned.dependencies
    · exact lacks_ensureDependency developed pruned.devDependencies
    · exact lacks_ensureDependency script pruned.scripts

variable {name : String}

theorem Family.IsRetaining.pruned_alterManifest (retaining : family.IsRetaining) (own : (name, rule) ∈ family.rules)
    (pruned : rule.Pruned manifest.data) (other : Rule) : rule.Pruned (family.alterManifest other manifest).data := by
  unfold alterManifest
  refine Rule.Pruned.mono ?_ (other.sheds_pruneManifest _)
  split
  · exact (pruned.untypeManifest family).retainPackages (retaining.retained _ own)
  · exact pruned

/-- What a rule has removed from the manifest stays away, whatever comes of the features after it. -/
theorem Removes.pruned (retaining : family.IsRetaining) (own : (name, rule) ∈ family.rules) {names : List String}
    {accounts : List Account} {last : Progress} (removes : Removes family target names before accounts last)
    (pruned : ∀ manifest, before.manifest = some manifest → rule.Pruned manifest.data) :
    ∀ manifest, last.manifest = some manifest → rule.Pruned manifest.data := by
  induction removes with
  | done => exact pruned
  | unruled _ _ keeps => exact keeps pruned
  | ruled first _ keeps =>
    refine keeps fun manifest held => ?_
    obtain ⟨other, -, eq | ⟨-, -, -, eq⟩⟩ := first.manifest_eq
    all_goals
      rw [eq, Option.map_eq_some_iff] at held
      obtain ⟨old, held, rfl⟩ := held
    · exact retaining.pruned_alterManifest own (pruned old held) other
    · exact (pruned old held).untypeManifest family

/-! ## A feature that is warned about -/

/-- When a feature is warned about, its rule has changed the manifest as far as it came. If types could not be removed
from the files, these are the scripts and the packages of types; otherwise it is all that the rule changes, and what
the rule names is missing from then on. Either way the manifest is as before exactly when there was nothing to change. -/
theorem Family.failed_removal_changes_manifest (retaining : family.IsRetaining) {session : Session} {begun : Progress}
    (begins : family.Begins target session begun) {names : List String} {accounts : List Account}
    (earlier : Removes family target names begun accounts before) {notes : List String} {failure : Failure}
    (fails : Accounts family target before ⟨name, notes, some failure⟩ after) :
    ∃ rule, family.rule? name = some rule ∧
      ((rule.transpile = true ∧ (∃ stopped, (family.stripTypes target).run before = (.error failure, stopped)) ∧
          after.manifest = before.manifest.map family.untypeManifest ∧
          (after.manifest = before.manifest ↔ ∀ manifest, before.manifest = some manifest →
            Lacks manifest.data "devDependencies" family.typeDependencies ∧ Untyped manifest.data)) ∨
        (rule.transpile = true → ∃ stripped, (family.stripTypes target).run before = (.ok (), stripped)) ∧
          after.manifest = before.manifest.map (family.alterManifest rule) ∧
          (∀ names accounts last, Removes family target names after accounts last →
            ∀ manifest, last.manifest = some manifest → rule.Pruned manifest.data) ∧
          (after.manifest = before.manifest ↔ ∀ manifest, before.manifest = some manifest →
            rule.Pruned manifest.data ∧ (rule.transpile = true → family.Typeless manifest.data))) := by
  have distinct : before.IsDistinct := earlier.isDistinct begins.isDistinct
  cases fails with
  | @warned _ rule _ _ _ failed _ found ran noted isLocal shown =>
    have own := mem_of_rule? found
    have told : after.manifest = failed.manifest := by
      rw [warn_run] at shown
      split at shown <;> cases shown
      rfl
    refine ⟨rule, found, ?_⟩
    rw [told]
    rcases manifest_applyRule_of_error ran with ⟨transpile, strip, eq⟩ | ⟨strip, eq⟩
    · refine .inl ⟨transpile, ⟨failed, strip⟩, eq, ?_⟩
      rw [eq, map_eq_self_iff]
      exact forall₂_congr fun manifest held => family.untypeManifest_eq_self_iff (distinct manifest held).1
    · refine .inr ⟨strip, eq, fun names accounts last removes => removes.pruned retaining own fun manifest held => ?_, ?_⟩
      · rw [told, eq, Option.map_eq_some_iff] at held
        obtain ⟨old, -, rfl⟩ := held
        exact rule.pruned_pruneManifest _
      · rw [eq, map_eq_self_iff]
        exact forall₂_congr fun manifest held => retaining.alterManifest_eq_self_iff (distinct manifest held).1 own

/-- A document with the router among its packages, and the one without it. -/
def routed : Members := [("dependencies", .object [("vue-router", .text "4")])]

def unrouted : Members := [("dependencies", .object [])]

/-- A project with the router whose entry is no text. -/
def garbledEntry : Session :=
  ⟨⟨[], [([fileName], .file (encodeChars (document (.object routed)).toList)), (["src"], .directory),
    (["src", "main.ts"], .file [0xE9])]⟩, [], []⟩

/-- All features but the router. -/
def withoutRouter : Selection := (Selection.default vue3.features).set "router" false

/-- The fault of the entry. -/
def garbled : Failure := .source (.encoding ⟨false, ["src", "main.ts"]⟩ ⟨0xE9, 0, 1, .unexpectedEnd⟩)

private def loadedRouted : Progress := vue3.start ⟨false, []⟩ garbledEntry (some (ofData ⟨false, [fileName]⟩ routed))

private def warnedRouted : Progress :=
  { loadedRouted with manifest := some { ofData ⟨false, [fileName]⟩ routed with data := unrouted } }

private theorem load_garbledEntry :
    (loadManifest ⟨false, []⟩).run (vue3.start ⟨false, []⟩ garbledEntry none) = (.ok (), loadedRouted) := by
  have distinct : (Value.object routed).Distinct := by simp [routed, Value.Distinct]
  have held : Holds garbledEntry.disk (Path.child ⟨false, []⟩ fileName) (.object routed) :=
    holds_document distinct (by decide) (Disk.read_eq_ok_iff.mpr ⟨[fileName], by decide, by rfl⟩)
  have load := inDirectory_run_of_holds held
  rw [loadManifest_run]
  change (inDirectory ⟨false, []⟩).run (vue3.start ⟨false, []⟩ garbledEntry none).session = _ at load
  rw [load]
  rfl

private theorem exists_accounts_garbledEntry :
    ∃ after, Accounts vue3 ⟨false, []⟩ loadedRouted ⟨"router", [], some garbled⟩ after ∧
      after.manifest = warnedRouted.manifest ∧ after.session.disk = garbledEntry.disk ∧ after.result.removed = [] := by
  have ran : ∃ rule, vue3.rule? "router" = some rule ∧
      (vue3.applyRule ⟨false, []⟩ rule).run loadedRouted = (.error garbled, warnedRouted) := ⟨_, rfl, rfl⟩
  obtain ⟨rule, found, failed⟩ := ran
  have told := warn_run (featureWarning "router" garbled) warnedRouted
  have isOk : (Console.showMarkup (warningLine (featureWarning "router" garbled))).isOk = true := by decide +kernel
  cases shown : Console.showMarkup (warningLine (featureWarning "router" garbled)) with
  | error fault =>
    rw [shown] at isOk
    cases isOk
  | ok text =>
    rw [shown] at told
    exact ⟨_, .warned found failed rfl rfl told, rfl, rfl, rfl⟩

/-- The entry is no text, so the router is not removed; the manifest is without it nevertheless. -/
theorem failed_router_changes_manifest :
    vue3.IsRetaining ∧ ∃ begun after, vue3.Begins ⟨false, []⟩ garbledEntry begun ∧
      Removes vue3 ⟨false, []⟩ [] begun [] begun ∧
      Accounts vue3 ⟨false, []⟩ begun ⟨"router", [], some garbled⟩ after ∧
      ∃ rule, vue3.rule? "router" = some rule ∧ after.manifest = begun.manifest.map (vue3.alterManifest rule) ∧
        (after.manifest = begun.manifest ↔ ∀ manifest, begun.manifest = some manifest →
          rule.Pruned manifest.data ∧ (rule.transpile = true → vue3.Typeless manifest.data)) := by
  have retaining : vue3.IsRetaining := ⟨by decide, by decide⟩
  have begins : vue3.Begins ⟨false, []⟩ garbledEntry loadedRouted := .loaded load_garbledEntry
  obtain ⟨after, accounts, -⟩ := exists_accounts_garbledEntry
  refine ⟨retaining, loadedRouted, after, begins, .done, accounts, ?_⟩
  obtain ⟨rule, found, ⟨transpile, -⟩ | ⟨-, eq, -, iff⟩⟩ :=
    Family.failed_removal_changes_manifest retaining begins .done accounts
  · cases found
    cases transpile
  · exact ⟨rule, found, eq, iff⟩

/-- The router is not removed from the sources, but from the manifest that is saved. -/
theorem failed_router_is_missing :
    ∃ begun after, vue3.Begins ⟨false, []⟩ garbledEntry begun ∧
      Accounts vue3 ⟨false, []⟩ begun ⟨"router", [], some garbled⟩ after ∧ after.manifest ≠ begun.manifest ∧
      ∃ result final, (vue3.processProject ⟨false, []⟩ withoutRouter).run garbledEntry = (.ok result, final) ∧
        result.removed = [] ∧ Holds final.disk ⟨false, [fileName]⟩ (.object unrouted) := by
  obtain ⟨after, accounts, manifest, disk, removed⟩ := exists_accounts_garbledEntry
  have off : removalOrder vue3.features withoutRouter = ["router"] := by decide +kernel
  have ran : (vue3.removeFeatures ⟨false, []⟩ withoutRouter).run loadedRouted = (.ok (), after) := by
    unfold Family.removeFeatures
    rw [off]
    exact Removes.run_eq (.ruled accounts .done)
  have distinct : (Value.object unrouted).Distinct := by simp [unrouted, Value.Distinct]
  have held : Holds garbledEntry.disk ⟨false, [fileName]⟩ (.object routed) :=
    holds_document (by simp [routed, Value.Distinct]) (by decide) (Disk.read_eq_ok_iff.mpr ⟨[fileName], by decide, by rfl⟩)
  obtain ⟨written, write, holds⟩ := exists_write_document held distinct (by decide)
  have dirty : Manifest.isDirty { ofData ⟨false, [fileName]⟩ routed with data := unrouted } = true := by decide +kernel
  have saved := saveManifest_run after
  rw [manifest] at saved
  dsimp only [warnedRouted] at saved
  rw [if_pos dirty, disk] at saved
  have wrote : garbledEntry.disk.write (ofData ⟨false, [fileName]⟩ routed).path
      (encodeChars ({ ofData ⟨false, [fileName]⟩ routed with data := unrouted } : Manifest).text.toList) = .ok written := write
  rw [wrote] at saved
  dsimp only at saved
  have whole := processProject_run vue3 ⟨false, []⟩ withoutRouter garbledEntry
  rw [load_garbledEntry] at whole
  dsimp only at whole
  rw [ran] at whole
  dsimp only at whole
  rw [saved] at whole
  refine ⟨loadedRouted, after, .loaded load_garbledEntry, accounts, ?_, _, _, whole, removed, holds⟩
  rw [manifest]
  intro same
  have eq := congrArg (Option.map Manifest.data) same
  simp [warnedRouted, loadedRouted, Family.start, ofData, routed, unrouted] at eq

end Scaffold.Project
