import Scaffold.Proofs.Project.Converting
import Scaffold.Proofs.Project.Remaining

/-! # What a removal leaves behind

When a feature was removed, nothing is left of what its rule names in the manifest and at its paths. When the types
were removed, no file of the sources can lose any more, and the page names no entry with types. The features that are
removed later keep all this: they rewrite and remove what is there, and make nothing.
-/

namespace Scaffold.Project

open Scaffold.Text Scaffold.Files Scaffold.Json Stateful Processing Manifest

variable {family : Family} {target path : Path} {rule : Rule} {rewritten made : String → Prop}
variable {before after last : Progress} {name : String} {names : List String} {accounts : List Account}
variable {origin disk disk' : Disk} {place : Location}

/-! ## Families whose features do not meet -/

/-- The names of files that edits may rewrite. -/
def IsSource (name : String) : Prop := name ≠ fileName ∧ name ≠ pageName

instance (name : String) : Decidable (IsSource name) := inferInstanceAs (Decidable (_ ∧ _))

/-- A step that does nothing to a file which does not fit the grammar. -/
def EditStep.NeedsTree (step : EditStep) : Prop :=
  step.action = Action.removeImport.name ∨ step.action = Action.removeCall.name

instance (step : EditStep) : Decidable step.NeedsTree := inferInstanceAs (Decidable (_ ∨ _))

/-- Edits leave the manifest and the page alone, no rule removes the manifest, and what is edited without a tree is no
file of the sources. -/
structure Family.IsTidy (family : Family) : Prop extends family.IsOrdered, family.IsSparing where
  edited : ∀ entry ∈ family.rules, ∀ step ∈ entry.2.edits, ∀ text ∈ candidateTexts step.target,
    IsSource (Path.ofString text).name
  direct : ∀ entry ∈ family.rules, ∀ step ∈ entry.2.edits,
    step.NeedsTree ∨ ∀ text ∈ candidateTexts step.target, IsPlain text ∧ text ≠ "src"
  removed : ∀ entry ∈ family.rules, ∀ pattern ∈ entry.2.paths, ∀ text ∈ candidateTexts pattern,
    (Path.ofString text).name ≠ fileName

theorem isTidy_of_mem (packaged : family ∈ families) : family.IsTidy := by
  refine ⟨isOrdered_of_mem packaged, isSparing_of_mem packaged, ?_, ?_, ?_⟩
  all_goals
    rcases List.mem_cons.mp packaged with rfl | packaged
    · decide +kernel
    · obtain rfl := List.mem_singleton.mp packaged
      decide +kernel

theorem LeadsElsewhere.name_eq {text : String} (elsewhere : LeadsElsewhere text) (root : Path) :
    (root.child text).name = (Path.ofString text).name := by
  obtain ⟨-, name, head, -⟩ := elsewhere
  refine Path.name_child root fun none_ => ?_
  rw [none_] at head
  cases head

theorem Family.IsTidy.edited_named (tidy : family.IsTidy) (own : (name, rule) ∈ family.rules) (target : Path) :
    ∀ step ∈ rule.edits, ∀ path ∈ candidates target step.target, path.IsNamed ∧ IsSource path.name := by
  intro step mem path held
  rw [candidates_eq] at held
  obtain ⟨text, candidate, rfl⟩ := List.mem_map.mp held
  have elsewhere := tidy.edits _ own step mem text candidate
  exact ⟨elsewhere.isNamed target, elsewhere.name_eq target ▸ tidy.edited _ own step mem text candidate⟩

theorem Family.IsTidy.removed_named (tidy : family.IsTidy) (own : (name, rule) ∈ family.rules) (target : Path) :
    ∀ pattern ∈ rule.paths, ∀ path ∈ candidates target pattern, path.IsNamed ∧ path.name ≠ fileName := by
  intro pattern mem path held
  rw [candidates_eq] at held
  obtain ⟨text, candidate, rfl⟩ := List.mem_map.mp held
  have elsewhere := tidy.paths _ own pattern mem text candidate
  exact ⟨elsewhere.isNamed target, elsewhere.name_eq target ▸ tidy.removed _ own pattern mem text candidate⟩

theorem isNamed_page (target : Path) : (target.child pageName).IsNamed ∧ (target.child pageName).name = pageName :=
  Path.isNamed_child (by decide) target

theorem isNamed_manifest (target : Path) : (target.child fileName).IsNamed ∧ (target.child fileName).name = fileName :=
  Path.isNamed_child (by decide) target

/-! ## What removals do to the disk -/

/-- The disk after a removal comes from the one before. -/
abbrev ProgressFollows (rewritten made : String → Prop) : Progress → Progress → Prop :=
  BySession (SessionFollows rewritten made)

theorem lifts_progressFollows : Lifts (SessionFollows rewritten made) (ProgressFollows rewritten made) :=
  lifts_bySession follows_of_eq

/-- But for the removal of types, applying a rule rewrites sources and makes nothing. -/
theorem Family.IsTidy.follows_finishRule (tidy : family.IsTidy) (own : (name, rule) ∈ family.rules) (target : Path) :
    Keeps (family.finishRule target rule) (ProgressFollows IsSource fun _ => False) := by
  refine Family.keeps_finishRule (fun _ => Disk.Follows.refl _) (keeps_forEach fun step mem => ?_)
    (keeps_forEach fun pattern _ => ?_)
  · refine Family.keeps_runStep lifts_progressFollows fun action _ path held => ?_
    obtain ⟨named, source⟩ := tidy.edited_named own target step mem path held
    exact follows_action named source action _
  · exact keeps_removeMatches lifts_progressFollows fun path _ => follows_removePath path

/-- A removal rewrites no manifest, and what it makes are files without types. -/
theorem Family.IsTidy.follows_removeFeatures (tidy : family.IsTidy) (target : Path) (selection : Selection) :
    Keeps (family.removeFeatures target selection) (ProgressFollows (· ≠ fileName) IsPlainName) := by
  refine keeps_forEach fun name _ => Family.keeps_removeFeature lifts_progressFollows (fun rule found => ?_)
    fun _ => Disk.Follows.refl _
  refine Family.keeps_applyRule (fun _ => ?_) fun before outcome after ran => ?_
  · refine Family.keeps_stripTypes (fun _ => Disk.Follows.refl _) (fun _ => Disk.Follows.refl _)
      (Family.keeps_stripFiles lifts_progressFollows ?_ ?_ ?_)
    · exact fun _ _ _ _ => follows_convertFile
    · exact keeps_convertTree follows_of_eq (fun _ => follows_convertFile) _
    · obtain ⟨named, own⟩ := isNamed_page target
      exact follows_changeText named (by rw [own]; decide) _
  · exact Disk.Follows.mono (tidy.follows_finishRule (Family.mem_of_rule? found) target before outcome after ran)
      (fun _ source => source.1) nofun

/-- What edits and removals keep is kept when features without types are removed. -/
theorem Family.IsOrdered.keeps_forEach {sessions : Session → Session → Prop} (ordered : family.IsOrdered)
    [Std.Refl sessions] [Trans sessions sessions sessions]
    (disk : ∀ {before after : Session}, after.disk = before.disk → sessions before after)
    (finishes : ∀ {name rule}, (name, rule) ∈ family.rules → Keeps (family.finishRule target rule) (BySession sessions))
    (plain : typesFeature ∉ names) : Keeps (forEach (family.removeFeature target) names) (BySession sessions) := by
  refine Project.keeps_forEach fun name mem => Family.keeps_removeFeature (lifts_bySession disk) (fun rule found => ?_)
    fun _ => Std.Refl.refl (r := sessions) _
  refine Family.keeps_applyRule (fun transpile => ?_) (finishes (Family.mem_of_rule? found))
  obtain rfl := (ordered.transpile _ (Family.mem_of_rule? found)).mp transpile
  exact absurd mem plain

/-! ## Paths that are gone -/

/-- Nothing is at the paths that a rule names. -/
def Rule.Cleared (rule : Rule) (target : Path) (disk : Disk) : Prop :=
  ∀ pattern ∈ rule.paths, ∀ path ∈ candidates target pattern, disk.contains path = false

theorem Rule.Cleared.later (cleared : rule.Cleared target disk)
    (named : ∀ pattern ∈ rule.paths, ∀ path ∈ candidates target pattern, path.IsNamed ∧ ¬ made path.name)
    (follows : disk.Follows rewritten made disk') : rule.Cleared target disk' := by
  intro pattern mem path held
  obtain ⟨own, other⟩ := named pattern mem path held
  exact Bool.eq_false_iff.mpr fun there =>
    Bool.eq_false_iff.mp (cleared pattern mem path held) (follows.contains own other there)

theorem keeps_removeMatches_follows (target : Path) (pattern : String) :
    Keeps (removeMatches target pattern) (ProgressFollows (fun _ => False) fun _ => False) :=
  keeps_removeMatches lifts_progressFollows fun path _ => follows_removePath path

/-- Nothing is at a path that was removed, and later removals leave it so. -/
theorem contains_of_removeMatches {pattern : String} (named : ∀ path ∈ candidates target pattern, path.IsNamed)
    (ran : (removeMatches target pattern).run before = (.ok (), after)) :
    ∀ path ∈ candidates target pattern, after.session.disk.contains path = false := by
  have lasts : ∀ path ∈ candidates target pattern, ∀ before after : Progress,
      before.session.disk.contains path = false → ProgressFollows (fun _ => False) (fun _ => False) before after →
        after.session.disk.contains path = false := by
    intro path held start last absent follows
    exact Bool.eq_false_iff.mpr fun there => Bool.eq_false_iff.mp absent
      (Disk.Follows.contains follows (named path held) id there)
  refine resolve_establishes lifts_progressFollows (fun path progress => progress.session.disk.contains path = false)
    (fun path _ => ?_) ?_ lasts lasts ran
  · exact .bind (keeps_perform lifts_progressFollows (follows_removePath path)) fun _ => .pure ()
  · intro path held start last ran
    cases ran
    exact Disk.contains_removePath _ (named path held)

theorem cleared_of_removes (named : ∀ pattern ∈ rule.paths, ∀ path ∈ candidates target pattern, path.IsNamed)
    (ran : (forEach (removeMatches target) rule.paths).run before = (.ok (), after)) :
    rule.Cleared target after.session.disk := by
  intro pattern mem
  refine forEach_establishes (fun pattern progress => ∀ path ∈ candidates target pattern,
    progress.session.disk.contains path = false) (fun pattern _ => keeps_removeMatches_follows target pattern) ?_ ?_ ran pattern mem
  · exact fun pattern mem start last ran => contains_of_removeMatches (named pattern mem) ran
  · intro pattern mem start last absent follows path held
    exact Bool.eq_false_iff.mpr fun there => Bool.eq_false_iff.mp (absent path held)
      (Disk.Follows.contains follows (named pattern mem path held) id there)

/-- A rule that was applied ends with the state that finishing it leaves. -/
theorem exists_finishRule_run (applied : (family.applyRule target rule).run before = (.ok (), after)) :
    ∃ stripped, (rule.transpile = true → (family.stripTypes target).run before = (.ok (), stripped)) ∧
      (family.finishRule target rule).run stripped = (.ok (), after) := by
  rw [Family.applyRule_eq] at applied
  split at applied
  · obtain ⟨⟨⟩, stripped, strip, finish⟩ := bind_run_eq_ok_iff.mp applied
    exact ⟨stripped, fun _ => strip, finish⟩
  · next plain => exact ⟨before, fun transpile => absurd transpile plain, applied⟩

theorem Family.IsTidy.cleared_finishRule (tidy : family.IsTidy) (own : (name, rule) ∈ family.rules)
    (ran : (family.finishRule target rule).run before = (.ok (), after)) : rule.Cleared target after.session.disk := by
  obtain ⟨⟨⟩, pruned, -, ran⟩ := bind_run_eq_ok_iff.mp ran
  obtain ⟨⟨⟩, edited, -, ran⟩ := bind_run_eq_ok_iff.mp ran
  exact cleared_of_removes (fun pattern mem path held => (tidy.removed_named own target pattern mem path held).1) ran

theorem TypesFirst.others (first : TypesFirst (name :: names)) : typesFeature ∉ names := by
  rcases first with absent | ⟨others, eq, absent⟩
  · exact (not_or.mp (mt List.mem_cons.mpr absent)).2
  · exact (List.cons.inj eq).2 ▸ absent

/-- Other features than the types remove no types. -/
theorem Removes.not_transpile (ordered : family.IsOrdered) (removes : Removes family target names before accounts last)
    (plain : typesFeature ∉ names) {account : Account} (mem : account ∈ accounts)
    (found : family.rule? account.name = some rule) : rule.transpile ≠ true := by
  intro transpile
  have named : account.name = typesFeature := (ordered.transpile _ (Family.mem_of_rule? found)).mp transpile
  have own : account.name ∈ accounts.map Account.name := List.mem_map_of_mem mem
  rw [removes.named, named] at own
  exact plain (List.mem_filter.mp own).1

/-- The feature that removes types is the first one that is accounted for. -/
theorem Removes.exists_first (ordered : family.IsOrdered) (removes : Removes family target names before accounts last)
    (first : TypesFirst names) {account : Account} (mem : account ∈ accounts) (found : family.rule? account.name = some rule)
    (transpile : rule.transpile = true) :
    ∃ later others middle, Accounts family target before account middle ∧ Removes family target later middle others last ∧
      typesFeature ∉ later := by
  cases removes with
  | done => cases mem
  | unruled _ rest => exact absurd transpile (rest.not_transpile ordered first.others mem found)
  | ruled begun rest =>
    rcases List.mem_cons.mp mem with rfl | mem
    · exact ⟨_, _, _, begun, rest, first.others⟩
    · exact absurd transpile (rest.not_transpile ordered first.others mem found)

/-- When types were removed from the files, the rule was finished from there on, with success or not. -/
theorem Accounts.exists_finishRule {account : Account} (begun : Accounts family target before account after)
    (found : family.rule? account.name = some rule) (transpile : rule.transpile = true) {stripped : Progress}
    (strip : (family.stripTypes target).run before = (.ok (), stripped)) :
    ∃ outcome finished, (family.finishRule target rule).run stripped = (outcome, finished) ∧
      after.session.disk = finished.session.disk := by
  cases begun with
  | removed found' applied =>
    obtain rfl := Option.some.inj (found.symm.trans found')
    rw [Family.applyRule_eq, if_pos transpile, bind_run, strip] at applied
    exact ⟨_, _, applied, rfl⟩
  | warned found' failed noted isLocal shown =>
    obtain rfl := Option.some.inj (found.symm.trans found')
    rw [Family.applyRule_eq, if_pos transpile, bind_run, strip] at failed
    rw [warn_run] at shown
    split at shown <;> cases shown
    exact ⟨_, _, failed, rfl⟩

theorem Accounts.strips {account : Account} (begun : Accounts family target before account after)
    (clean : account.failure = none) (found : family.rule? account.name = some rule) (transpile : rule.transpile = true) :
    family.Strips target before := by
  cases begun with
  | warned => cases clean
  | removed found' applied =>
    obtain rfl := Option.some.inj (found.symm.trans found')
    obtain ⟨stripped, strip, -⟩ := exists_finishRule_run applied
    exact ⟨stripped, strip transpile⟩

/-- The paths of every feature that was removed are gone in the end. -/
theorem Removes.cleared (tidy : family.IsTidy) (removes : Removes family target names before accounts last)
    (first : TypesFirst names) :
    ∀ account ∈ accounts, account.failure = none → ∀ rule, family.rule? account.name = some rule →
      rule.Cleared target last.session.disk := by
  induction removes with
  | done => exact nofun
  | unruled _ _ cleared => exact cleared (.inl first.others)
  | ruled begun rest cleared =>
    refine List.forall_mem_cons.mpr ⟨fun clean rule found => ?_, cleared (.inl first.others)⟩
    have own := Family.mem_of_rule? found
    have follows := tidy.toIsOrdered.keeps_forEach follows_of_eq (fun own => tidy.follows_finishRule own target)
      first.others _ _ _ rest.run_eq
    cases begun with
    | warned => cases clean
    | removed found' applied =>
      obtain rfl := Option.some.inj (found.symm.trans found')
      obtain ⟨stripped, -, finish⟩ := exists_finishRule_run applied
      exact (tidy.cleared_finishRule own finish).later
        (fun pattern mem path held => ⟨(tidy.removed_named own target pattern mem path held).1, id⟩) follows

/-! ## Sources without types -/

/-- The disk of a session comes from an origin without anything new. -/
abbrev StemsFrom (origin : Disk) (session : Session) : Prop :=
  origin.Follows (fun _ => True) (fun _ => False) session.disk

/-- From a session whose disk comes from an origin on, no file under a place becomes one that can lose its types. -/
def GainsNoTypes (origin : Disk) (place : Location) (before after : Session) : Prop :=
  StemsFrom origin before → StemsFrom origin after ∧ ∀ location, place <+: location → location ≠ place →
    IsTyped after.disk location → IsTyped before.disk location

instance : Std.Refl (GainsNoTypes origin place) where
  refl _ stems := ⟨stems, fun _ _ _ => id⟩

instance : Trans (GainsNoTypes origin place) (GainsNoTypes origin place) (GainsNoTypes origin place) where
  trans first second stems := by
    obtain ⟨stems, earlier⟩ := first stems
    obtain ⟨stems, later⟩ := second stems
    exact ⟨stems, fun location inside apart typed => earlier location inside apart (later location inside apart typed)⟩

theorem gainsNoTypes_of_eq {before after : Session} (same : after.disk = before.disk) : GainsNoTypes origin place before after := by
  intro stems
  rw [StemsFrom, same]
  exact ⟨stems, fun _ _ _ => id⟩

theorem IsTyped.of_held {other : Disk} {location : Location} (typed : IsTyped disk location)
    (same : disk.entry? location = other.entry? location) : IsTyped other location :=
  ⟨typed.named, same ▸ typed.converts⟩

/-- A file that is rewritten gains no types when it had some, or is none of those under the place. -/
theorem gainsNoTypes_rewrite {before : Session} {old new : Bytes} (named : path.IsNamed)
    (read : before.disk.read path = .ok old) (written : before.disk.write path new = .ok disk)
    (why : ∀ location, before.disk.locate path = .ok location → StemsFrom origin before → place <+: location →
      location ≠ place → isConvertible ⟨true, location⟩ = true → IsTyped before.disk location) :
    GainsNoTypes origin place before { before with disk := disk } := by
  intro stems
  refine ⟨Disk.Follows.trans stems (Disk.follows_write named written (.inl ⟨trivial, old, read⟩)),
    fun location inside apart typed => ?_⟩
  obtain ⟨reached, located, some_, -, rfl⟩ := Disk.write_eq_put written
  by_cases same : location = reached
  · exact same ▸ why reached located stems (same ▸ inside) (same ▸ apart) (same ▸ typed.named)
  · exact typed.of_held (by rw [Disk.entry?_put _ some_, if_neg same])

/-- What is edited by its tree had types that could be erased. -/
theorem converts_of_editTree {edit : Bytes → Syntax.Tree → Bytes} {session after : Session}
    (ran : (editTree path edit).run session = (.ok true, after)) :
    ∃ content, session.disk.read path = .ok content ∧ Converts path content := by
  unfold editTree onFile at ran
  rw [bind_run, ask_run] at ran
  dsimp only at ran
  split at ran
  · rw [bind_run, readTree, bind_run, readSource_run] at ran
    cases read : session.disk.read path with
    | error trouble =>
      rw [read] at ran
      cases ran
    | ok content =>
      rw [read] at ran
      dsimp only at ran
      cases decoded : decode content with
      | error fault =>
        rw [decoded] at ran
        cases ran
      | ok text =>
        rw [decoded] at ran
        dsimp only at ran
        cases parsed : (dialectOf path).parse content with
        | error line =>
          rw [parsed] at ran
          cases ran
        | ok tree => exact ⟨content, rfl, ⟨text, decoded⟩, _, by rw [Erasure.erase, parsed]⟩
  · cases ran

theorem converts_of_action {step : EditStep} {action : Action} {session after : Session} (needs : step.NeedsTree)
    (known : family.action? step.action = some action)
    (ran : (action.run path step.arguments).run session = (.ok true, after)) :
    ∃ content, session.disk.read path = .ok content ∧ Converts path content := by
  have own : action.name = step.action := by simpa using List.find?_some known
  have kind : action = .removeImport ∨ action = .removeCall := by
    unfold EditStep.NeedsTree at needs
    rw [← own] at needs
    revert needs
    cases action <;> decide
  cases arguments : step.arguments with
  | nil =>
    rw [arguments] at ran
    rcases kind with rfl | rfl <;> cases ran
  | cons first others =>
    rw [arguments] at ran
    rcases kind with rfl | rfl
    · exact converts_of_editTree (show (removeImport path first).run session = _ from ran)
    · exact converts_of_editTree (show (removeCall path first others.head?).run session = _ from ran)

/-- The sources of a project, where they are. -/
def IsSourcePlace (target : Path) (origin : Disk) (place : Location) : Prop :=
  ∃ here, origin.locate target = .ok here ∧ place = here ++ ["src"]

theorem Family.IsTidy.gainsNoTypes_action (tidy : family.IsTidy) (own : (name, rule) ∈ family.rules) {step : EditStep}
    (mem : step ∈ rule.edits) {action : Action} (known : family.action? step.action = some action)
    (sources : IsSourcePlace target origin place) :
    ∀ path ∈ candidates target step.target, Keeps (action.run path step.arguments) (GainsNoTypes origin place) := by
  intro path held session outcome next ran
  have edited := edited_action action path step.arguments session
  rw [ran] at edited
  cases edited with
  | left => exact Std.Refl.refl session
  | @rewrote old new disk read written =>
    obtain ⟨named, -⟩ := tidy.edited_named own target step mem path held
    refine gainsNoTypes_rewrite named read written fun location located stems inside apart convertible => ?_
    rcases tidy.direct _ own step mem with needs | direct
    · obtain ⟨content, read', converts⟩ := converts_of_action needs known ran
      obtain ⟨reached, located', held'⟩ := Disk.read_eq_ok_iff.mp read'
      obtain rfl := Except.ok.inj (located.symm.trans located')
      exact ⟨convertible, content, held', (converts_congr (name_of_locate named located)).mpr converts⟩
    · -- the file lies in the directory of the sources, and not under them
      rw [candidates_eq] at held
      obtain ⟨text, candidate, rfl⟩ := List.mem_map.mp held
      obtain ⟨plain, other⟩ := direct text candidate
      obtain ⟨here, base, rfl⟩ := sources
      obtain ⟨here', base', rfl⟩ := Disk.exists_of_locate_child (Disk.leadsDown_of_isPlain plain) located
      obtain rfl := Except.ok.inj (base.symm.trans (stems.locate base'))
      rw [Path.ofString_of_isPlain plain, List.prefix_append_right_inj] at inside
      exact absurd (List.cons.inj (List.IsPrefix.eq_of_length inside rfl)).1 (Ne.symm other)

theorem gainsNoTypes_removePath : Keeps (Operation.removePath path) (GainsNoTypes origin place) := by
  intro session outcome next ran stems
  have follows : Disk.Follows (fun _ => False) (fun _ => False) session.disk next.disk := follows_removePath path _ _ _ ran
  refine ⟨Disk.Follows.trans stems (follows.mono (fun _ => False.elim) fun _ => id), fun location _ _ typed => ?_⟩
  obtain ⟨content, held, converts⟩ := typed.converts
  rcases follows.file held with same | ⟨⟨_, _, none_⟩, -⟩ | ⟨_, _, none_⟩
  · exact ⟨typed.named, content, same, converts⟩
  · exact none_.elim
  · exact none_.elim

theorem Family.IsTidy.gainsNoTypes_finishRule (tidy : family.IsTidy) (own : (name, rule) ∈ family.rules)
    (sources : IsSourcePlace target origin place) :
    Keeps (family.finishRule target rule) (BySession (GainsNoTypes origin place)) := by
  have lifts : Lifts (GainsNoTypes origin place) (BySession (GainsNoTypes origin place)) := lifts_bySession gainsNoTypes_of_eq
  refine Family.keeps_finishRule (fun _ => gainsNoTypes_of_eq rfl) (Project.keeps_forEach fun step mem => ?_)
    (Project.keeps_forEach fun pattern _ => ?_)
  · exact keeps_runStep lifts fun action known => tidy.gainsNoTypes_action own mem known sources
  · exact keeps_removeMatches lifts fun path _ => gainsNoTypes_removePath

theorem gainsNoTypes_page (change : List Char → List Char) :
    Keeps (changeText (target.child pageName) change) (GainsNoTypes origin place) := by
  obtain ⟨named, own⟩ := isNamed_page target
  intro session outcome next ran
  rw [changeText_run] at ran
  split at ran
  · cases ran
    exact Std.Refl.refl session
  · next read =>
    split at ran
    · cases ran
      exact Std.Refl.refl session
    · split at ran
      · cases ran
        exact Std.Refl.refl session
      · split at ran
        · cases ran
          exact Std.Refl.refl session
        · next written =>
          cases ran
          refine gainsNoTypes_rewrite named read written fun location located _ _ _ convertible => ?_
          rw [isConvertible_congr (name_of_locate named located), isConvertible, Path.suffix, own] at convertible
          exact absurd convertible (by decide)

/-- A project in which there is nothing to do for the removal of types, but for its configuration files and manifest. -/
structure Stripped (target : Path) (disk : Disk) : Prop where
  page : RestsIn renameEntry disk (target.child pageName)
  sources : ∀ path ∈ disk.filesUnder (target.child "src") isConvertible, ∀ content,
    disk.read path = .ok content → ¬ Converts path content

theorem Stripped.later (stripped : Stripped target disk) (follows : disk.Follows rewritten made disk')
    (page : ¬ rewritten pageName ∧ ¬ made pageName)
    (sources : ∀ path, isConvertible path = true → ¬ rewritten path.name ∧ ¬ made path.name) : Stripped target disk' := by
  constructor
  · intro content read
    obtain ⟨named, own⟩ := isNamed_page target
    exact stripped.page content (follows.read named (own.symm ▸ page.1) (own.symm ▸ page.2) read)
  · intro path mem content read
    have convertible := isConvertible_of_mem_filesUnder mem
    obtain ⟨unwritten, other⟩ := sources path convertible
    exact stripped.sources path (follows.mem_filesUnder mem other) content
      (follows.read (isNamed_of_isConvertible convertible).1 unwritten other read)

/-- When types were removed, all that can lose them has, and what keeps it so leads to a stripped project. -/
theorem stripped_of_stripTypes {stripped : Progress} (tree : before.session.disk.IsTree)
    (strip : (family.stripTypes target).run before = (.ok (), stripped))
    (follows : ProgressFollows IsSource (fun _ => False) stripped last)
    (gains : ∀ origin place, IsSourcePlace target origin place → BySession (GainsNoTypes origin place) stripped last) :
    Stripped target last.session.disk := by
  obtain ⟨session, untypes, page⟩ := Family.untypes_stripTypes tree strip
  change (changeText (target.child pageName) renameEntry).run session = _ at page
  obtain ⟨named, own⟩ := isNamed_page target
  constructor
  · have rests := restsIn_changeText renameEntry_renameEntry (fun text fresh mem => ?_) page
    · exact fun content read => rests content (Disk.Follows.read follows named (by rw [own]; decide) id read)
    · rcases mem_renameEntry mem with new | old
      · exact absurd new (by decide)
      · exact fresh old
  · intro path mem content read converts
    have convertible := isConvertible_of_mem_filesUnder mem
    have paged : StemsFrom session.disk stripped.session := follows_changeText named trivial _ _ _ _ page
    have stems : StemsFrom session.disk last.session := paged.trans (Disk.Follows.mono follows (fun _ _ => trivial) fun _ => id)
    have earlier := stems.mem_filesUnder mem id
    obtain ⟨place, located⟩ : ∃ place, session.disk.locate (target.child "src") = .ok place := by
      unfold Disk.filesUnder at earlier
      split at earlier
      · cases earlier
      · next place located => exact ⟨place, located⟩
    have plain : IsPlain "src" := by decide
    have sources : IsSourcePlace target session.disk place := by
      obtain ⟨here, base, -⟩ := Disk.exists_of_locate_child (Disk.leadsDown_of_isPlain plain) located
      exact ⟨here, base, Disk.eq_of_locate_child plain base located⟩
    obtain ⟨names, some_, same, -, old, held⟩ := (mem_filesUnder_iff untypes.tree located).mp earlier
    have reached : session.disk.locate path = .ok (place ++ names) := same ▸ locate_append untypes.tree located held
    have name : (Files.Path.mk true (place ++ names)).name = path.name := same ▸ name_append some_
    obtain ⟨_, located', held'⟩ := Disk.read_eq_ok_iff.mp read
    obtain rfl := Except.ok.inj (reached.symm.trans (stems.locate located'))
    have typed : IsTyped last.session.disk (place ++ names) :=
      ⟨isConvertible_congr name ▸ convertible, content, held', (converts_congr name).mpr converts⟩
    have renamed : GainsNoTypes session.disk place session stripped.session := gainsNoTypes_page renameEntry _ _ _ page
    have kept : GainsNoTypes session.disk place stripped.session last.session := gains _ _ sources
    have begun : GainsNoTypes session.disk place session last.session := Trans.trans renamed kept
    have before_ := (begun (.refl _)).2 _ (List.prefix_append _ _) (fun same => some_ (List.append_right_eq_self.mp same)) typed
    exact (untypes.isTyped_iff.mp before_).2 (.inr ⟨place, names, untypes.locate_iff.mp located, some_, rfl⟩)

/-- When the types were removed from the files, the project is stripped in the end. -/
theorem Removes.stripped (tidy : family.IsTidy) (removes : Removes family target names before accounts last)
    (tree : before.session.disk.IsTree) (first : TypesFirst names) {account : Account} (mem : account ∈ accounts)
    (found : family.rule? account.name = some rule) (transpile : rule.transpile = true) (strips : family.Strips target before) :
    Stripped target last.session.disk := by
  obtain ⟨stripped, strip⟩ := strips
  obtain ⟨later, others, middle, begun, rest, plain⟩ := removes.exists_first tidy.toIsOrdered first mem found transpile
  obtain ⟨outcome, finished, finish, same⟩ := begun.exists_finishRule found transpile strip
  have own := Family.mem_of_rule? found
  refine stripped_of_stripTypes tree strip ?_ fun origin place sources => ?_
  · have finishes : ProgressFollows IsSource (fun _ => False) stripped finished := tidy.follows_finishRule own target _ _ _ finish
    have told : ProgressFollows IsSource (fun _ => False) finished middle := follows_of_eq same
    have later : ProgressFollows IsSource (fun _ => False) middle last :=
      tidy.toIsOrdered.keeps_forEach follows_of_eq (fun own => tidy.follows_finishRule own target) plain _ _ _ rest.run_eq
    exact Trans.trans (Trans.trans finishes told : ProgressFollows _ _ stripped middle) later
  · have finishes : BySession (GainsNoTypes origin place) stripped finished :=
      tidy.gainsNoTypes_finishRule own sources _ _ _ finish
    have told : BySession (GainsNoTypes origin place) finished middle := gainsNoTypes_of_eq same
    have later : BySession (GainsNoTypes origin place) middle last :=
      tidy.toIsOrdered.keeps_forEach gainsNoTypes_of_eq (fun own => tidy.gainsNoTypes_finishRule own sources) plain _ _ _
        rest.run_eq
    exact Trans.trans (Trans.trans finishes told : BySession (GainsNoTypes origin place) stripped middle) later

/-! ## The manifest -/

/-- What features without types keep in the manifest is kept when they are removed. -/
theorem Removes.keeps_data {kept : Members → Prop} (ordered : family.IsOrdered)
    (prunes : ∀ {name rule}, (name, rule) ∈ family.rules → ∀ manifest : Manifest, kept manifest.data →
      kept (rule.pruneManifest manifest).data)
    (removes : Removes family target names before accounts last) (plain : typesFeature ∉ names)
    (begun : ∀ manifest, before.manifest = some manifest → kept manifest.data) :
    ∀ manifest, last.manifest = some manifest → kept manifest.data := by
  induction removes with
  | done => exact begun
  | unruled _ _ keeps => exact keeps (not_or.mp (mt List.mem_cons.mpr plain)).2 begun
  | ruled first _ keeps =>
    obtain ⟨other, others⟩ := not_or.mp (mt List.mem_cons.mpr plain)
    refine keeps others fun manifest held => ?_
    obtain ⟨rule, found, eq⟩ := first.manifest_eq
    have own := Family.mem_of_rule? found
    have still : rule.transpile ≠ true := fun transpile => other ((ordered.transpile _ own).mp transpile).symm
    rw [eq.resolve_right fun failed => still failed.2.1, Option.map_eq_some_iff] at held
    obtain ⟨old, held, rfl⟩ := held
    rw [Family.alterManifest, if_neg still]
    exact prunes own old (begun old held)

/-- What a rule names is gone from the manifest in the end, unless types could not be removed from the files. -/
theorem Removes.forall_pruned (ordered : family.IsOrdered) (removes : Removes family target names before accounts last)
    (first : TypesFirst names) :
    ∀ account ∈ accounts, ∀ rule, family.rule? account.name = some rule → (rule.transpile = true → family.Strips target before) →
      ∀ manifest, last.manifest = some manifest → rule.Pruned manifest.data := by
  induction removes with
  | done => exact nofun
  | unruled _ _ pruned => exact pruned (.inl first.others)
  | ruled begun rest pruned =>
    refine List.forall_mem_cons.mpr ⟨fun rule found strips => ?_, fun account mem rule found _ => ?_⟩
    · refine rest.pruned ordered.toIsRetaining (Family.mem_of_rule? found) fun manifest held => ?_
      obtain ⟨other, found', eq | ⟨-, transpile, halted, -⟩⟩ := begun.manifest_eq
      · obtain rfl := Option.some.inj (found.symm.trans found')
        rw [eq, Option.map_eq_some_iff] at held
        obtain ⟨old, -, rfl⟩ := held
        exact rule.pruned_pruneManifest _
      · obtain rfl := Option.some.inj (found.symm.trans found')
        exact absurd (strips transpile) halted
    · exact pruned (.inl first.others) account mem rule found fun transpile =>
        absurd transpile (rest.not_transpile ordered first.others mem found)

/-- When the types were removed from the files, the manifest has none in the end. -/
theorem Removes.typeless (ordered : family.IsOrdered) (removes : Removes family target names before accounts last)
    (first : TypesFirst names) {account : Account} (mem : account ∈ accounts) (found : family.rule? account.name = some rule)
    (transpile : rule.transpile = true) (strips : family.Strips target before) :
    ∀ manifest, last.manifest = some manifest → family.Typeless manifest.data := by
  obtain ⟨later, others, middle, begun, rest, plain⟩ := removes.exists_first ordered first mem found transpile
  refine rest.keeps_data ordered (fun own manifest typeless => typeless.pruneManifest (ordered.retained _ own)) plain
    fun manifest held => ?_
  obtain ⟨other, found', eq | ⟨-, -, halted, -⟩⟩ := begun.manifest_eq
  · obtain rfl := Option.some.inj (found.symm.trans found')
    rw [eq, Option.map_eq_some_iff] at held
    obtain ⟨old, -, rfl⟩ := held
    rw [Family.alterManifest, if_pos transpile]
    exact (family.typeless_retainPackages ordered.fresh old).pruneManifest (ordered.retained _ (Family.mem_of_rule? found))
  · exact absurd strips halted

/-- When types were to be removed, the removal of types takes nothing from the manifest in the end. -/
theorem Removes.isUntyped (ordered : family.IsOrdered) (removes : Removes family target names before accounts last)
    (first : TypesFirst names) {account : Account} (mem : account ∈ accounts) (found : family.rule? account.name = some rule)
    (transpile : rule.transpile = true) :
    ∀ manifest, last.manifest = some manifest → family.IsUntyped manifest.data := by
  obtain ⟨later, others, middle, begun, rest, plain⟩ := removes.exists_first ordered first mem found transpile
  refine rest.keeps_data ordered (fun _ manifest untyped => untyped.mono (Rule.sheds_pruneManifest _ manifest)) plain
    fun manifest held => ?_
  obtain ⟨other, found', eq | ⟨-, -, -, eq⟩⟩ := begun.manifest_eq
  all_goals
    rw [eq, Option.map_eq_some_iff] at held
    obtain ⟨old, -, rfl⟩ := held
  · obtain rfl := Option.some.inj (found.symm.trans found')
    rw [Family.alterManifest, if_pos transpile]
    exact (family.typeless_retainPackages ordered.fresh old).isUntyped.mono (rule.sheds_pruneManifest _)
  · exact family.isUntyped_untypeManifest old

theorem Holds.earlier {value : Value} (held : Holds disk' path value) (follows : disk.Follows rewritten made disk')
    (named : path.IsNamed) (unwritten : ¬ rewritten path.name) (other : ¬ made path.name) : Holds disk path value := by
  obtain ⟨content, text, read, decoded, parsed⟩ := held
  exact ⟨content, text, follows.read named unwritten other read, decoded, parsed⟩

variable {selection : Selection} {session final : Session} {loaded saved : Progress} {result : Result}

/-- A manifest that was loaded and changed is the one of its directory, and the document it was loaded from is stored. -/
theorem exists_loaded_of_removal (load : (loadManifest target).run (family.start target session none) = (.ok (), loaded))
    (removal : (family.removeFeatures target selection).run loaded = (.ok (), last)) {manifest : Manifest}
    (held : last.manifest = some manifest) :
    ∃ first, Holds session.disk (target.child fileName) (.object first) ∧ manifest.path = target.child fileName ∧
      manifest.stored = document (.object first) := by
  obtain ⟨change, edits, eq⟩ := family.editsManifest_removeFeatures target selection _ _ _ removal
  rw [held, eq_comm, Option.map_eq_some_iff] at eq
  obtain ⟨old, oldHeld, rfl⟩ := eq
  obtain ⟨first, firstHeld, rfl⟩ := loadManifest_manifest load rfl old oldHeld
  rw [edits]
  exact ⟨first, firstHeld, rfl, rfl⟩

/-- After a removal, the file of the manifest holds what was left of the manifest, if it holds an object at all. -/
theorem Family.IsTidy.exists_manifest_of_holds (tidy : family.IsTidy) {data : Members}
    (load : (loadManifest target).run (family.start target session none) = (.ok (), loaded)) (distinct : last.IsDistinct)
    (removal : (family.removeFeatures target selection).run loaded = (.ok (), last))
    (save : saveManifest.run last = (.ok (), saved)) (held : Holds saved.session.disk (target.child fileName) (.object data)) :
    ∃ manifest, last.manifest = some manifest ∧ (Value.object data).coarse = (Value.object manifest.data).coarse := by
  obtain ⟨named, own⟩ := isNamed_manifest target
  have follows := tidy.follows_removeFeatures target selection _ _ _ removal
  have earlier {value : Value} (held : Holds last.session.disk (target.child fileName) value) :
      Holds session.disk (target.child fileName) value :=
    disk_loadManifest load ▸ held.earlier follows named (not_not_intro own) (by rw [own]; exact not_isPlainName_fileName)
  obtain ⟨-, writes⟩ := saveManifest_run_ok save
  cases kept : last.manifest with
  | none =>
    -- there was no manifest to begin with, so the file holds no object
    have unsaved : saved = last := by
      cases Saves.of_run save with
      | quiet => rfl
      | written stored => cases kept.symm.trans stored
    obtain ⟨change, -, eq⟩ := family.editsManifest_removeFeatures target selection _ _ _ removal
    rw [loadManifest_run, start, inDirectory_run_of_holds (earlier (unsaved ▸ held))] at load
    cases load
    rw [kept] at eq
    cases eq
  | some manifest =>
    obtain ⟨first, firstHeld, place, stored⟩ := exists_loaded_of_removal load removal kept
    refine ⟨manifest, rfl, ?_⟩
    obtain ⟨clean, dirty⟩ := writes _ kept
    by_cases unchanged : manifest.text = manifest.stored
    · rw [clean unchanged] at held
      obtain rfl := Value.object.inj (firstHeld.eq (earlier held))
      obtain ⟨_, _, _, _, parsed⟩ := firstHeld
      exact coarse_of_document_eq (distinct _ kept) (distinct_of_parse parsed) (unchanged.trans stored).symm
    · refine held.coarse (distinct _ kept) fun content read => ?_
      exact Disk.eq_of_read_write named (place ▸ dirty unchanged) read

/-- Saving the manifest writes its file and no other. -/
theorem follows_saveManifest (place : ∀ manifest, last.manifest = some manifest → manifest.path = target.child fileName)
    (save : saveManifest.run last = (.ok (), saved)) :
    ProgressFollows (fun _ => False) (· = fileName) last saved := by
  obtain ⟨named, own⟩ := isNamed_manifest target
  cases Saves.of_run save with
  | quiet => exact Disk.Follows.refl _
  | written held dirty wrote =>
    rw [place _ held] at wrote
    exact Disk.follows_write named wrote (.inr own)

/-! ## What is left -/

/-- Nothing is left in a project of what the rule of a feature takes out of the manifest, and types nowhere. -/
structure Family.IsShorn (family : Family) (target : Path) (rule : Rule) (disk : Disk) : Prop where
  pruned : ∀ data, Holds disk (target.child fileName) (.object data) → rule.Pruned data
  typeless : rule.transpile = true → ∀ data, Holds disk (target.child fileName) (.object data) → family.Typeless data
  stripped : rule.transpile = true → Stripped target disk

/-- What is known of a project after a removal, of a feature that is off. -/
structure Family.Leaves (family : Family) (target : Path) (origin : Disk) (rule : Rule) (name : String) (removed : List String)
    (disk : Disk) : Prop where
  shorn : (rule.transpile = true → ∀ before : Progress, before.session.disk = origin → family.Strips target before) →
    family.IsShorn target rule disk
  untyped : rule.transpile = true → ∀ data, Holds disk (target.child fileName) (.object data) → family.IsUntyped data
  rid : name ∈ removed → family.IsShorn target rule disk ∧ rule.Cleared target disk

/-- The manifest is shorn of every feature that is off, unless the types could not be removed from the files. -/
theorem Family.leaves_of_processProject (packaged : family ∈ families) (tree : session.disk.IsTree)
    (ran : (family.processProject target selection).run session = (.ok result, final)) (found : family.rule? name = some rule)
    (off : name ∈ removalOrder family.features selection) :
    family.Leaves target session.disk rule name result.removed final.disk := by
  have tidy := isTidy_of_mem packaged
  have registered := isRegistered_of_mem packaged
  obtain ⟨distinctNames, first⟩ := typesFirst_removalOrder tidy.features selection
  obtain ⟨loaded, accounts, last, saved, load, removes, save, rfl, rfl⟩ := exists_removes_of_processProject registered ran
  have removal : (family.removeFeatures target selection).run loaded = (.ok (), last) := removes.run_eq
  have distinct : last.IsDistinct := removes.isDistinct (Begins.loaded load).isDistinct
  have begun : loaded.session.disk.IsTree := (disk_loadManifest load).symm ▸ tree
  obtain ⟨-, fresh⟩ := keeps_loadManifest target _ _ _ load
  have accounted := removes.accounted fresh
  have saves := follows_saveManifest
    (fun manifest held => (exists_loaded_of_removal load removal held).choose_spec.2.1) save
  have left {kept : Members → Prop} (coarse : ∀ {before after : Members}, kept before →
      (Value.object after).coarse = (Value.object before).coarse → kept after)
      (last : ∀ manifest, last.manifest = some manifest → kept manifest.data) (data : Members)
      (held : Holds saved.session.disk (target.child fileName) (.object data)) : kept data := by
    obtain ⟨manifest, some_, same⟩ := tidy.exists_manifest_of_holds load distinct removal save held
    exact coarse (last manifest some_) same
  have shorn {account : Account} (mem : account ∈ accounts) (own : family.rule? account.name = some rule)
      (strips : rule.transpile = true → family.Strips target loaded) : family.IsShorn target rule saved.session.disk := by
    refine ⟨left Rule.Pruned.coarse (removes.forall_pruned tidy.toIsOrdered first account mem rule own strips),
      fun transpile => left Typeless.coarse (removes.typeless tidy.toIsOrdered first mem own transpile (strips transpile)),
      fun transpile => ?_⟩
    refine (removes.stripped tidy begun first mem own transpile (strips transpile)).later saves (by decide)
      fun path convertible => ⟨id, fun same => ?_⟩
    rw [isConvertible, Path.suffix, same] at convertible
    exact absurd convertible (by decide)
  have named : name ∈ accounts.map Account.name := by
    rw [removes.named]
    exact List.mem_filter.mpr ⟨off, by rw [found]; rfl⟩
  obtain ⟨account, mem, rfl⟩ := List.mem_map.mp named
  refine ⟨fun strips => ?_, fun transpile => ?_, fun removed => ?_⟩
  · exact shorn mem found fun transpile => strips transpile loaded (disk_loadManifest load)
  · exact left IsUntyped.coarse (removes.isUntyped tidy.toIsOrdered first mem found transpile)
  · rw [saveManifest_result save, accounted.removed] at removed
    obtain ⟨account', mem', same⟩ := List.mem_map.mp removed
    obtain ⟨mem', clean⟩ := List.mem_filter.mp mem'
    rw [Option.isNone_iff_eq_none] at clean
    rw [← same] at found
    refine ⟨shorn mem' found fun transpile => ?_, ?_⟩
    · obtain ⟨_, _, _, began, _⟩ := removes.exists_first tidy.toIsOrdered first mem' found transpile
      exact began.strips clean found transpile
    · exact (removes.cleared tidy first account' mem' clean rule found).later
        (tidy.removed_named (mem_of_rule? found) target) saves

end Scaffold.Project
