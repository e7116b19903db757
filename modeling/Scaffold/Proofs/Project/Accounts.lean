import Scaffold.Proofs.Project.Setbacks

/-! # Accounts of the features that are off

A run over the features that are off gives an account of each one that has a rule: it was removed, or a
warning with its name tells why it was not, and the next one is tried in both cases. What ends a run is a
fault in the removal of types, or a warning that cannot be shown.
-/

namespace Scaffold.Project

open Scaffold.Text Scaffold.Files Stateful Processing

/-! ## What a rule does to the result -/

/-- The result of a removal has gained warnings and converted files, and is otherwise the same. -/
def Annotates (before after : Progress) : Prop :=
  (∃ notes, after.result.warnings = before.result.warnings ++ notes) ∧
    after.result.removed = before.result.removed

instance : Std.Refl Annotates where
  refl _ := ⟨⟨[], by simp⟩, rfl⟩

instance : Trans Annotates Annotates Annotates where
  trans {_ _ _} earlier later := by
    obtain ⟨⟨notes, warned⟩, removed⟩ := earlier
    obtain ⟨⟨others, warnedAgain⟩, removedAgain⟩ := later
    exact ⟨⟨notes ++ others, by rw [warnedAgain, warned, List.append_assoc]⟩, removedAgain.trans removed⟩

/-- Any two sessions. -/
def AnySessions (_ _ : Session) : Prop := True

instance : Std.Refl AnySessions where
  refl _ := trivial

instance : Trans AnySessions AnySessions AnySessions where
  trans _ _ := trivial

theorem keeps_anySessions {α : Type} (operation : Operation α) : Keeps operation AnySessions := fun _ _ _ _ => trivial

theorem lifts_annotates : Lifts AnySessions Annotates where
  session _ := ⟨⟨[], by simp⟩, rfl⟩
  result notes removed := ⟨notes, removed⟩
  disk _ := trivial

theorem allows_annotates (change : Manifest → Manifest) : Allows Annotates change := fun _ => ⟨⟨[], by simp⟩, rfl⟩

theorem Family.annotates_applyRule (family : Family) (target : Path) (rule : Rule) :
    Keeps (family.applyRule target rule) Annotates := by
  refine keeps_applyRule (fun _ => ?_) (keeps_finishRule (allows_annotates _) (keeps_forEach fun step _ => ?_)
    (keeps_forEach fun _ _ => ?_))
  · exact keeps_stripTypes (allows_annotates _) (allows_annotates _) (keeps_stripFiles lifts_annotates
      (fun _ _ _ _ _ => keeps_anySessions _) (keeps_anySessions _) (keeps_anySessions _))
  · exact keeps_runStep lifts_annotates fun _ _ _ _ => keeps_anySessions _
  · exact keeps_removeMatches lifts_annotates fun _ _ => keeps_anySessions _

/-! ## Accounts -/

/-- What became of a feature: the warnings given while its rule was applied, and what stopped that. -/
structure Account where
  name : String
  notes : List String
  failure : Option Failure

/-- The warning about a feature that was not removed. -/
def featureWarning (name : String) (failure : Failure) : String := name ++ ": " ++ failure.message

/-- The warnings of an account, in the order in which they were given. -/
def Account.warnings (account : Account) : List String :=
  account.notes ++ (account.failure.map (featureWarning account.name)).toList

/-- A feature has a rule, and its rule ended in one of two ways: the feature counts as removed, or a
warning is shown and kept. -/
inductive Accounts (family : Family) (target : Path) : Progress → Account → Progress → Prop
  | removed {name : String} {rule : Rule} {notes : List String} {before after : Progress}
      (found : family.rule? name = some rule)
      (applied : (family.applyRule target rule).run before = (.ok (), after))
      (noted : after.result.warnings = before.result.warnings ++ notes) :
      Accounts family target before ⟨name, notes, none⟩
        { after with result := { after.result with removed := after.result.removed ++ [name] } }
  | warned {name : String} {rule : Rule} {notes : List String} {failure : Failure}
      {before after told : Progress} (found : family.rule? name = some rule)
      (failed : (family.applyRule target rule).run before = (.error failure, after))
      (noted : after.result.warnings = before.result.warnings ++ notes) (isLocal : failure.isLocal = true)
      (shown : (warn (featureWarning name failure)).run after = (.ok (), told)) :
      Accounts family target before ⟨name, notes, some failure⟩ told

/-- The accounts of features that are off, each begun where the one before has ended. -/
inductive Removes (family : Family) (target : Path) : List String → Progress → List Account → Progress → Prop
  | done {progress : Progress} : Removes family target [] progress [] progress
  | unruled {name : String} {later : List String} {before last : Progress} {accounts : List Account}
      (missing : family.rule? name = none) (rest : Removes family target later before accounts last) :
      Removes family target (name :: later) before accounts last
  | ruled {later : List String} {before after last : Progress} {account : Account} {accounts : List Account}
      (first : Accounts family target before account after) (rest : Removes family target later after accounts last) :
      Removes family target (account.name :: later) before (account :: accounts) last

/-- A feature ends the run: the removal of types meets a fault, or the warning about the feature cannot
be shown. -/
inductive Interrupts (family : Family) (target : Path) : String → Progress → Failure → Progress → Prop
  | applying {name : String} {rule : Rule} {failure : Failure} {before after : Progress}
      (found : family.rule? name = some rule) (strips : rule.transpile = true)
      (failed : (family.applyRule target rule).run before = (.error failure, after))
      (fault : Fault (target.child pageName) failure after.session.disk) :
      Interrupts family target name before failure after
  | telling {name : String} {rule : Rule} {failure : Failure} {fault : Console.MarkupFault}
      {before after : Progress} (found : family.rule? name = some rule)
      (failed : (family.applyRule target rule).run before = (.error failure, after))
      (isLocal : failure.isLocal = true)
      (malformed : Console.showMarkup (warningLine (featureWarning name failure)) = .error fault) :
      Interrupts family target name before (.markup fault) after

theorem warn_run (message : String) (progress : Progress) :
    (warn message).run progress =
      match Console.showMarkup (warningLine message) with
      | .ok text =>
        (.ok (), ⟨{ progress.session with shown := progress.session.shown ++ [.text (text ++ "\n")] },
          progress.manifest, { progress.result with warnings := progress.result.warnings ++ [message] }⟩)
      | .error fault => (.error (.markup fault), progress) := by
  change (perform (Operation.say (warningLine message)) >>= fun _ => addWarning message).run progress = _
  rw [bind_run, perform_run, say_run]
  cases Console.showMarkup (warningLine message) <;> rfl

theorem removeFeature_run_of_missing {family : Family} {name : String} (missing : family.rule? name = none)
    (target : Path) (progress : Progress) :
    (family.removeFeature target name).run progress = (.ok (), progress) := by
  unfold Family.removeFeature
  rw [missing]
  rfl

theorem removeFeature_run_of_rule {family : Family} {name : String} {rule : Rule}
    (found : family.rule? name = some rule) (target : Path) (progress : Progress) :
    (family.removeFeature target name).run progress =
      match (family.applyRule target rule).run progress with
      | (.ok (), after) =>
        (.ok (), { after with result := { after.result with removed := after.result.removed ++ [name] } })
      | (.error failure, after) =>
        if failure.isLocal then (warn (featureWarning name failure)).run after else (.error failure, after) := by
  unfold Family.removeFeature
  rw [found]
  dsimp only
  rw [bind_run, tryCatch_run, bind_run]
  rcases (family.applyRule target rule).run progress with ⟨failure | value, after⟩
  · cases isLocal : failure.isLocal <;> dsimp only <;> rw [isLocal] <;> rfl
  · rfl

/-- A feature without a rule is passed over; one with a rule is accounted for, or ends the run. -/
theorem Family.removeFeature_spec {family : Family} (registered : family.isRegistered = true) (target : Path)
    (name : String) (before : Progress) :
    (family.rule? name = none ∧ (family.removeFeature target name).run before = (.ok (), before)) ∨
      (∃ account after, account.name = name ∧ Accounts family target before account after ∧
        (family.removeFeature target name).run before = (.ok (), after)) ∨
      ∃ failure after, Interrupts family target name before failure after ∧
        (family.removeFeature target name).run before = (.error failure, after) := by
  cases found : family.rule? name with
  | none => exact .inl ⟨rfl, removeFeature_run_of_missing found target before⟩
  | some rule =>
    rw [removeFeature_run_of_rule found]
    right
    rcases ran : (family.applyRule target rule).run before with ⟨failure | value, after⟩
    · obtain ⟨⟨notes, noted⟩, -⟩ := family.annotates_applyRule target rule before _ after ran
      rcases family.stops_applyRule registered found target before failure after ran with isLocal | ⟨strips, fault⟩
      · dsimp only
        rw [if_pos isLocal]
        cases shown : Console.showMarkup (warningLine (featureWarning name failure)) with
        | ok text =>
          have told := warn_run (featureWarning name failure) after
          rw [shown] at told
          exact .inl ⟨⟨name, notes, some failure⟩, _, rfl, .warned found ran noted isLocal told, told⟩
        | error fault =>
          have untold := warn_run (featureWarning name failure) after
          rw [shown] at untold
          exact .inr ⟨_, after, .telling found ran isLocal shown, untold⟩
      · refine .inr ⟨failure, after, .applying found strips ran fault, ?_⟩
        simp only [fault.isLocal_eq_false, Bool.false_eq_true, if_false]
    · obtain ⟨⟨notes, noted⟩, -⟩ := family.annotates_applyRule target rule before _ after ran
      exact .inl ⟨⟨name, notes, none⟩, _, rfl, .removed found ran noted, rfl⟩

theorem Accounts.run_eq {family : Family} {target : Path} {before after : Progress} {account : Account}
    (accounts : Accounts family target before account after) :
    (family.removeFeature target account.name).run before = (.ok (), after) := by
  cases accounts with
  | removed found applied noted => rw [removeFeature_run_of_rule found, applied]
  | warned found failed noted isLocal shown =>
    rw [removeFeature_run_of_rule found, failed]
    dsimp only
    rw [if_pos isLocal, shown]

theorem Accounts.isSome_rule? {family : Family} {target : Path} {before after : Progress} {account : Account}
    (accounts : Accounts family target before account after) : (family.rule? account.name).isSome = true := by
  cases accounts with
  | removed found => rw [found, Option.isSome_some]
  | warned found => rw [found, Option.isSome_some]

theorem Interrupts.run_eq {family : Family} {target : Path} {name : String} {before after : Progress}
    {failure : Failure} (interrupts : Interrupts family target name before failure after) :
    (family.removeFeature target name).run before = (.error failure, after) := by
  cases interrupts with
  | applying found strips failed fault =>
    rw [removeFeature_run_of_rule found, failed]
    simp only [fault.isLocal_eq_false, Bool.false_eq_true, if_false]
  | telling found failed isLocal malformed =>
    rw [removeFeature_run_of_rule found, failed]
    dsimp only
    rw [if_pos isLocal, warn_run, malformed]

/-! ## A run over the features -/

/-- A run over features ends at one of them, after an account of each feature with a rule before it. -/
def Interrupted (family : Family) (target : Path) (names : List String) (before : Progress) (failure : Failure)
    (stopped : Progress) : Prop :=
  ∃ earlier name later accounts middle, names = earlier ++ name :: later ∧
    Removes family target earlier before accounts middle ∧ Interrupts family target name middle failure stopped

theorem forEach_run {α : Type} (step : α → Processing Unit) (item : α) (later : List α) (before : Progress) :
    (forEach step (item :: later)).run before =
      match (step item).run before with
      | (.ok (), after) => (forEach step later).run after
      | (.error failure, after) => (.error failure, after) := by
  rw [forEach, bind_run]
  rcases (step item).run before with ⟨failure | value, after⟩ <;> rfl

theorem Removes.run_eq {family : Family} {target : Path} {names : List String} {before last : Progress}
    {accounts : List Account} (removes : Removes family target names before accounts last) :
    (forEach (family.removeFeature target) names).run before = (.ok (), last) := by
  induction removes with
  | done => rfl
  | unruled missing _ ran => rw [forEach_run, removeFeature_run_of_missing missing, ← ran]
  | ruled first _ ran => rw [forEach_run, first.run_eq, ← ran]

theorem Interrupted.run_eq {family : Family} {target : Path} {names : List String} {before stopped : Progress}
    {failure : Failure} (interrupted : Interrupted family target names before failure stopped) :
    (forEach (family.removeFeature target) names).run before = (.error failure, stopped) := by
  obtain ⟨earlier, name, later, accounts, middle, rfl, removes, interrupts⟩ := interrupted
  induction removes with
  | done => rw [List.nil_append, forEach_run, interrupts.run_eq]
  | unruled missing _ ran =>
    rw [List.cons_append, forEach_run, removeFeature_run_of_missing missing, ← ran interrupts]
  | ruled first _ ran => rw [List.cons_append, forEach_run, first.run_eq, ← ran interrupts]

/-- A run either accounts for every feature with a rule, or is interrupted. -/
theorem Family.removes_or_interrupted {family : Family} (registered : family.isRegistered = true) (target : Path)
    (names : List String) (before : Progress) :
    (∃ accounts last, Removes family target names before accounts last) ∨
      ∃ failure stopped, Interrupted family target names before failure stopped := by
  induction names generalizing before with
  | nil => exact .inl ⟨[], before, .done⟩
  | cons name later rest =>
    rcases family.removeFeature_spec registered target name before with
      ⟨missing, -⟩ | ⟨account, after, rfl, first, -⟩ | ⟨failure, after, interrupts, -⟩
    · rcases rest before with ⟨accounts, last, removes⟩ | ⟨failure, stopped, interrupted⟩
      · exact .inl ⟨accounts, last, .unruled missing removes⟩
      · obtain ⟨earlier, other, others, accounts, middle, rfl, removes, interrupts⟩ := interrupted
        exact .inr ⟨failure, stopped, name :: earlier, other, others, accounts, middle, rfl,
          .unruled missing removes, interrupts⟩
    · rcases rest after with ⟨accounts, last, removes⟩ | ⟨failure, stopped, interrupted⟩
      · exact .inl ⟨account :: accounts, last, .ruled first removes⟩
      · obtain ⟨earlier, other, others, accounts, middle, rfl, removes, interrupts⟩ := interrupted
        exact .inr ⟨failure, stopped, account.name :: earlier, other, others, account :: accounts, middle, rfl,
          .ruled first removes, interrupts⟩
    · exact .inr ⟨failure, after, [], name, later, [], before, rfl, .done, interrupts⟩

/-- Every feature with a rule has one account. The features that were removed and the warnings are those
of the accounts, in their order. -/
structure Accounted (family : Family) (names : List String) (accounts : List Account) (loading : List String)
    (result : Result) : Prop where
  named : accounts.map Account.name = names.filter fun name => (family.rule? name).isSome
  removed : result.removed = (accounts.filter fun account => account.failure.isNone).map Account.name
  warned : result.warnings = loading ++ accounts.flatMap Account.warnings

theorem Accounts.result {family : Family} {target : Path} {before after : Progress} {account : Account}
    (accounts : Accounts family target before account after) :
    after.result.removed = before.result.removed ++
        ([account].filter fun account => account.failure.isNone).map Account.name ∧
      after.result.warnings = before.result.warnings ++ account.warnings := by
  cases accounts with
  | removed found applied noted =>
    obtain ⟨-, kept⟩ := family.annotates_applyRule target _ _ _ _ applied
    simp [kept, noted, Account.warnings]
  | warned found failed noted isLocal shown =>
    obtain ⟨-, kept⟩ := family.annotates_applyRule target _ _ _ _ failed
    rw [warn_run] at shown
    split at shown <;> cases shown
    simp [kept, noted, Account.warnings]

theorem Removes.result {family : Family} {target : Path} {names : List String} {before last : Progress}
    {accounts : List Account} (removes : Removes family target names before accounts last) :
    last.result.removed = before.result.removed ++
        (accounts.filter fun account => account.failure.isNone).map Account.name ∧
      last.result.warnings = before.result.warnings ++ accounts.flatMap Account.warnings := by
  induction removes with
  | done => simp
  | unruled missing _ rest => exact rest
  | ruled first _ rest =>
    obtain ⟨removed, warned⟩ := first.result
    obtain ⟨removedLater, warnedLater⟩ := rest
    constructor
    · rw [removedLater, removed, List.append_assoc, ← List.map_append, ← List.filter_append, List.singleton_append]
    · rw [warnedLater, warned, List.append_assoc, List.flatMap_cons]

theorem Removes.named {family : Family} {target : Path} {names : List String} {before last : Progress}
    {accounts : List Account} (removes : Removes family target names before accounts last) :
    accounts.map Account.name = names.filter fun name => (family.rule? name).isSome := by
  induction removes with
  | done => rfl
  | unruled missing _ rest => rw [List.filter_cons, missing, rest]; rfl
  | ruled first _ rest => rw [List.map_cons, List.filter_cons, if_pos first.isSome_rule?, rest]

theorem Removes.accounted {family : Family} {target : Path} {names : List String} {before last : Progress}
    {accounts : List Account} (removes : Removes family target names before accounts last)
    (fresh : before.result.removed = []) :
    Accounted family names accounts before.result.warnings last.result := by
  obtain ⟨removed, warned⟩ := removes.result
  exact ⟨removes.named, by rw [removed, fresh, List.nil_append], warned⟩

end Scaffold.Project
