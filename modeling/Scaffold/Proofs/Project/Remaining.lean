import Scaffold.Proofs.Project.Failing
import Scaffold.Proofs.Project.Sections
import Scaffold.Proofs.Project.Sparing

/-! # What remains of the manifest

When every feature that is off was removed, the manifest is known in closed form: each section is without the keys
that the rules of these features name, and without types the scripts are rewritten and the packages that are needed
anyway are there. The rest is as it was. The closed form does not depend on the order of the features, so neither does
the manifest, as long as types are removed first.
-/

namespace Scaffold.Project

open Scaffold.Text Scaffold.Files Scaffold.Json Stateful Processing Manifest

variable {family : Family} {target : Path} {selection : Selection} {manifest : Manifest} {data part : Members}
variable {off names : List String} {before last : Progress}

/-! ## The closed form -/

/-- The keys that a rule names for a section. -/
def Rule.named (rule : Rule) (sectionName : String) : List String :=
  if sectionName = "dependencies" then rule.dependencies
  else if sectionName = "devDependencies" then rule.devDependencies
  else if sectionName = "scripts" then rule.scripts
  else []

/-- The keys that the rules of features name for a section. -/
def Family.named (family : Family) (off : List String) (sectionName : String) : List String :=
  (off.filterMap family.rule?).flatMap fun rule => rule.named sectionName

/-- What remains of the members of a section. -/
def Family.remainingPart (family : Family) (off : List String) (sectionName : String) (part : Members) : Members :=
  let kept := part.filter fun member => member.1 ∉ family.named off sectionName
  if typesFeature ∉ off then kept
  else if sectionName = "scripts" then kept.filterMap (rewriteScript untypedScript)
  else if sectionName = "devDependencies" then
    let untyped := kept.filter fun member => member.1 ∉ family.typeDependencies
    untyped ++ missing family.retainedDependencies untyped
  else kept

/-- What remains of a document. -/
def Family.remaining (family : Family) (off : List String) (data : Members) : Members :=
  amend (family.remainingPart off)
    (if typesFeature ∈ off ∧ family.retainedDependencies ≠ [] then withSection "devDependencies" data else data)

theorem Family.mem_named {sectionName key : String} :
    key ∈ family.named off sectionName ↔ ∃ name ∈ off, ∃ rule, family.rule? name = some rule ∧ key ∈ rule.named sectionName := by
  unfold named
  simp only [List.mem_flatMap, List.mem_filterMap]
  constructor
  · rintro ⟨rule, ⟨name, mem, found⟩, own⟩
    exact ⟨name, mem, rule, found, own⟩
  · rintro ⟨name, mem, rule, found, own⟩
    exact ⟨rule, ⟨name, mem, found⟩, own⟩

/-- Only which features are off matters. -/
theorem Family.remaining_congr (same : ∀ name, name ∈ names ↔ name ∈ off) (data : Members) :
    family.remaining names data = family.remaining off data := by
  have named (sectionName key : String) : key ∈ family.named names sectionName ↔ key ∈ family.named off sectionName := by
    simp only [mem_named, same]
  unfold remaining
  simp only [same]
  congr 1
  funext sectionName part
  unfold remainingPart
  simp only [named, same]

/-! ## The changes of rules -/

theorem Rule.data_pruneManifest (nodup : manifest.data.keys.Nodup) (rule : Rule) :
    (rule.pruneManifest manifest).data =
      amend (fun sectionName => List.filter fun member => member.1 ∉ rule.named sectionName) manifest.data := by
  unfold Rule.pruneManifest
  dsimp only
  rw [data_removeKeys, data_removeKeys, data_removeKeys nodup, amend_amend, amend_amend]
  · congr 1
    funext sectionName part
    unfold within named
    split
    · next same => subst same; rfl
    · split
      · next same => subst same; rfl
      · split <;> simp
  · rw [data_removeKeys nodup, keys_amend]
    exact nodup
  · rw [data_removeKeys, keys_amend, data_removeKeys nodup, keys_amend]
    · exact nodup
    · rw [data_removeKeys nodup, keys_amend]
      exact nodup

theorem data_foldl_pruneManifest (rules : List Rule) (nodup : manifest.data.keys.Nodup) :
    (rules.foldl (fun manifest rule => rule.pruneManifest manifest) manifest).data =
      amend (fun sectionName => List.filter fun member => member.1 ∉ rules.flatMap fun rule => rule.named sectionName)
        manifest.data := by
  induction rules generalizing manifest with
  | nil => exact (amend_eq_self (by simp) _).symm
  | cons rule later prunes =>
    have first := rule.data_pruneManifest nodup
    rw [List.foldl_cons, prunes (by rw [first, keys_amend]; exact nodup), first, amend_amend]
    congr 1
    funext sectionName part
    rw [List.filter_filter, List.flatMap_cons]
    refine List.filter_congr fun member _ => ?_
    by_cases own : member.1 ∈ rule.named sectionName <;> simp [own]

theorem Family.data_untypeManifest (family : Family) (nodup : manifest.data.keys.Nodup) :
    (family.untypeManifest manifest).data =
      amend (fun sectionName part => within "scripts" (List.filterMap (rewriteScript untypedScript)) sectionName
        (within "devDependencies" (List.filter fun member => member.1 ∉ family.typeDependencies) sectionName part))
        manifest.data := by
  have first := data_removeKeys nodup "devDependencies" family.typeDependencies
  unfold untypeManifest
  rw [data_rewriteScripts (by rw [first, keys_amend]; exact nodup), first, amend_amend]

theorem Family.data_retainPackages (family : Family) (nodup : manifest.data.keys.Nodup)
    (isSection : IsSection manifest.data "devDependencies") (distinct : (family.retainedDependencies.map Prod.fst).Nodup) :
    (family.retainPackages (family.untypeManifest manifest)).data =
      amend (fun sectionName part =>
        within "devDependencies" (fun part => part ++ missing family.retainedDependencies part) sectionName
          (within "scripts" (List.filterMap (rewriteScript untypedScript)) sectionName
            (within "devDependencies" (List.filter fun member => member.1 ∉ family.typeDependencies) sectionName part)))
        (if family.retainedDependencies ≠ [] then withSection "devDependencies" manifest.data else manifest.data) := by
  have first := family.data_untypeManifest nodup
  unfold retainPackages
  rw [data_foldl_ensureDependency (by rw [first, keys_amend]; exact nodup)
    (by rw [first]; exact isSection_amend isSection _) distinct, first]
  split
  · next none_ =>
    rw [if_neg (not_not_intro none_), none_]
    congr 1
    funext sectionName part
    unfold within missing
    split <;> simp
  · rw [withSection_amend (by simp [within]), amend_amend]

theorem filter_filterMap_rewriteScript (keys : List String) (rewrite : String → String → Option String) (scripts : Members) :
    (scripts.filterMap (rewriteScript rewrite)).filter (fun member => member.1 ∉ keys) =
      (scripts.filter fun member => member.1 ∉ keys).filterMap (rewriteScript rewrite) := by
  rw [List.filter_filterMap, List.filterMap_filter]
  refine List.filterMap_congr fun script _ => ?_
  cases changed : rewriteScript rewrite script with
  | none => split <;> rfl
  | some other => rw [Option.filter_some, (rewriteScript_eq_some changed).1]

/-- Packages that no rule names are missing after their keys are removed exactly when they were missing before, and
are not removed themselves. -/
theorem filter_append_missing {keys : List String} {packages : List (String × String)}
    (apart : ∀ package ∈ packages, package.1 ∉ keys) (part : Members) :
    (part ++ missing packages part).filter (fun member => member.1 ∉ keys) =
      (part.filter fun member => member.1 ∉ keys) ++ missing packages (part.filter fun member => member.1 ∉ keys) := by
  have stays : (missing packages part).filter (fun member => member.1 ∉ keys) = missing packages part := by
    refine List.filter_eq_self.mpr fun member mem => ?_
    obtain ⟨package, held, rfl⟩ := List.mem_map.mp mem
    exact decide_eq_true (apart package (List.mem_filter.mp held).1)
  rw [List.filter_append, stays]
  congr 1
  unfold missing
  congr 1
  refine List.filter_congr fun package mem => ?_
  rw [decide_eq_decide, not_iff_not, Members.keys, Members.keys]
  constructor
  · intro held
    obtain ⟨member, inside, own⟩ := List.mem_map.mp held
    exact List.mem_map.mpr ⟨member, List.mem_filter.mpr ⟨inside, decide_eq_true (own ▸ apart package mem)⟩, own⟩
  · exact fun held => (List.filter_sublist.map _).subset held

/-! ## A whole removal -/

/-- Types are removed by the feature of types alone, and the packages that are needed anyway are different ones that
no rule names. -/
structure Family.IsOrdered (family : Family) : Prop extends family.IsRetaining where
  transpile : ∀ entry ∈ family.rules, entry.2.transpile = true ↔ entry.1 = typesFeature
  distinct : (family.retainedDependencies.map Prod.fst).Nodup
  features : (family.features.map Feature.name).Nodup

theorem isOrdered_of_mem (packaged : family ∈ families) : family.IsOrdered := by
  rcases List.mem_cons.mp packaged with rfl | packaged
  · exact ⟨⟨by decide, by decide⟩, by decide, by decide, by decide⟩
  · obtain rfl := List.mem_singleton.mp packaged
    exact ⟨⟨by decide, by decide⟩, by decide, by decide, by decide⟩

theorem isRegistered_of_mem (packaged : family ∈ families) : family.isRegistered = true := by
  rcases List.mem_cons.mp packaged with rfl | packaged
  · decide
  · obtain rfl := List.mem_singleton.mp packaged
    decide

theorem Family.IsOrdered.notMem_named (ordered : family.IsOrdered) {package : String × String}
    (mem : package ∈ family.retainedDependencies) (off : List String) : package.1 ∉ family.named off "devDependencies" := by
  intro named
  obtain ⟨name, -, rule, found, own⟩ := Family.mem_named.mp named
  exact (ordered.retained _ (mem_of_rule? found) package mem).2.1 own

/-- Types, if they are removed, are removed first. -/
def TypesFirst (names : List String) : Prop := typesFeature ∉ names ∨ ∃ others, names = typesFeature :: others ∧ typesFeature ∉ others

/-- All changes of rules, types first, leave the closed form. -/
theorem Family.IsOrdered.data_foldl_alterManifest (ordered : family.IsOrdered) (nodup : manifest.data.keys.Nodup)
    (isSection : IsSection manifest.data "devDependencies") (first : TypesFirst names)
    (ruled : ∀ name ∈ names, (family.rule? name).isSome = true) :
    ((names.filterMap family.rule?).foldl (fun manifest rule => family.alterManifest rule manifest) manifest).data =
      family.remaining names manifest.data := by
  -- but for the first of them, rules do nothing else than remove keys
  have plain {names : List String} (other : typesFeature ∉ names) (manifest : Manifest) :
      (names.filterMap family.rule?).foldl (fun manifest rule => family.alterManifest rule manifest) manifest =
        (names.filterMap family.rule?).foldl (fun manifest rule => rule.pruneManifest manifest) manifest := by
    induction names generalizing manifest with
    | nil => rfl
    | cons name later folds =>
      obtain ⟨apart, others⟩ := not_or.mp (mt List.mem_cons.mpr other)
      rw [List.filterMap_cons]
      split
      · exact folds others manifest
      · next rule found =>
        have still : rule.transpile ≠ true := fun transpile =>
          apart ((ordered.transpile _ (mem_of_rule? found)).mp transpile).symm
        rw [List.foldl_cons, List.foldl_cons, folds others, alterManifest, if_neg still]
  rcases first with other | ⟨others, rfl, other⟩
  · rw [plain other, data_foldl_pruneManifest _ nodup, remaining, if_neg fun both => other both.1]
    congr 1
    funext sectionName part
    rw [remainingPart, if_pos other]
    rfl
  · obtain ⟨rule, found⟩ := Option.isSome_iff_exists.mp (ruled typesFeature List.mem_cons_self)
    have transpile : rule.transpile = true := (ordered.transpile _ (mem_of_rule? found)).mpr rfl
    have begun := family.data_retainPackages nodup isSection ordered.distinct
    have nodupBegun : (family.retainPackages (family.untypeManifest manifest)).data.keys.Nodup := by
      rw [begun, keys_amend]
      split
      · exact nodup_keys_withSection nodup
      · exact nodup
    have folded : ((typesFeature :: others).filterMap family.rule?).foldl
        (fun manifest rule => family.alterManifest rule manifest) manifest =
        ((typesFeature :: others).filterMap family.rule?).foldl (fun manifest rule => rule.pruneManifest manifest)
          (family.retainPackages (family.untypeManifest manifest)) := by
      rw [List.filterMap_cons_some found, List.foldl_cons, List.foldl_cons, plain other, alterManifest, if_pos transpile]
    rw [folded, data_foldl_pruneManifest _ nodupBegun, begun, amend_amend, remaining]
    have typesOff : typesFeature ∈ typesFeature :: others := List.mem_cons_self
    simp only [typesOff, true_and]
    congr 1
    funext sectionName part
    rw [remainingPart, if_neg (not_not_intro typesOff)]
    change List.filter (fun member : String × Value => decide (member.1 ∉ family.named (typesFeature :: others) sectionName)) _ = _
    unfold within
    split
    · next same =>
      subst same
      rw [if_neg (by decide), if_neg (by decide)]
      dsimp only
      rw [filter_append_missing fun package mem => ordered.notMem_named mem _, List.filter_filter, List.filter_filter]
      simp only [Bool.and_comm]
    · split
      · exact filter_filterMap_rewriteScript _ _ _
      · rfl

theorem edits_foldl_alterManifest (family : Family) (rules : List Rule) :
    Edits fun manifest => rules.foldl (fun manifest rule => family.alterManifest rule manifest) manifest := by
  induction rules with
  | nil => exact edits_id
  | cons rule later edits =>
    refine Edits.comp edits (?_ : Edits fun manifest => family.alterManifest rule manifest)
    unfold Family.alterManifest
    split
    · exact (edits_pruneManifest rule).comp ((edits_retainPackages family).comp (edits_untypeManifest family))
    · exact edits_pruneManifest rule

theorem Removes.manifest_eq {accounts : List Account} (removes : Removes family target names before accounts last)
    (clean : ∀ account ∈ accounts, account.failure = none) :
    last.manifest = before.manifest.map fun manifest =>
      (names.filterMap family.rule?).foldl (fun manifest rule => family.alterManifest rule manifest) manifest := by
  induction removes with
  | done => simp
  | unruled missing _ rest => rw [rest clean, List.filterMap_cons_none missing]
  | ruled first _ rest =>
    obtain ⟨own, others⟩ := List.forall_mem_cons.mp clean
    obtain ⟨rule, found, eq | ⟨failed, -⟩⟩ := first.manifest_eq
    · rw [rest others, eq, Option.map_map, List.filterMap_cons_some found]
      rfl
    · exact absurd own failed

/-- When all features are listed as removed, each has a rule, and none has failed. -/
theorem Removes.forall_removed {accounts : List Account} (removes : Removes family target names before accounts last)
    (fresh : before.result.removed = []) (nodup : names.Nodup) (removed : ∀ name ∈ names, name ∈ last.result.removed) :
    (∀ name ∈ names, (family.rule? name).isSome = true) ∧ ∀ account ∈ accounts, account.failure = none := by
  have accounted := removes.accounted fresh
  have distinct : (accounts.map Account.name).Nodup := by
    rw [accounted.named]
    exact nodup.filter _
  have clean (name : String) (mem : name ∈ names) : ∃ account ∈ accounts, account.failure.isNone = true ∧ account.name = name := by
    obtain ⟨account, held, own⟩ := List.mem_map.mp (accounted.removed ▸ removed name mem)
    exact ⟨account, (List.mem_filter.mp held).1, (List.mem_filter.mp held).2, own⟩
  have named {account : Account} (mem : account ∈ accounts) :
      account.name ∈ names ∧ (family.rule? account.name).isSome = true := by
    have own : account.name ∈ accounts.map Account.name := List.mem_map_of_mem mem
    rw [accounted.named] at own
    exact List.mem_filter.mp own
  constructor
  · intro name mem
    obtain ⟨account, held, -, rfl⟩ := clean name mem
    exact (named held).2
  · intro account mem
    obtain ⟨other, held, isNone, same⟩ := clean account.name (named mem).1
    obtain rfl := List.inj_on_of_nodup_map distinct held mem same
    exact Option.isNone_iff_eq_none.mp isNone

theorem Family.IsOrdered.manifest_forEach (ordered : family.IsOrdered) (registered : family.isRegistered = true)
    (held : before.manifest = some manifest) (keys : manifest.data.keys.Nodup)
    (isSection : IsSection manifest.data "devDependencies") (fresh : before.result.removed = []) (nodup : names.Nodup)
    (first : TypesFirst names) (ran : (forEach (family.removeFeature target) names).run before = (.ok (), last))
    (removed : ∀ name ∈ names, name ∈ last.result.removed) :
    last.manifest = some { manifest with data := family.remaining names manifest.data } := by
  rcases removes_or_interrupted registered target names before with ⟨accounts, last', removes⟩ | ⟨failure, stopped, interrupted⟩
  · obtain ⟨-, rfl⟩ := Prod.mk.inj (removes.run_eq.symm.trans ran)
    obtain ⟨ruled, clean⟩ := removes.forall_removed fresh nodup removed
    rw [removes.manifest_eq clean, held, Option.map_some, ← ordered.data_foldl_alterManifest keys isSection first ruled]
    exact congrArg some (edits_foldl_alterManifest family _ manifest)
  · rw [interrupted.run_eq] at ran
    cases ran

theorem saveManifest_run_ok {before saved : Progress} {value : Unit} (ran : saveManifest.run before = (.ok value, saved)) :
    saved.result = before.result ∧ ∀ manifest, before.manifest = some manifest →
      (manifest.text = manifest.stored → saved.session.disk = before.session.disk) ∧
      (manifest.text ≠ manifest.stored →
        before.session.disk.write manifest.path (encodeChars manifest.text.toList) = .ok saved.session.disk) := by
  cases Saves.of_run ran with
  | quiet clean =>
    refine ⟨rfl, fun manifest held => ⟨fun _ => rfl, fun changed => ?_⟩⟩
    exact absurd changed (of_decide_eq_false (clean manifest held))
  | written held dirty wrote =>
    refine ⟨rfl, fun other same => ?_⟩
    obtain rfl := Option.some.inj (held.symm.trans same)
    exact ⟨fun clean => absurd clean (of_decide_eq_true dirty), fun _ => wrote⟩

/-- Types come first in the order in which features are removed. -/
theorem typesFirst_removalOrder (distinct : (family.features.map Feature.name).Nodup) (selection : Selection) :
    (removalOrder family.features selection).Nodup ∧ TypesFirst (removalOrder family.features selection) := by
  unfold removalOrder removalNames
  dsimp only
  split
  · have whole : (typesFeature :: (family.features.map Feature.name).erase typesFeature).Nodup :=
      List.nodup_cons.mpr ⟨distinct.not_mem_erase, distinct.erase _⟩
    refine ⟨whole.filter _, ?_⟩
    have others : typesFeature ∉ ((family.features.map Feature.name).erase typesFeature).filter fun name => !selection.isOn name :=
      fun mem => distinct.not_mem_erase (List.mem_filter.mp mem).1
    rw [List.filter_cons]
    split
    · exact .inr ⟨_, rfl, others⟩
    · exact .inl others
  · next absent => exact ⟨distinct.filter _, .inl fun mem => absent (List.mem_filter.mp mem).1⟩

/-- When every feature that is off has been removed, the manifest is what remains of it. This is so in memory for any
order of the features, types first, also when the manifest is given and yielded; when it is loaded and saved here, its
file contains what remains, or is as it was when that is the same document. -/
theorem Family.remaining_is_left (packaged : family ∈ families) (keys : data.keys.Nodup)
    (isSection : IsSection data "devDependencies") (target : Path) (selection : Selection) :
    (∀ {names : List String} {before last : Progress} {manifest : Manifest}, before.manifest = some manifest →
      manifest.data = data → before.result.removed = [] → names.Perm (removalOrder family.features selection) →
      TypesFirst names → (forEach (family.removeFeature target) names).run before = (.ok (), last) →
      (∀ name ∈ names, name ∈ last.result.removed) →
      last.manifest = some { manifest with data := family.remaining (removalOrder family.features selection) data }) ∧
    (∀ {session final : Session} {manifest : Manifest} {given : Option Manifest} {result : Result}, manifest.data = data →
      (family.processLoaded target selection manifest).run session = (.ok (result, given), final) →
      (∀ name ∈ removalOrder family.features selection, name ∈ result.removed) →
      given = some { manifest with data := family.remaining (removalOrder family.features selection) data }) ∧
    ∀ {session final : Session} {place : Location} {result : Result}, session.disk.IsTree →
      Holds session.disk (target.child fileName) (.object data) → session.disk.locate (target.child fileName) = .ok place →
      (family.processProject target selection).run session = (.ok result, final) →
      (∀ name ∈ removalOrder family.features selection, name ∈ result.removed) →
      final.disk.entry? place =
        if document (.object (family.remaining (removalOrder family.features selection) data)) = document (.object data) then
          session.disk.entry? place
        else some (.file (encodeChars
          (document (.object (family.remaining (removalOrder family.features selection) data))).toList)) := by
  have ordered := isOrdered_of_mem packaged
  have registered := isRegistered_of_mem packaged
  obtain ⟨nodup, first⟩ := typesFirst_removalOrder ordered.features selection
  refine ⟨?_, ?_, ?_⟩
  · rintro names before last manifest held rfl fresh perm first ran removed
    rw [ordered.manifest_forEach registered held keys isSection fresh (perm.nodup_iff.mpr nodup) first ran removed,
      remaining_congr fun name => perm.mem_iff]
  · rintro session final manifest given result rfl ran removed
    rw [processLoaded_run] at ran
    rcases removal : (family.removeFeatures target selection).run (family.start target session (some manifest))
      with ⟨failure | value, last⟩
    · rw [removal] at ran
      cases ran
    · rw [removal] at ran
      cases ran
      exact ordered.manifest_forEach registered rfl keys isSection rfl nodup first removal removed
  · intro session final place result tree held located ran removed
    obtain ⟨here, base, -⟩ := Disk.exists_of_locate_child (Disk.leadsDown_of_isPlain (by decide)) located
    obtain rfl := Disk.eq_of_locate_child (by decide) base located
    have file : ∃ content, session.disk.entry? (here ++ [fileName]) = some (.file content) := by
      obtain ⟨content, -, read, -⟩ := held
      obtain ⟨place, located', file⟩ := Disk.read_eq_ok_iff.mp read
      obtain rfl := Except.ok.inj (located.symm.trans located')
      exact ⟨content, file⟩
    obtain ⟨content, file⟩ := file
    have guarded := isGuarded_of_held tree file List.getLast?_concat
    have load : (loadManifest target).run (family.start target session none) =
        (.ok (), family.start target session (some (ofData (target.child fileName) data))) := by
      rw [loadManifest_run, start, inDirectory_run_of_holds held]
      rfl
    rw [processProject_run, load] at ran
    dsimp only at ran
    rcases removal : (family.removeFeatures target selection).run
      (family.start target session (some (ofData (target.child fileName) data))) with ⟨failure | value, last⟩
    · rw [removal] at ran
      cases ran
    · rw [removal] at ran
      dsimp only at ran
      obtain ⟨comes, spared⟩ := (isSparing_of_mem packaged).keeps_forEach guarded base List.prefix_rfl _ _ _ _ removal (.refl _)
      rcases save : saveManifest.run last with ⟨failure | value, saved⟩
      · rw [save] at ran
        cases ran
      · rw [save] at ran
        cases ran
        obtain ⟨same, writes⟩ := saveManifest_run_ok save
        rw [same] at removed
        have left := ordered.manifest_forEach registered rfl keys isSection rfl nodup first removal removed
        obtain ⟨clean, dirty⟩ := writes _ left
        have untouched : last.session.disk.entry? (here ++ [fileName]) = session.disk.entry? (here ++ [fileName]) := spared.entry?_eq
        split
        · next unchanged => rw [clean unchanged, untouched]
        · next changed =>
          have wrote := dirty changed
          obtain ⟨location, reached, -⟩ := Disk.write_eq_put wrote
          obtain rfl := Disk.eq_of_locate_child (by decide) base (comes.locate reached)
          exact (Disk.grows_write reached wrote).2

/-- A document with a check of types and a preprocessor, and what remains of it without both. -/
def checkedStyles : Members :=
  [("scripts", .object [("type-check", .text "nuxi typecheck"), ("dev", .text "nuxi dev")]),
    ("devDependencies", .object [("sass", .text "1")])]

def plainStyles : Members :=
  [("scripts", .object [("dev", .text "nuxi dev")]),
    ("devDependencies", .object [("typescript", .text "^5.0.0"), ("vue-tsc", .text "^1.0.0")])]

/-- A project with nothing but a manifest. -/
def styledProject : Session :=
  ⟨⟨[], [([fileName], .file (encodeChars (document (.object checkedStyles)).toList))]⟩, [], []⟩

def withoutStyles : Selection := ((Selection.default nuxt3.features).set typesFeature false).set "sass" false

private def loadedStyles : Progress := nuxt3.start ⟨false, []⟩ styledProject (some (ofData ⟨false, [fileName]⟩ checkedStyles))

/-- What is left after the types have been removed, and after the preprocessor too. -/
private def typelessStyles : Progress :=
  { loadedStyles with manifest := some { ofData ⟨false, [fileName]⟩ checkedStyles with data :=
    [("scripts", .object [("dev", .text "nuxi dev")]),
      ("devDependencies", .object [("sass", .text "1"), ("typescript", .text "^5.0.0"), ("vue-tsc", .text "^1.0.0")])] } }

private def removedStyles : Progress :=
  { loadedStyles with
    manifest := some { ofData ⟨false, [fileName]⟩ checkedStyles with data := plainStyles }
    result := { loadedStyles.result with removed := [typesFeature] } }

private theorem exists_removes_styles :
    ∃ accounts last, Removes nuxt3 ⟨false, []⟩ [typesFeature, "sass"] loadedStyles accounts last ∧
      last = { removedStyles with result := { removedStyles.result with removed := [typesFeature, "sass"] } } := by
  have first : ∃ rule, nuxt3.rule? typesFeature = some rule ∧
      (nuxt3.applyRule ⟨false, []⟩ rule).run loadedStyles = (.ok (), typelessStyles) := ⟨_, rfl, rfl⟩
  have second : ∃ rule, nuxt3.rule? "sass" = some rule ∧ (nuxt3.applyRule ⟨false, []⟩ rule).run
      { typelessStyles with result := { typelessStyles.result with removed := typelessStyles.result.removed ++ [typesFeature] } } =
        (.ok (), removedStyles) := ⟨_, rfl, rfl⟩
  obtain ⟨types, known, ran⟩ := first
  obtain ⟨styles, known', ran'⟩ := second
  exact ⟨[⟨typesFeature, [], none⟩, ⟨"sass", [], none⟩], _,
    .ruled (.removed known ran rfl) (.ruled (.removed known' ran' rfl) .done), rfl⟩

/-- Types and a preprocessor are removed; the packages of types are there nevertheless. -/
theorem plain_styles_are_left :
    nuxt3 ∈ families ∧ checkedStyles.keys.Nodup ∧ IsSection checkedStyles "devDependencies" ∧
      styledProject.disk.IsTree ∧ Holds styledProject.disk ⟨false, [fileName]⟩ (.object checkedStyles) ∧
      ∃ result final, (nuxt3.processProject ⟨false, []⟩ withoutStyles).run styledProject = (.ok result, final) ∧
        (∀ name ∈ removalOrder nuxt3.features withoutStyles, name ∈ result.removed) ∧
        final.disk.entry? [fileName] = some (.file (encodeChars (document (.object plainStyles)).toList)) := by
  have packaged : nuxt3 ∈ families := List.mem_cons_of_mem _ List.mem_cons_self
  have keys : checkedStyles.keys.Nodup := by decide
  have isSection : IsSection checkedStyles "devDependencies" := by
    intro value found
    cases found
    exact ⟨_, rfl⟩
  have read : styledProject.disk.read ⟨false, [fileName]⟩ = .ok (encodeChars (document (.object checkedStyles)).toList) := by
    rfl
  have held : Holds styledProject.disk ⟨false, [fileName]⟩ (.object checkedStyles) :=
    holds_document (by simp [checkedStyles, Value.Distinct]) (by decide) read
  have tree : styledProject.disk.IsTree := by
    refine ⟨fun old mem name held => ?_, by simp [styledProject], fun old mem => ?_, rfl⟩
    all_goals obtain rfl := List.mem_singleton.mp mem
    · obtain rfl := List.mem_singleton.mp held
      decide
    · rfl
  have off : removalOrder nuxt3.features withoutStyles = [typesFeature, "sass"] := by decide +kernel
  obtain ⟨accounts, last, removes, last_eq⟩ := exists_removes_styles
  have removal : (nuxt3.removeFeatures ⟨false, []⟩ withoutStyles).run loadedStyles = (.ok (), last) := by
    unfold Family.removeFeatures
    rw [off]
    exact removes.run_eq
  have kept : last.manifest = removedStyles.manifest := by rw [last_eq]
  have there : last.session.disk.read ⟨false, [fileName]⟩ = styledProject.disk.read ⟨false, [fileName]⟩ := by
    rw [last_eq]
    rfl
  obtain ⟨saved, save, same, -⟩ := exists_saveManifest_run kept (there.trans read)
  obtain ⟨-, ran⟩ := Family.processProject_run_of_ok held removal save
  have all : ∀ name ∈ removalOrder nuxt3.features withoutStyles, name ∈ saved.result.removed := by
    rw [off, same, last_eq]
    exact fun _ => id
  have located : styledProject.disk.locate (Path.child ⟨false, []⟩ fileName) = .ok [fileName] := by decide
  have left := (Family.remaining_is_left packaged keys isSection ⟨false, []⟩ withoutStyles).2.2 tree held located ran all
  have plain : nuxt3.remaining [typesFeature, "sass"] checkedStyles = plainStyles := by with_unfolding_all rfl
  have changed : document (.object plainStyles) ≠ document (.object checkedStyles) := by decide +kernel
  rw [off, plain, if_neg changed] at left
  exact ⟨packaged, keys, isSection, tree, held, _, _, ran, all, left⟩

end Scaffold.Project
