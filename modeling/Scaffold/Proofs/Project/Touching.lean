import Scaffold.Proofs.Files.Frames
import Scaffold.Proofs.Project.Aftermath

/-! # What a removal can touch

The files that a removal rewrites, makes and removes are named by the rules of the features that are off, and the
removal of types takes care of the configuration files, the sources and the page. Every other file is afterwards as it
was, whether the removal ends or fails: the steps before a failure, too, stay within this footprint.
-/

namespace Scaffold.Project

open Scaffold.Text Scaffold.Files Scaffold.Json Stateful Processing Manifest

variable {origin disk : Disk} {footprint : Location → Prop} {path target : Path} {location : Location}
variable {family : Family} {selection : Selection} {session : Session} {old new : Bytes}

/-! ## Operations within a footprint -/

/-- The disk of a session comes from an origin as removals do it, and differs from it in a footprint only. -/
structure IsWithin (origin : Disk) (footprint : Location → Prop) (session : Session) : Prop where
  comes : ComesFrom origin session
  outside : Disk.KeepsOutside footprint origin session.disk

/-- A session that is within a footprint remains so. -/
def RemainsWithin (origin : Disk) (footprint : Location → Prop) (before after : Session) : Prop :=
  IsWithin origin footprint before → IsWithin origin footprint after

instance : Std.Refl (RemainsWithin origin footprint) where
  refl _ := id

instance : Trans (RemainsWithin origin footprint) (RemainsWithin origin footprint) (RemainsWithin origin footprint) where
  trans first second := second ∘ first

theorem remainsWithin_of_eq {before after : Session} (same : after.disk = before.disk) :
    RemainsWithin origin footprint before after :=
  fun within => ⟨by rw [ComesFrom, same]; exact within.comes, by rw [same]; exact within.outside⟩

/-- A file that is rewritten was there already, or it lies in the footprint. -/
theorem remainsWithin_rewrite {before : Session} (named : path.IsNamed)
    (own : ∀ {location content}, origin.locate path = .ok location → origin.entry? location = some (.file content) →
      footprint location)
    (read : before.disk.read path = .ok old) (written : before.disk.write path new = .ok disk) :
    RemainsWithin origin footprint before { before with disk := disk } := by
  rintro ⟨comes, outside⟩
  refine ⟨Disk.Follows.trans comes (Disk.follows_write named written (.inl ⟨trivial, old, read⟩)), ?_⟩
  obtain ⟨location, located, inside, -, rfl⟩ := Disk.write_eq_put written
  obtain ⟨reached, located', held⟩ := Disk.read_eq_ok_iff.mp read
  obtain rfl := Except.ok.inj (located.symm.trans located')
  refine outside.put inside (by_contra fun apart => apart ?_)
  exact own (comes.locate located) ((outside location apart).symm.trans held)

theorem keeps_within_action (named : path.IsNamed) (own : ∀ {location content}, origin.locate path = .ok location →
      origin.entry? location = some (.file content) → footprint location) (action : Action) (arguments : List String) :
    Keeps (action.run path arguments) (RemainsWithin origin footprint) := by
  intro session outcome next ran
  have edited := edited_action action path arguments session
  rw [ran] at edited
  cases edited with
  | left => exact id
  | rewrote read written => exact remainsWithin_rewrite named own read written

theorem keeps_within_changeText (named : path.IsNamed) (own : ∀ {location content}, origin.locate path = .ok location →
      origin.entry? location = some (.file content) → footprint location) (change : List Char → List Char) :
    Keeps (changeText path change) (RemainsWithin origin footprint) := by
  intro session outcome next ran
  rw [changeText_run] at ran
  split at ran
  · cases ran
    exact id
  · next read =>
    split at ran
    · cases ran
      exact id
    · split at ran
      · cases ran
        exact id
      · split at ran
        · cases ran
          exact id
        · next written =>
          cases ran
          exact remainsWithin_rewrite named own read written

theorem keeps_within_removePath (own : ∀ {location}, origin.locate path = .ok location → ∀ place, location <+: place →
      footprint place) : Keeps (Operation.removePath path) (RemainsWithin origin footprint) := by
  intro session outcome next ran
  cases ran
  rintro ⟨comes, outside⟩
  refine ⟨Disk.Follows.trans comes (Disk.follows_removePath session.disk path), fun place apart => ?_⟩
  refine Eq.trans ?_ (outside place apart)
  change Disk.entry? (session.disk.removePath path).2 place = session.disk.entry? place
  unfold Disk.removePath
  split
  · rfl
  · next location located =>
    split
    · exact Disk.entry?_remove_of_apart fun above => apart (own (comes.locate located) place above)
    · rfl

/-- With a file that was converted, nothing else is gone: on a tree nothing lies under a file. -/
theorem keeps_within_convertFile (tree : origin.IsTree) (convertible : isConvertible path = true)
    (own : ∀ {location content}, origin.locate path = .ok location → origin.entry? location = some (.file content) →
      footprint location ∧ footprint (untypedLocation location)) :
    Keeps (convertFile path) (RemainsWithin origin footprint) := by
  obtain ⟨named, plain⟩ := isPlainName_convertedPath convertible
  obtain ⟨oldNamed, typed⟩ := isNamed_of_isConvertible convertible
  -- the file was there before, and the new one lies next to it
  have writes {session : Session} {content output : Bytes} {written : Disk} (read : session.disk.read path = .ok content)
      (ran : session.disk.write (convertedPath path) output = .ok written) :
      RemainsWithin origin footprint session { session with disk := written } := by
    rintro ⟨comes, outside⟩
    refine ⟨Disk.Follows.trans comes (Disk.follows_write named ran (.inr plain)), ?_⟩
    obtain ⟨old, before⟩ := comes.exists_read oldNamed typed read
    obtain ⟨location, located, held⟩ := Disk.read_eq_ok_iff.mp before
    obtain ⟨place, reached, inside, -, rfl⟩ := Disk.write_eq_put ran
    obtain rfl := Except.ok.inj ((locate_convertedPath oldNamed located).symm.trans (comes.locate reached))
    exact outside.put inside (own located held).2
  intro session outcome next ran
  have converted := converted_convertFile path session
  rw [ran] at converted
  cases converted with
  | refused => exact id
  | unwritten => exact id
  | stuck read converts written => exact writes read written
  | @done content output written disk read converts wrote unlink =>
    intro within
    obtain ⟨old, before⟩ := within.comes.exists_read oldNamed typed read
    obtain ⟨location, located, held⟩ := Disk.read_eq_ok_iff.mp before
    obtain ⟨comes, outside⟩ := writes read wrote within
    refine ⟨Disk.Follows.trans comes (Disk.follows_unlink unlink), fun place apart => ?_⟩
    refine Eq.trans ?_ (outside place apart)
    rw [Disk.unlink] at unlink
    split at unlink
    · cases unlink
    · next reached located' =>
      obtain rfl := Except.ok.inj (located.symm.trans (comes.locate located'))
      split at unlink <;> cases unlink
      dsimp only
      rw [Disk.entry?_remove]
      split
      · next gone =>
        have above := List.isPrefixOf_iff_prefix.mp gone.2
        have other : location ≠ place := by
          rintro rfl
          exact apart (own located held).1
        refine (Option.eq_none_iff_forall_ne_some.mpr fun entry there => ?_).symm
        have directory := tree.directory_of_prefix ((outside place apart).symm.trans there) above other
        rw [held] at directory
        cases directory
      · rfl

/-- What lies under a directory that is converted lay there from the beginning. -/
theorem keeps_within_convertTree (tree : origin.IsTree) {directory : Path}
    (own : ∀ {location content}, LiesUnder origin directory location → isConvertible ⟨true, location⟩ = true →
      origin.entry? location = some (.file content) → footprint location ∧ footprint (untypedLocation location)) :
    Keeps (convertTree directory) (RemainsWithin origin footprint) := by
  intro session outcome next ran within
  rw [convertTree, bind_run, ask_run] at ran
  refine keeps_convertFiles remainsWithin_of_eq (fun path mem => ?_) _ _ _ ran within
  split at mem
  · next there =>
    have convertible := isConvertible_of_mem_filesUnder mem
    have before := within.comes.mem_filesUnder mem (isNamed_of_isConvertible convertible).2
    obtain ⟨base, located, -⟩ := Disk.isDirectory_eq_true_iff.mp there
    obtain ⟨names, some_, rfl, -, content, held⟩ := (mem_filesUnder_iff tree (within.comes.locate located)).mp before
    refine keeps_within_convertFile tree convertible fun reached held' => ?_
    obtain rfl := Except.ok.inj ((locate_append tree (within.comes.locate located) held).symm.trans reached)
    refine own ⟨base, names, within.comes.locate located, some_, rfl⟩ ?_ held'
    rw [isConvertible_congr (name_append some_)]
    exact convertible
  · cases mem

/-! ## Footprints of rules -/

/-- A footprint has everything that some rules can touch on a disk. -/
structure Family.Covers (family : Family) (target : Path) (rules : Rule → Prop) (origin : Disk)
    (footprint : Location → Prop) : Prop where
  edited : ∀ {rule}, rules rule → ∀ step ∈ rule.edits, ∀ path ∈ candidates target step.target, ∀ {location content},
    origin.locate path = .ok location → origin.entry? location = some (.file content) → footprint location
  removed : ∀ {rule}, rules rule → ∀ pattern ∈ rule.paths, ∀ path ∈ candidates target pattern, ∀ {location},
    origin.locate path = .ok location → ∀ place, location <+: place → footprint place
  converted : ∀ {rule}, rules rule → rule.transpile = true → ∀ {location content}, family.TakesCare target origin location →
    isConvertible ⟨true, location⟩ = true → origin.entry? location = some (.file content) →
      footprint location ∧ footprint (untypedLocation location)
  page : ∀ {rule}, rules rule → rule.transpile = true → ∀ {location content},
    origin.locate (target.child pageName) = .ok location → origin.entry? location = some (.file content) → footprint location

/-- The removal of features stays within a footprint that covers their rules. -/
theorem Family.Covers.keeps_forEach {names : List String} (sparing : family.IsSparing) (tree : origin.IsTree)
    (covers : family.Covers target (fun rule => ∃ name ∈ names, family.rule? name = some rule) origin footprint) :
    Keeps (forEach (family.removeFeature target) names) (BySession (RemainsWithin origin footprint)) := by
  have lifts : Lifts (RemainsWithin origin footprint) (BySession (RemainsWithin origin footprint)) :=
    lifts_bySession remainsWithin_of_eq
  refine Project.keeps_forEach fun name mem => keeps_removeFeature lifts (fun rule found => ?_) fun _ => id
  have own : ∃ name ∈ names, family.rule? name = some rule := ⟨name, mem, found⟩
  refine keeps_applyRule (fun transpile => keeps_stripTypes (fun _ => id) (fun _ => id) ?_)
    (keeps_finishRule (fun _ => id) (Project.keeps_forEach fun step held => ?_) (Project.keeps_forEach fun pattern held => ?_))
  · refine keeps_stripFiles lifts (fun stem held path candidate convertible => ?_) (keeps_within_convertTree tree ?_)
      (keeps_within_changeText (isNamed_page target).1 (covers.page own transpile) renameEntry)
    · refine keeps_within_convertFile tree convertible fun located file => ?_
      refine covers.converted own transpile (.inl ⟨stem, held, path, candidate, convertible, located⟩) ?_ file
      rw [isConvertible_congr (name_of_locate (isNamed_of_isConvertible convertible).1 located)]
      exact convertible
    · exact fun under convertible file => covers.converted own transpile (.inr under) convertible file
  · refine keeps_runStep lifts fun action _ path candidate => ?_
    have isNamed : path.IsNamed := by
      have mem := candidate
      rw [candidates_eq] at mem
      obtain ⟨text, held', rfl⟩ := List.mem_map.mp mem
      exact (sparing.edits _ (mem_of_rule? found) step held text held').isNamed target
    exact keeps_within_action isNamed (covers.edited own step held path candidate) action _
  · exact keeps_removeMatches lifts fun path candidate => keeps_within_removePath (covers.removed own pattern held path candidate)

/-! ## The footprint of a removal -/

/-- What the removal of the features that are off may touch: the manifest, the files that match the target of an edit,
what is at or under a path that is removed, and, when types are off, the page, the files with types among the
configuration files and the sources, and the files without types next to these. -/
inductive Family.Touches (family : Family) (target : Path) (selection : Selection) (disk : Disk) : Location → Prop
  | manifest {location : Location} {content : Bytes} (located : disk.locate (target.child fileName) = .ok location)
      (held : disk.entry? location = some (.file content)) : Touches family target selection disk location
  | edited {feature : Feature} {rule : Rule} {step : EditStep} {path : Path} {location : Location} {content : Bytes}
      (listed : feature ∈ family.features) (off : selection.isOn feature.name = false)
      (found : family.rule? feature.name = some rule) (mem : step ∈ rule.edits)
      (candidate : path ∈ candidates target step.target) (located : disk.locate path = .ok location)
      (held : disk.entry? location = some (.file content)) : Touches family target selection disk location
  | removed {feature : Feature} {rule : Rule} {pattern : String} {path : Path} {location place : Location}
      (listed : feature ∈ family.features) (off : selection.isOn feature.name = false)
      (found : family.rule? feature.name = some rule) (mem : pattern ∈ rule.paths)
      (candidate : path ∈ candidates target pattern) (located : disk.locate path = .ok location)
      (under : location <+: place) : Touches family target selection disk place
  | page {location : Location} {content : Bytes} (off : selection.isOn typesFeature = false)
      (located : disk.locate (target.child pageName) = .ok location)
      (held : disk.entry? location = some (.file content)) : Touches family target selection disk location
  | typed {location : Location} {content : Bytes} (off : selection.isOn typesFeature = false)
      (cared : family.TakesCare target disk location) (convertible : isConvertible ⟨true, location⟩ = true)
      (held : disk.entry? location = some (.file content)) : Touches family target selection disk location
  | untyped {location : Location} {content : Bytes} (off : selection.isOn typesFeature = false)
      (cared : family.TakesCare target disk location) (convertible : isConvertible ⟨true, location⟩ = true)
      (held : disk.entry? location = some (.file content)) :
      Touches family target selection disk (untypedLocation location)

theorem exists_feature_of_mem_removalOrder {features : List Feature} {name : String} (mem : name ∈ removalOrder features selection) :
    ∃ feature ∈ features, feature.name = name ∧ selection.isOn name = false := by
  obtain ⟨named, off⟩ := List.mem_filter.mp mem
  rw [Bool.not_eq_true'] at off
  have listed : name ∈ features.map Feature.name := by
    unfold removalNames at named
    dsimp only at named
    split at named
    · next types =>
      rcases List.mem_cons.mp named with rfl | others
      · exact types
      · exact List.mem_of_mem_erase others
    · exact named
  obtain ⟨feature, held, rfl⟩ := List.mem_map.mp listed
  exact ⟨feature, held, rfl, off⟩

theorem Family.covers_touches (ordered : family.IsOrdered) (target : Path) (selection : Selection) (origin : Disk) :
    family.Covers target (fun rule => ∃ name ∈ removalOrder family.features selection, family.rule? name = some rule)
      origin (family.Touches target selection origin) := by
  have types {rule : Rule} (own : ∃ name ∈ removalOrder family.features selection, family.rule? name = some rule)
      (transpile : rule.transpile = true) : selection.isOn typesFeature = false := by
    obtain ⟨name, mem, found⟩ := own
    obtain ⟨feature, -, -, off⟩ := exists_feature_of_mem_removalOrder mem
    exact (ordered.transpile _ (mem_of_rule? found)).mp transpile ▸ off
  refine ⟨?_, ?_, ?_, ?_⟩
  · rintro rule ⟨name, mem, found⟩ step held path candidate location content located file
    obtain ⟨feature, listed, rfl, off⟩ := exists_feature_of_mem_removalOrder mem
    exact .edited listed off found held candidate located file
  · rintro rule ⟨name, mem, found⟩ pattern held path candidate location located place under
    obtain ⟨feature, listed, rfl, off⟩ := exists_feature_of_mem_removalOrder mem
    exact .removed listed off found held candidate located under
  · intro rule own transpile location content cared convertible file
    exact ⟨.typed (types own transpile) cared convertible file, .untyped (types own transpile) cared convertible file⟩
  · intro rule own transpile location content located file
    exact .page (types own transpile) located file

/-- The manifest is saved where it was loaded. -/
theorem within_saveManifest {loaded last saved : Progress} {outcome : Except Failure Unit}
    (load : (loadManifest target).run (family.start target session none) = (.ok (), loaded))
    (removal : (family.removeFeatures target selection).run loaded = (.ok (), last))
    (within : IsWithin session.disk footprint last.session)
    (own : ∀ {location content}, session.disk.locate (target.child fileName) = .ok location →
      session.disk.entry? location = some (.file content) → footprint location)
    (save : saveManifest.run last = (outcome, saved)) : Disk.KeepsOutside footprint session.disk saved.session.disk := by
  cases Saves.of_run save with
  | quiet | refused => exact within.outside
  | written held dirty wrote =>
    obtain ⟨first, ⟨content, -, read, -⟩, place, -⟩ := exists_loaded_of_removal load removal held
    rw [place] at wrote
    obtain ⟨location, located, inside, -, rfl⟩ := Disk.write_eq_put wrote
    obtain ⟨reached, located', file⟩ := Disk.read_eq_ok_iff.mp read
    obtain rfl := Except.ok.inj (located'.symm.trans (within.comes.locate located))
    exact within.outside.put inside (own located' file)

/-- Whether a removal ends or fails, and whether the manifest is loaded or given, everything that the removal does not
touch is afterwards as it was. -/
theorem Family.removal_stays_in_footprint (packaged : family ∈ families) (tree : session.disk.IsTree) (target : Path)
    (selection : Selection) (outside : ¬ family.Touches target selection session.disk location) :
    Disk.entry? ((family.processProject target selection).run session).2.disk location = session.disk.entry? location ∧
      ∀ manifest, Disk.entry? ((family.processLoaded target selection manifest).run session).2.disk location =
        session.disk.entry? location := by
  have removes := (covers_touches (isOrdered_of_mem packaged) target selection session.disk).keeps_forEach
    (isSparing_of_mem packaged) tree
  constructor
  · rw [processProject_run]
    rcases load : (loadManifest target).run (family.start target session none) with ⟨failure | value, loaded⟩
    · exact congrArg (fun disk : Disk => disk.entry? location) (disk_loadManifest load)
    · have begun : IsWithin session.disk (family.Touches target selection session.disk) loaded.session := by
        have same : loaded.session.disk = session.disk := disk_loadManifest load
        exact ⟨by rw [ComesFrom, same]; exact .refl _, by rw [same]; exact fun _ _ => rfl⟩
      dsimp only
      rcases removal : (family.removeFeatures target selection).run loaded with ⟨failure | value, last⟩
      · exact (removes _ _ _ removal begun).outside location outside
      · have within := removes _ _ _ removal begun
        dsimp only
        rcases save : saveManifest.run last with ⟨failure | value, saved⟩
        · exact within_saveManifest load removal within .manifest save location outside
        · exact within_saveManifest load removal within .manifest save location outside
  · intro manifest
    rw [processLoaded_run]
    rcases removal : (family.removeFeatures target selection).run (family.start target session (some manifest))
      with ⟨failure | value, last⟩
    · exact (removes _ _ _ removal ⟨.refl _, fun _ _ => rfl⟩).outside location outside
    · exact (removes _ _ _ removal ⟨.refl _, fun _ _ => rfl⟩).outside location outside

/-- A project whose entry and page cannot be read, and a component. -/
def unreadableProject : Session :=
  ⟨⟨[], [(["index.html"], .file [0xE9]), (["src"], .directory), (["src", "main.ts"], .file [0xE9]),
    (["src", "App.vue"], .file (encodeChars ['a']))]⟩, [], []⟩

/-- The types and the router are off, and the component is kept although the removal fails at the page. -/
theorem component_stays_as_it_was :
    vue3 ∈ families ∧ unreadableProject.disk.IsTree ∧
      ¬ vue3.Touches ⟨false, []⟩ (withoutRouter.set typesFeature false) unreadableProject.disk ["src", "App.vue"] ∧
      Disk.entry? ((vue3.processProject ⟨false, []⟩ (withoutRouter.set typesFeature false)).run unreadableProject).2.disk
        ["src", "App.vue"] = some (.file (encodeChars ['a'])) := by
  have packaged : vue3 ∈ families := List.mem_cons_self
  have tree : unreadableProject.disk.IsTree := by decide
  have edits : ∀ feature ∈ vue3.features, (withoutRouter.set typesFeature false).isOn feature.name = false →
      ∀ rule ∈ vue3.rule? feature.name, ∀ step ∈ rule.edits, ∀ path ∈ candidates ⟨false, []⟩ step.target,
        unreadableProject.disk.locate path ≠ .ok ["src", "App.vue"] := by decide +kernel
  have paths : ∀ feature ∈ vue3.features, (withoutRouter.set typesFeature false).isOn feature.name = false →
      ∀ rule ∈ vue3.rule? feature.name, ∀ pattern ∈ rule.paths, ∀ path ∈ candidates ⟨false, []⟩ pattern,
        ∀ location ∈ (unreadableProject.disk.locate path).toOption, ¬ location <+: ["src", "App.vue"] := by decide +kernel
  have outside : ¬ vue3.Touches ⟨false, []⟩ (withoutRouter.set typesFeature false) unreadableProject.disk ["src", "App.vue"] := by
    intro touches
    generalize eq : ["src", "App.vue"] = place at touches
    cases touches with
    | manifest located =>
      subst eq
      exact absurd located (by decide)
    | edited listed off found mem candidate located =>
      subst eq
      exact edits _ listed off _ found _ mem _ candidate located
    | removed listed off found mem candidate located under =>
      subst eq
      exact paths _ listed off _ found _ mem _ candidate _ (by rw [located]; rfl) under
    | page off located =>
      subst eq
      exact absurd located (by decide)
    | typed off cared convertible =>
      subst eq
      exact absurd convertible (by decide)
    | untyped off cared convertible =>
      have plain := (isPlainName_convertedPath convertible).2
      rw [Files.Path.name, show (convertedPath _).parts = ["src", "App.vue"] from eq.symm] at plain
      obtain ⟨stem, same⟩ := plain
      have last := congrArg (fun name => name.toList.getLast?) same
      rw [String.toList_append, List.getLast?_append, show ".js".toList.getLast? = some 's' from rfl, Option.some_or] at last
      exact absurd last (by decide)
  exact ⟨packaged, tree, outside, (Family.removal_stays_in_footprint packaged tree ⟨false, []⟩ _ outside).1⟩

end Scaffold.Project
