import Mathlib.Logic.Relation
import Scaffold.Proofs.Files.Copying
import Scaffold.Proofs.Project.Footprint

/-! # What a removal does not touch

A removal changes a disk in single steps: it writes a file, or it removes a file or what is at a path. None of these
steps concerns the manifest of the project, whatever the project contains and wherever the removal fails.
-/

namespace Scaffold.Files.Disk

open Scaffold.Text

variable {before after : Disk} {place location : Location} {path : Path} {content : Bytes}

/-- A single change of a disk, somewhere else than at a place. -/
inductive Spares (place : Location) : Disk → Disk → Prop
  | write {before after : Disk} {path : Path} {content : Bytes} (ran : before.write path content = .ok after)
      (apart : before.locate path ≠ .ok place) : Spares place before after
  | unlink {before after : Disk} {path : Path} (ran : before.unlink path = .ok after)
      (apart : ∀ location, before.locate path = .ok location → ¬ location <+: place) : Spares place before after
  | remove {before : Disk} {path : Path}
      (apart : ∀ location, before.locate path = .ok location → ¬ location <+: place) :
      Spares place before (before.removePath path).2

theorem entry?_remove_of_apart (apart : ¬ location <+: place) : entry? (before.remove location) place = before.entry? place := by
  rw [entry?_remove, if_neg fun gone => apart (List.isPrefixOf_iff_prefix.mp gone.2)]

theorem Spares.entry?_eq (spares : Spares place before after) : after.entry? place = before.entry? place := by
  cases spares with
  | write ran apart =>
    obtain ⟨location, located, inside, -, rfl⟩ := write_eq_put ran
    rw [entry?_put _ inside, if_neg]
    rintro rfl
    exact apart located
  | unlink ran apart =>
    unfold Disk.unlink at ran
    split at ran
    · cases ran
    · next location located =>
      split at ran <;> cases ran
      exact entry?_remove_of_apart (apart location located)
  | @remove path apart =>
    unfold removePath
    split
    · rfl
    · next location located =>
      split
      · exact entry?_remove_of_apart (apart location located)
      · rfl

/-- Any number of changes, none of them at a place. -/
abbrev SparesAll (place : Location) : Disk → Disk → Prop := Relation.ReflTransGen (Spares place)

theorem SparesAll.entry?_eq (spares : SparesAll place before after) : after.entry? place = before.entry? place := by
  induction spares with
  | refl => rfl
  | tail _ last same => exact last.entry?_eq.trans same

end Scaffold.Files.Disk

namespace Scaffold.Project

open Scaffold.Text Scaffold.Files Stateful Processing

/-! ## Operations -/

/-- A place at which the manifest of a project can be: it is named so, and everything on the way is a directory. -/
structure IsGuarded (origin : Disk) (place : Location) : Prop where
  named : place.getLast? = some Manifest.fileName
  above : ∀ {location}, location <+: place → location ≠ place → origin.entry? location = some .directory

theorem isGuarded_of_held {disk : Disk} {place : Location} {entry : Entry} (tree : disk.IsTree)
    (held : disk.entry? place = some entry) (named : place.getLast? = some Manifest.fileName) : IsGuarded disk place :=
  ⟨named, fun above apart => tree.directory_of_prefix held above apart⟩

/-- The disk of a session comes from an origin, as removals do it. -/
abbrev ComesFrom (origin : Disk) (session : Session) : Prop :=
  Disk.Follows (fun _ => True) IsPlainName origin session.disk

/-- From a session whose disk comes from an origin on, changes are made that spare a place. -/
def Spared (origin : Disk) (place : Location) (before after : Session) : Prop :=
  ComesFrom origin before → ComesFrom origin after ∧ Disk.SparesAll place before.disk after.disk

variable {origin : Disk} {place : Location} {path : Path}

instance : Std.Refl (Spared origin place) where
  refl _ comes := ⟨comes, .refl⟩

instance : Trans (Spared origin place) (Spared origin place) (Spared origin place) where
  trans first second comes := by
    obtain ⟨comes, earlier⟩ := first comes
    obtain ⟨comes, later⟩ := second comes
    exact ⟨comes, earlier.trans later⟩

theorem spared_of_eq {before after : Session} (same : after.disk = before.disk) : Spared origin place before after := by
  intro comes
  rw [ComesFrom, same]
  exact ⟨comes, .refl⟩

/-- A path does not lead to a place. -/
def LeadsApart (origin : Disk) (place : Location) (path : Path) : Prop :=
  ∀ location, origin.locate path = .ok location → location ≠ place

/-- A path leads neither to a place nor to a directory on the way to it. -/
def LeadsAside (origin : Disk) (place : Location) (path : Path) : Prop :=
  ∀ location, origin.locate path = .ok location → ¬ location <+: place

theorem LeadsAside.leadsApart (aside : LeadsAside origin place path) : LeadsApart origin place path := by
  rintro location located rfl
  exact aside location located List.prefix_rfl

theorem spared_rewrite {before : Session} {old new : Bytes} {disk : Disk} (named : path.IsNamed)
    (apart : LeadsApart origin place path) (read : before.disk.read path = .ok old)
    (written : before.disk.write path new = .ok disk) : Spared origin place before { before with disk := disk } := by
  intro comes
  refine ⟨Disk.Follows.trans comes (Disk.follows_write named written (.inl ⟨trivial, old, read⟩)), .single ?_⟩
  exact .write written fun located => apart place (comes.locate located) rfl

theorem spared_action (named : path.IsNamed) (apart : LeadsApart origin place path) (action : Action)
    (arguments : List String) : Keeps (action.run path arguments) (Spared origin place) := by
  intro session outcome next ran
  have edited := edited_action action path arguments session
  rw [ran] at edited
  cases edited with
  | left => exact Std.Refl.refl session
  | rewrote read written => exact spared_rewrite named apart read written

theorem spared_changeText (named : path.IsNamed) (apart : LeadsApart origin place path) (change : List Char → List Char) :
    Keeps (changeText path change) (Spared origin place) := by
  intro session outcome next ran
  rw [changeText_run] at ran
  split at ran
  · cases ran
    exact Std.Refl.refl session
  · next read =>
    split at ran
    · cases ran
      exact Std.Refl.refl session
    · split at ran
      · cases ran
        exact Std.Refl.refl session
      · split at ran
        · cases ran
          exact Std.Refl.refl session
        · next written =>
          cases ran
          exact spared_rewrite named apart read written

theorem spared_removePath (aside : LeadsAside origin place path) : Keeps (Operation.removePath path) (Spared origin place) := by
  intro session outcome next ran
  cases ran
  intro comes
  exact ⟨Disk.Follows.trans comes (Disk.follows_removePath session.disk path),
    .single (.remove fun location located => aside location (comes.locate located))⟩

theorem not_isPlainName_fileName : ¬ IsPlainName Manifest.fileName := by
  rintro ⟨stem, eq⟩
  have last := congrArg (fun name => name.toList.getLast?) eq
  rw [String.toList_append, List.getLast?_append, show ".js".toList.getLast? = some 's' from rfl, Option.some_or] at last
  exact absurd last (by decide)

/-- The new file has a name without types, and the old one, which is a file, is on the way to nothing. -/
theorem spared_convertFile (guarded : IsGuarded origin place) (convertible : isConvertible path = true) :
    Keeps (convertFile path) (Spared origin place) := by
  obtain ⟨named, plain⟩ := isPlainName_convertedPath convertible
  obtain ⟨oldNamed, notPlain⟩ := isNamed_of_isConvertible convertible
  have differs : path.name ≠ Manifest.fileName := by
    intro same
    unfold isConvertible at convertible
    rw [Path.suffix, same] at convertible
    exact absurd convertible (by decide)
  have write {session : Session} {output : Bytes} {written : Disk}
      (ran : session.disk.write (convertedPath path) output = .ok written) :
      Spared origin place session { session with disk := written } := by
    refine fun comes => ⟨Disk.Follows.trans comes (Disk.follows_write named ran (.inr plain)), .single (.write ran ?_)⟩
    intro located
    have last := Disk.getLast?_of_locate named located
    rw [guarded.named] at last
    exact not_isPlainName_fileName (Option.some.inj last ▸ plain)
  intro session outcome next ran
  have converted := converted_convertFile path session
  rw [ran] at converted
  cases converted with
  | refused => exact Std.Refl.refl session
  | unwritten => exact Std.Refl.refl session
  | stuck read converts written => exact write written
  | @done content output written disk read converts wrote unlink =>
    intro comes
    obtain ⟨comesWritten, first⟩ := write wrote comes
    refine ⟨Disk.Follows.trans comesWritten (Disk.follows_unlink unlink), first.tail (.unlink unlink ?_)⟩
    intro location located above
    have last := Disk.getLast?_of_locate oldNamed located
    have held : ∃ content, written.entry? location = some (.file content) := by
      rw [Disk.unlink, located] at unlink
      dsimp only at unlink
      split at unlink <;> cases unlink
      exact ⟨_, ‹_›⟩
    obtain ⟨content, held⟩ := held
    have apart : location ≠ place := by
      rintro rfl
      rw [guarded.named] at last
      exact differs (Option.some.inj last).symm
    have directory := guarded.above above apart
    rcases comesWritten.file held with same | ⟨-, old, same⟩ | ⟨name, last', plain'⟩
    · rw [directory] at same
      cases same
    · rw [directory] at same
      cases same
    · rw [last] at last'
      obtain rfl := Option.some.inj last'
      exact notPlain plain'

theorem keeps_convertTree {sessions : Session → Session → Prop} [Std.Refl sessions] [Trans sessions sessions sessions]
    (disk : ∀ {before after : Session}, after.disk = before.disk → sessions before after)
    (each : ∀ path, isConvertible path = true → Keeps (convertFile path) sessions) (directory : Path) :
    Keeps (convertTree directory) sessions := by
  refine .bind_of (keeps_ask _) fun session paths next ran => ?_
  cases ran
  refine keeps_convertFiles disk fun path mem => each path ?_
  dsimp only at mem
  split at mem
  · unfold Disk.filesUnder at mem
    split at mem
    · cases mem
    · exact (List.mem_filter.mp (List.mem_mergeSort.mp mem)).2
  · cases mem

/-! ## Families -/

/-- A text leads from any directory to something else than the manifest. -/
def LeadsElsewhere (text : String) : Prop :=
  Path.LeadsDown text ∧ ∃ name ∈ (Path.ofString text).parts.head?, name ≠ Manifest.fileName ∧
    (Path.child ⟨false, []⟩ text).IsNamed

instance (path : Path) : Decidable path.IsNamed := inferInstanceAs (Decidable (_ ∧ _))

instance (text : String) : Decidable (LeadsElsewhere text) := inferInstanceAs (Decidable (_ ∧ _))

/-- The texts that a target stands for. -/
def candidateTexts (target : String) : List String :=
  if ['*', '.'].isPrefixOf target.toList.reverse then
    scriptSuffixes.map fun suffix => String.ofList (target.toList.take (target.toList.length - 2)) ++ suffix
  else [target]

theorem candidates_eq (root : Path) (target : String) : candidates root target = (candidateTexts target).map root.child := by
  unfold candidates candidateTexts
  dsimp only
  split
  · rw [List.map_map]
    rfl
  · rfl

/-- What a family edits and removes is never the manifest, nor a directory on the way to it. -/
structure Family.IsSparing (family : Family) : Prop where
  edits : ∀ entry ∈ family.rules, ∀ step ∈ entry.2.edits, ∀ text ∈ candidateTexts step.target, LeadsElsewhere text
  paths : ∀ entry ∈ family.rules, ∀ pattern ∈ entry.2.paths, ∀ text ∈ candidateTexts pattern, LeadsElsewhere text

theorem isSparing_of_mem {family : Family} (packaged : family ∈ families) : family.IsSparing := by
  rcases List.mem_cons.mp packaged with rfl | packaged
  · exact ⟨by decide +kernel, by decide +kernel⟩
  · obtain rfl := List.mem_singleton.mp packaged
    exact ⟨by decide +kernel, by decide +kernel⟩

variable {family : Family} {target : Path} {here : Location} {text : String}

theorem LeadsElsewhere.isNamed (elsewhere : LeadsElsewhere text) (root : Path) : (root.child text).IsNamed := by
  obtain ⟨-, name, head, -, named⟩ := elsewhere
  have parts : (Path.ofString text).parts ≠ [] := by
    intro none_
    rw [none_] at head
    cases head
  unfold Path.IsNamed at named ⊢
  rwa [Path.name_child root parts, ← Path.name_child ⟨false, []⟩ parts]

theorem LeadsElsewhere.leadsAside (elsewhere : LeadsElsewhere text) (located : origin.locate target = .ok here)
    (under : Disk.Under here Manifest.fileName place) : LeadsAside origin place (target.child text) := by
  obtain ⟨down, name, head, other, -⟩ := elsewhere
  intro location reached above
  obtain ⟨here', located', rfl⟩ := Disk.exists_of_locate_child down reached
  obtain rfl := Except.ok.inj (located.symm.trans located')
  obtain ⟨later, parts⟩ := List.head?_eq_some_iff.mp head
  rw [parts] at above
  have own : Disk.Under here name place := .trans ⟨later, by rw [List.append_assoc, List.singleton_append]⟩ above
  exact other (Disk.eq_of_under own under)

variable (guarded : IsGuarded origin place) (located : origin.locate target = .ok here)
variable (under : Disk.Under here Manifest.fileName place)

include located under

theorem spared_page (change : List Char → List Char) {name : String} (elsewhere : LeadsElsewhere name) :
    Keeps (changeText (target.child name) change) (Spared origin place) :=
  spared_changeText (elsewhere.isNamed target) (elsewhere.leadsAside located under).leadsApart change

include guarded

/-- Removing features spares the manifest, wherever it stops. -/
theorem Family.IsSparing.keeps_forEach (sparing : family.IsSparing) (names : List String) :
    Keeps (forEach (family.removeFeature target) names) (BySession (Spared origin place)) := by
  have lifts : Lifts (Spared origin place) (BySession (Spared origin place)) := lifts_bySession spared_of_eq
  refine Project.keeps_forEach fun name _ => keeps_removeFeature lifts (fun rule found => ?_) fun _ => Std.Refl.refl _
  have own := mem_of_rule? found
  refine keeps_applyRule (fun _ => keeps_stripTypes (fun _ => Std.Refl.refl _) (fun _ => Std.Refl.refl _) ?_)
    (keeps_finishRule (fun _ => Std.Refl.refl _) (Project.keeps_forEach fun step mem => ?_)
      (Project.keeps_forEach fun pattern mem => ?_))
  · exact keeps_stripFiles lifts (fun _ _ _ _ convertible => spared_convertFile guarded convertible)
      (keeps_convertTree spared_of_eq (fun _ => spared_convertFile guarded) _)
      (spared_page located under renameEntry (by decide +kernel))
  · refine keeps_runStep lifts fun action _ path held => ?_
    rw [candidates_eq] at held
    obtain ⟨text, candidate, rfl⟩ := List.mem_map.mp held
    have elsewhere := sparing.edits _ own step mem text candidate
    exact spared_action (elsewhere.isNamed target) (elsewhere.leadsAside located under).leadsApart action _
  · refine keeps_removeMatches lifts fun path held => ?_
    rw [candidates_eq] at held
    obtain ⟨text, candidate, rfl⟩ := List.mem_map.mp held
    exact spared_removePath ((sparing.paths _ own pattern mem text candidate).leadsAside located under)

end Scaffold.Project
