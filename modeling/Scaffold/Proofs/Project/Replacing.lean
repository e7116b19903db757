import Scaffold.Proofs.Project.Fates

/-! # One file that is converted

A conversion of a file either fails, and then nothing has changed, or it writes the new file and removes the old one,
and nothing else has changed. The place of the new file is found from the ending of the old one. A file that already has
the ending `.js` is its own place: there the new file is removed right after it was written.
-/

namespace Scaffold.Project

open Scaffold.Text Scaffold.Files Scaffold.Syntax Stateful

variable {path target : Path} {location : Location} {disk : Disk} {session last : Session} {content output : Bytes}
variable {name suffix : String}

theorem plainSuffix_eq_self_iff : plainSuffix suffix = suffix ↔ suffix = ".js" := by
  unfold plainSuffix
  split
  · next same => simp [same]
  · split
    · next same => simp [same]
    · exact eq_comm

/-- A name stays the same exactly when it has the ending already. -/
theorem untypedName_eq_self_iff : untypedName name = name ↔ (Path.splitName name).2 = ".js" := by
  rw [untypedName, ← plainSuffix_eq_self_iff]
  conv_lhs => rhs; rw [← splitName_append name]
  exact String.append_right_inj _

theorem untypedLocation_eq_self_iff (named : path.IsNamed) (located : disk.locate path = .ok location) :
    untypedLocation location = location ↔ path.suffix = ".js" := by
  have own := Disk.getLast?_of_locate named located
  obtain ⟨here, rfl⟩ : ∃ here, location = here ++ [path.name] := ⟨_, (List.dropLast_append_getLast? _ own).symm⟩
  rw [untypedLocation_concat, List.append_right_inj, List.singleton_inj, untypedName_eq_self_iff, Path.suffix]

theorem convertedPath_eq_self (named : path.IsNamed) (plain : path.suffix = ".js") : convertedPath path = path := by
  have same : untypedName path.name = path.name := untypedName_eq_self_iff.mpr plain
  have parts : (convertedPath path).parts = path.parts := by
    rw [parts_convertedPath, same]
    exact List.dropLast_append_getLast? _ (Path.getLast?_of_isNamed named)
  exact congrArg (Files.Path.mk path.absolute) parts

/-- What has become of a disk where a file was converted: the file is gone, and what came out of it lies at its new
place, unless that was where the file was. -/
structure Replaced (before after : Disk) (path : Path) (output : Bytes) : Prop where
  gone : after.contains path = false
  made : after.read (convertedPath path) = .ok output ↔ path.suffix ≠ ".js"
  /-- The new place of a file with the ending already is the old one. -/
  own : path.suffix = ".js" → convertedPath path = path
  elsewhere : ∀ place, before.locate path ≠ .ok place → before.locate (convertedPath path) ≠ .ok place →
    after.entry? place = before.entry? place

theorem replaced_of_free (tree : disk.IsTree) (named : path.IsNamed) (located : disk.locate path = .ok location)
    (held : disk.entry? location = some (.file content)) (free : disk.entry? (untypedLocation location) ≠ some .directory)
    (output : Bytes) :
    Replaced disk ((disk.put (untypedLocation location) (.file output)).remove location) path output := by
  obtain ⟨-, spec⟩ := entry?_replace tree held free output
  have reached := locate_convertedPath named located
  have directory (place : Location) :
      Disk.entry? ((disk.put (untypedLocation location) (.file output)).remove location) place = some .directory ↔
        disk.entry? place = some .directory := by
    rw [spec]
    split
    · next same => simp [same, held]
    · split
      · next same => simpa [same] using free
      · rfl
  have leads {other : Path} {place : Location} :
      Disk.locate ((disk.put (untypedLocation location) (.file output)).remove location) other = .ok place ↔
        disk.locate other = .ok place :=
    Disk.locate_iff_of_directory (Disk.workingDirectory_put _ _) directory
  refine ⟨Bool.eq_false_iff.mpr fun there => ?_, ?_, convertedPath_eq_self named, fun place apart other => ?_⟩
  · obtain ⟨place, entry, located', held'⟩ := Disk.contains_eq_true_iff.mp there
    obtain rfl := Except.ok.inj (located.symm.trans (leads.mp located'))
    rw [spec, if_pos rfl] at held'
    cases held'
  · rw [Disk.read_eq_ok_iff, ne_eq, ← untypedLocation_eq_self_iff named located]
    constructor
    · rintro ⟨place, located', held'⟩ same
      obtain rfl := Except.ok.inj (reached.symm.trans (leads.mp located'))
      rw [spec, if_pos same] at held'
      cases held'
    · intro moves
      exact ⟨_, leads.mpr reached, by rw [spec, if_neg moves, if_pos rfl]⟩
  · have outside : place ≠ location := by
      rintro rfl
      exact apart located
    have beside : place ≠ untypedLocation location := by
      rintro rfl
      exact other reached
    rw [spec, if_neg outside, if_neg beside]

theorem erase_of_withoutTypes (untyped : withoutTypes path content = .ok output) :
    (∃ text, decode content = .ok text) ∧ Erasure.erase (dialectOf path) content = .ok output := by
  unfold withoutTypes at untyped
  split at untyped
  · cases untyped
  · next text decoded =>
    split at untyped
    · cases untyped
    · next erased =>
      cases untyped
      exact ⟨⟨text, decoded⟩, erased⟩

/-- The conversion of a file is done as a whole or not at all. It succeeds when the file is UTF-8 and fits the grammar and
no directory is where the new file belongs. When it fails, nothing has changed; otherwise the file has been replaced. -/
theorem conversion_is_whole (tree : session.disk.IsTree) (read : session.disk.read path = .ok content) :
    ((∃ target last, (convertFile path).run session = (.ok target, last)) ↔
      (∃ text, decode content = .ok text) ∧ (∃ output, Erasure.erase (dialectOf path) content = .ok output) ∧
        session.disk.isDirectory (convertedPath path) = false) ∧
    (∀ failure last, (convertFile path).run session = (.error failure, last) → last = session) ∧
    ∀ target last, (convertFile path).run session = (.ok target, last) →
      target = convertedPath path ∧ ∃ output, Erasure.erase (dialectOf path) content = .ok output ∧
        last = { session with disk := last.disk } ∧ Replaced session.disk last.disk path output := by
  have named := tree.isNamed_of_read read
  obtain ⟨location, located, held⟩ := Disk.read_eq_ok_iff.mp read
  cases untyped : withoutTypes path content with
  | error fault =>
    have fails : ¬ Converts path content := fun converts => by
      obtain ⟨output, eq⟩ := converts_iff.mp converts
      rw [untyped] at eq
      cases eq
    rw [convertFile_run_of_defies ⟨content, read, untyped⟩]
    refine ⟨⟨?_, fun given => absurd ⟨given.1, given.2.1⟩ fails⟩, ?_, ?_⟩
    · rintro ⟨target, last, ⟨⟩⟩
    · rintro failure last ⟨⟩
      rfl
    · rintro target last ⟨⟩
  | ok output =>
    obtain ⟨decodes, erased⟩ := erase_of_withoutTypes untyped
    by_cases taken : session.disk.isDirectory (convertedPath path) = true
    · rw [convertFile_run_of_occupied ⟨content, read, untyped⟩ taken]
      refine ⟨⟨?_, fun given => absurd (taken.symm.trans given.2.2) (by decide)⟩, ?_, ?_⟩
      · rintro ⟨target, last, ⟨⟩⟩
      · rintro failure last ⟨⟩
        rfl
      · rintro target last ⟨⟩
    · have free : session.disk.entry? (untypedLocation location) ≠ some .directory := fun there =>
        taken (Disk.isDirectory_eq_true_iff.mpr ⟨_, locate_convertedPath named located, there⟩)
      rw [convertFile_run_of_free tree named located held untyped free]
      refine ⟨⟨fun _ => ⟨decodes, ⟨output, erased⟩, Bool.eq_false_iff.mpr taken⟩, fun _ => ⟨_, _, rfl⟩⟩, ?_, ?_⟩
      · rintro failure last ⟨⟩
      · rintro target last ⟨⟩
        exact ⟨rfl, output, erased, rfl, replaced_of_free tree named located held free output⟩

/-- A file with types whose new place is taken by an older file. -/
def retypedSession : Session :=
  ⟨⟨[], [(["a.mts"], .file (encode "let a: b\n")), (["a.mjs"], .file (encode "old\n"))]⟩, [], []⟩

theorem erase_retyped : Erasure.erase .plain (encode "let a: b\n") = .ok (encode "let a\n") := by
  have found : (Dialect.plain.parse (encode "let a: b\n")).map (Erasure.erasureEdits (encode "let a: b\n")) =
      .ok [.removal 5 8] := by decide +kernel
  unfold Erasure.erase
  cases parsed : Dialect.plain.parse (encode "let a: b\n") with
  | error line =>
    rw [parsed] at found
    cases found
  | ok tree =>
    rw [parsed] at found
    dsimp only
    rw [Erasure.eraseTree, Except.ok.inj found, applyEdits, List.mergeSort_singleton]
    exact congrArg Except.ok (by decide +kernel)

/-- The older file at the new place is overwritten. -/
theorem retyped_file_is_replaced :
    retypedSession.disk.IsTree ∧ retypedSession.disk.read ⟨false, ["a.mts"]⟩ = .ok (encode "let a: b\n") ∧
      ∃ last, (convertFile ⟨false, ["a.mts"]⟩).run retypedSession = (.ok ⟨false, ["a.mjs"]⟩, last) ∧
        Replaced retypedSession.disk last.disk ⟨false, ["a.mts"]⟩ (encode "let a\n") := by
  have tree : retypedSession.disk.IsTree := by decide
  have read : retypedSession.disk.read ⟨false, ["a.mts"]⟩ = .ok (encode "let a: b\n") := by decide
  obtain ⟨returns, -, replaces⟩ := conversion_is_whole tree read
  obtain ⟨target, last, ran⟩ := returns.mpr ⟨⟨_, decode_encodeChars _⟩, ⟨_, erase_retyped⟩, by decide⟩
  obtain ⟨rfl, output, erased, -, replaced⟩ := replaces target last ran
  obtain rfl := Except.ok.inj (erase_retyped.symm.trans erased)
  exact ⟨tree, read, last, ran, replaced⟩

/-- A file that is at its own new place. -/
def plainSession : Session := ⟨⟨[], [(["a.js"], .file [])]⟩, [], []⟩

/-- The conversion yields the path of the file, and the file is gone. -/
theorem plain_file_is_gone :
    plainSession.disk.IsTree ∧ plainSession.disk.read ⟨false, ["a.js"]⟩ = .ok [] ∧
      ∃ last, (convertFile ⟨false, ["a.js"]⟩).run plainSession = (.ok ⟨false, ["a.js"]⟩, last) ∧
        last.disk.contains ⟨false, ["a.js"]⟩ = false := by
  refine ⟨by decide, by decide, ⟨⟨[], []⟩, [], []⟩, ?_, by decide⟩
  with_unfolding_all rfl

end Scaffold.Project
