import Scaffold.Proofs.Files.Following
import Scaffold.Proofs.Project.Store

/-! # What operations leave on the disk

An edit either leaves the disk as it is or rewrites its file and says so. A conversion makes a file with the new
ending and removes the one with the old ending. Everything else in a removal removes what is at a path.
-/

namespace Scaffold.Project

open Scaffold.Text Scaffold.Files Stateful Processing

variable {rewritten made : String → Prop} {path : Path}

theorem readSource_run (path : Path) (session : Session) :
    (readSource path).run session =
      match session.disk.read path with
      | .error trouble => (.error (.text (.trouble trouble)), session)
      | .ok content =>
        match decode content with
        | .error fault => (.error (.source (.encoding path fault)), session)
        | .ok _ => (.ok content, session) := by
  unfold readSource
  rw [bind_run, readBytes_run]
  cases session.disk.read path with
  | error trouble => rfl
  | ok content =>
    dsimp only
    cases decode content <;> rfl

/-! ## Edits of files -/

/-- What a run of an edit comes to: the session is as it was, or the file was rewritten and that is told. -/
inductive Edited (path : Path) (session : Session) : Except Failure Bool × Session → Prop
  | left {outcome : Except Failure Bool} (other : outcome ≠ .ok true) : Edited path session (outcome, session)
  | rewrote {old new : Bytes} {disk : Disk} (read : session.disk.read path = .ok old)
      (written : session.disk.write path new = .ok disk) :
      Edited path session (.ok true, { session with disk := disk })

private theorem edited_writeChanged {session : Session} {old : Bytes} (read : session.disk.read path = .ok old)
    (before after : Bytes) : Edited path session ((writeChanged path before after).run session) := by
  unfold writeChanged
  split
  · exact .left nofun
  · obtain ⟨location, -, written, -⟩ := Disk.exists_write_of_read read after
    rw [bind_run, Operation.writeBytes, change_run, written]
    exact .rewrote read written

theorem writeChanged_run_ne_error {session next : Session} {old : Bytes} {failure : Failure}
    (read : session.disk.read path = .ok old) (before after : Bytes) :
    (writeChanged path before after).run session ≠ (.error failure, next) := by
  intro ran
  unfold writeChanged at ran
  split at ran
  · cases ran
  · obtain ⟨location, -, written, -⟩ := Disk.exists_write_of_read read after
    rw [bind_run, Operation.writeBytes, change_run, written] at ran
    cases ran

theorem exists_read_of_isFile {disk : Disk} (isFile : disk.isFile path = true) : ∃ content, disk.read path = .ok content := by
  unfold Disk.isFile Disk.at? at isFile
  split at isFile
  · next content held =>
    split at held
    · next location located => exact ⟨content, Disk.read_eq_ok_iff.mpr ⟨location, located, held⟩⟩
    · cases held
  · cases isFile

theorem onFile_run (act : Operation Bool) (session : Session) :
    (onFile path act).run session =
      match session.disk.read path with
      | .error _ => (.ok false, session)
      | .ok _ => act.run session := by
  unfold onFile
  rw [bind_run, ask_run]
  dsimp only
  cases read : session.disk.read path with
  | error trouble =>
    rw [if_neg]
    · rfl
    · intro isFile
      obtain ⟨content, there⟩ := exists_read_of_isFile isFile
      rw [read] at there
      cases there
  | ok content => rw [if_pos (Disk.isFile_of_read read)]

theorem editTree_run (path : Path) (edit : Bytes → Syntax.Tree → Bytes) (session : Session) :
    (editTree path edit).run session =
      match session.disk.read path with
      | .error _ => (.ok false, session)
      | .ok content =>
        match decode content with
        | .error fault => (.error (.source (.encoding path fault)), session)
        | .ok _ =>
          match (dialectOf path).parse content with
          | .error line => (.error (.source (.grammar path line)), session)
          | .ok tree => (writeChanged path content (edit content tree)).run session := by
  rw [editTree, onFile_run, bind_run, readTree, bind_run, readSource_run]
  cases session.disk.read path with
  | error trouble => rfl
  | ok content =>
    dsimp only
    cases decode content with
    | error fault => rfl
    | ok text =>
      dsimp only
      cases (dialectOf path).parse content <;> rfl

theorem editEither_run (path : Path) (edit : Bytes → Syntax.Tree → Bytes) (otherwise : Bytes → Bytes) (session : Session) :
    (editEither path edit otherwise).run session =
      match session.disk.read path with
      | .error _ => (.ok false, session)
      | .ok content =>
        match decode content with
        | .error fault => (.error (.source (.encoding path fault)), session)
        | .ok _ =>
          match (dialectOf path).parse content with
          | .error _ => (writeChanged path content (otherwise content)).run session
          | .ok tree => (writeChanged path content (edit content tree)).run session := by
  rw [editEither, onFile_run, bind_run, readSource_run]
  cases session.disk.read path with
  | error trouble => rfl
  | ok content =>
    dsimp only
    cases decode content with
    | error fault => rfl
    | ok text =>
      dsimp only
      cases (dialectOf path).parse content <;> rfl

theorem edited_editTree (path : Path) (edit : Bytes → Syntax.Tree → Bytes) (session : Session) :
    Edited path session ((editTree path edit).run session) := by
  rw [editTree_run]
  cases read : session.disk.read path with
  | error trouble => exact .left nofun
  | ok content =>
    dsimp only
    cases decode content with
    | error fault => exact .left nofun
    | ok text =>
      dsimp only
      cases (dialectOf path).parse content with
      | error line => exact .left nofun
      | ok tree => exact edited_writeChanged read _ _

theorem edited_editEither (path : Path) (edit : Bytes → Syntax.Tree → Bytes) (otherwise : Bytes → Bytes)
    (session : Session) : Edited path session ((editEither path edit otherwise).run session) := by
  rw [editEither_run]
  cases read : session.disk.read path with
  | error trouble => exact .left nofun
  | ok content =>
    dsimp only
    cases decode content with
    | error fault => exact .left nofun
    | ok text =>
      dsimp only
      cases (dialectOf path).parse content <;> exact edited_writeChanged read _ _

/-- Every action edits its file. -/
theorem edited_action (action : Action) (path : Path) (arguments : List String) (session : Session) :
    Edited path session ((action.run path arguments).run session) := by
  unfold Action.run
  split
  · exact edited_editTree _ _ _
  · exact edited_editTree _ _ _
  · exact edited_editEither _ _ _ _
  · exact edited_editEither _ _ _ _
  · rw [removeNamedImports, onFile_run, bind_run, readBytes_run]
    cases read : session.disk.read path with
    | error trouble => exact .left nofun
    | ok content => exact edited_writeChanged read _ _
  · exact edited_editEither _ _ _ _
  · exact .left nofun

/-! ## Conversions -/

/-- Whether a file loses its types when it has this content. -/
def Converts (path : Path) (content : Bytes) : Prop :=
  (∃ text, decode content = .ok text) ∧ ∃ output, Erasure.erase (dialectOf path) content = .ok output

/-- The path that a fault is about. -/
def ConversionFault.place : ConversionFault → Path
  | .grammar path _ | .encoding path _ => path

/-- What a run of a conversion comes to: the file has no content that can lose its types, or the new file is
written and the old one removed, where each of the two may fail. -/
inductive Converted (path : Path) (session : Session) : Except Failure Path × Session → Prop
  | refused {failure : Failure} (fails : ∀ content, session.disk.read path = .ok content → ¬ Converts path content)
      (own : ∀ fault, failure = .conversion fault → fault.place = path) : Converted path session (.error failure, session)
  | unwritten (trouble : Trouble) : Converted path session (.error (.text (.trouble trouble)), session)
  | stuck {content output : Bytes} {written : Disk} (read : session.disk.read path = .ok content)
      (converts : Converts path content) (write : session.disk.write (convertedPath path) output = .ok written)
      (trouble : Trouble) : Converted path session (.error (.text (.trouble trouble)), { session with disk := written })
  | done {content output : Bytes} {written disk : Disk} (read : session.disk.read path = .ok content)
      (converts : Converts path content) (write : session.disk.write (convertedPath path) output = .ok written)
      (unlink : written.unlink path = .ok disk) :
      Converted path session (.ok (convertedPath path), { session with disk := disk })

/-- What a conversion makes of the content of a file: the content without types, or what is wrong with it. -/
def withoutTypes (path : Path) (content : Bytes) : Except ConversionFault Bytes :=
  match decode content with
  | .error fault => .error (.encoding path fault)
  | .ok _ =>
    match Erasure.erase (dialectOf path) content with
    | .error line => .error (.grammar path line)
    | .ok output => .ok output

theorem converts_iff {content : Bytes} : Converts path content ↔ ∃ output, withoutTypes path content = .ok output := by
  unfold Converts withoutTypes
  cases decode content with
  | error fault => simp
  | ok text => cases Erasure.erase (dialectOf path) content <;> simp

theorem place_of_withoutTypes {content : Bytes} {fault : ConversionFault} (fails : withoutTypes path content = .error fault) :
    fault.place = path := by
  unfold withoutTypes at fails
  split at fails
  · cases fails
    rfl
  · split at fails <;> cases fails
    rfl

theorem convertFile_run (path : Path) (session : Session) :
    (convertFile path).run session =
      match session.disk.read path with
      | .error trouble => (.error (.text (.trouble trouble)), session)
      | .ok content =>
        match withoutTypes path content with
        | .error fault => (.error (.conversion fault), session)
        | .ok output =>
          match session.disk.write (convertedPath path) output with
          | .error trouble => (.error (.text (.trouble trouble)), session)
          | .ok written =>
            match written.unlink path with
            | .error trouble => (.error (.text (.trouble trouble)), { session with disk := written })
            | .ok disk => (.ok (convertedPath path), { session with disk := disk }) := by
  unfold convertFile withoutTypes
  rw [bind_run, tryCatch_run, readSource_run]
  cases session.disk.read path with
  | error trouble => rfl
  | ok content =>
    dsimp only
    cases decode content with
    | error fault => rfl
    | ok text =>
      dsimp only
      cases Erasure.erase (dialectOf path) content with
      | error line => rfl
      | ok output =>
        dsimp only
        rw [bind_run, Operation.writeBytes, change_run]
        cases session.disk.write (convertedPath path) output with
        | error trouble => rfl
        | ok written =>
          dsimp only
          rw [bind_run, change_run]
          dsimp only
          cases written.unlink path <;> rfl

theorem converted_convertFile (path : Path) (session : Session) :
    Converted path session ((convertFile path).run session) := by
  rw [convertFile_run]
  cases read : session.disk.read path with
  | error trouble => exact .refused (by simp [read]) nofun
  | ok content =>
    dsimp only
    cases untyped : withoutTypes path content with
    | error fault =>
      refine .refused (fun other same => ?_) fun other same => by cases same; exact place_of_withoutTypes untyped
      obtain rfl := Except.ok.inj (read.symm.trans same)
      simp [converts_iff, untyped]
    | ok output =>
      have converts := converts_iff.mpr ⟨output, untyped⟩
      dsimp only
      cases write : session.disk.write (convertedPath path) output with
      | error trouble => exact .unwritten trouble
      | ok written =>
        dsimp only
        cases unlink : written.unlink path with
        | error trouble => exact .stuck read converts write trouble
        | ok disk => exact .done read converts write unlink

/-- The names of files that conversions make. -/
def IsPlainName (name : String) : Prop := ∃ stem, name = stem ++ ".js"

theorem splitName_append (name : String) : (Path.splitName name).1 ++ (Path.splitName name).2 = name := by
  unfold Path.splitName
  extract_lets chars extension stem
  split
  · exact String.append_empty
  · next inside =>
    simp only [Bool.or_eq_true, decide_eq_true_eq, not_or] at inside
    have whole : extension ++ chars.reverse.dropWhile (· ≠ '.') = chars.reverse := List.takeWhile_append_dropWhile
    cases rest : chars.reverse.dropWhile (· ≠ '.') with
    | nil =>
      rw [rest, List.append_nil] at whole
      exact absurd (by rw [whole, List.length_reverse]) inside.2
    | cons c front =>
      have dot : c = '.' := by
        have head := List.head?_dropWhile_not (· ≠ '.') chars.reverse
        rw [rest] at head
        simpa using head
      have split : chars = front.reverse ++ '.' :: extension.reverse := by
        rw [rest, dot] at whole
        rw [← List.reverse_reverse chars, ← whole]
        simp
      have stem_eq : stem = front.reverse := by
        have count : chars.length - extension.length - 1 = front.reverse.length := by
          have length := congrArg List.length split
          simp only [List.length_append, List.length_cons, List.length_reverse] at length ⊢
          omega
        change chars.take (chars.length - extension.length - 1) = _
        rw [count, split, List.take_left]
      rw [← String.toList_inj, String.toList_append, String.toList_ofList, String.toList_ofList, stem_eq, ← split]

private theorem name_of_isConvertible (convertible : isConvertible path = true) :
    path.name = (Path.splitName path.name).1 ++ ".ts" := by
  unfold isConvertible at convertible
  have suffix : path.suffix = ".ts" := by
    simp only [Bool.and_eq_true, decide_eq_true_eq] at convertible
    exact convertible.1
  conv_lhs => rw [← splitName_append path.name]
  rw [show (Path.splitName path.name).2 = ".ts" from suffix]

/-- A file that can lose its types has a name, and none of a file without types. -/
theorem isNamed_of_isConvertible (convertible : isConvertible path = true) : path.IsNamed ∧ ¬ IsPlainName path.name := by
  have name := congrArg (fun name => name.toList.reverse) (name_of_isConvertible convertible)
  refine ⟨⟨fun empty => ?_, fun up => ?_⟩, ?_⟩
  · rw [empty] at name
    simp at name
  · rw [up] at name
    simp at name
  · rintro ⟨stem, plain⟩
    rw [plain] at name
    simp at name

theorem isPlainName_convertedPath (convertible : isConvertible path = true) :
    (convertedPath path).IsNamed ∧ IsPlainName (convertedPath path).name := by
  have name : (convertedPath path).name = (Path.splitName path.name).1 ++ ".js" := by
    unfold isConvertible at convertible
    simp only [Bool.and_eq_true, decide_eq_true_eq] at convertible
    rw [convertedPath, convertible.1, Path.withSuffix, Path.name, List.getLast?_concat, Option.getD_some]
    rfl
  rw [Path.IsNamed, name]
  refine ⟨⟨fun empty => ?_, fun up => ?_⟩, _, rfl⟩
  · have length := congrArg String.length empty
    simp at length
  · have last := congrArg (fun name => name.toList.reverse) up
    simp at last

/-- A conversion that fails for what is in the file leaves everything as it is. -/
theorem convertFile_conversion {session after : Session} {fault : ConversionFault}
    (ran : (convertFile path).run session = (.error (.conversion fault), after)) : after = session ∧ fault.place = path := by
  have spec := converted_convertFile path session
  rw [ran] at spec
  cases spec with
  | refused fails own => exact ⟨rfl, own fault rfl⟩

/-! ## The disk of a session -/

/-- The disk of a session comes from the one of another session. -/
def SessionFollows (rewritten made : String → Prop) (before after : Session) : Prop :=
  Disk.Follows rewritten made before.disk after.disk

instance : Std.Refl (SessionFollows rewritten made) where
  refl session := .refl session.disk

instance : Trans (SessionFollows rewritten made) (SessionFollows rewritten made) (SessionFollows rewritten made) where
  trans first second := Disk.Follows.trans first second

theorem follows_of_eq {before after : Session} (same : after.disk = before.disk) :
    SessionFollows rewritten made before after := by
  unfold SessionFollows
  rw [same]
  exact .refl before.disk

theorem follows_action (named : path.IsNamed) (own : rewritten path.name) (action : Action) (arguments : List String) :
    Keeps (action.run path arguments) (SessionFollows rewritten made) := by
  intro session outcome next ran
  have edited := edited_action action path arguments session
  rw [ran] at edited
  cases edited with
  | left => exact .refl _
  | rewrote read written => exact Disk.follows_write named written (.inl ⟨own, _, read⟩)

theorem follows_convertFile (convertible : isConvertible path = true) :
    Keeps (convertFile path) (SessionFollows rewritten IsPlainName) := by
  obtain ⟨named, plain⟩ := isPlainName_convertedPath convertible
  intro session outcome next ran
  have converted := converted_convertFile path session
  rw [ran] at converted
  cases converted with
  | refused => exact .refl _
  | unwritten => exact .refl _
  | stuck read converts write => exact Disk.follows_write named write (.inr plain)
  | done read converts write unlink =>
    exact (Disk.follows_write named write (.inr plain)).trans (Disk.follows_unlink unlink)

theorem follows_removePath (path : Path) : Keeps (Operation.removePath path) (SessionFollows rewritten made) := by
  intro session outcome next ran
  cases ran
  exact Disk.follows_removePath session.disk path

/-! ## Text files -/

variable {change : List Char → List Char} {session after : Session}

theorem changeText_run (path : Path) (change : List Char → List Char) (session : Session) :
    (changeText path change).run session =
      match session.disk.read path with
      | .error _ => (.ok (), session)
      | .ok content =>
        match decode content with
        | .error fault => (.error (.text (.encoding fault)), session)
        | .ok text =>
          if change (Operation.unifyLines text) = Operation.unifyLines text then (.ok (), session)
          else
            match session.disk.write path (encodeChars (change (Operation.unifyLines text))) with
            | .error trouble => (.error (.text (.trouble trouble)), session)
            | .ok disk => (.ok (), { session with disk := disk }) := by
  unfold changeText
  rw [bind_run, ask_run]
  dsimp only
  cases read : session.disk.read path with
  | error trouble =>
    have absent : session.disk.isFile path ≠ true := by
      intro isFile
      obtain ⟨content, there⟩ := exists_read_of_isFile isFile
      rw [read] at there
      cases there
    rw [if_neg absent]
    rfl
  | ok content =>
    rw [if_pos (Disk.isFile_of_read read), bind_run, readText_run, read]
    dsimp only
    cases decode content with
    | error fault => rfl
    | ok text =>
      dsimp only
      split
      · rfl
      · rw [Operation.writeText, Operation.writeBytes, change_run]
        cases session.disk.write path (encodeChars (change (Operation.unifyLines text))) <;> rfl

/-- A change has nothing to do in a text file, if there is one. -/
def RestsIn (change : List Char → List Char) (disk : Disk) (path : Path) : Prop :=
  ∀ content, disk.read path = .ok content → ∃ text, decode content = .ok text ∧
    change (Operation.unifyLines text) = Operation.unifyLines text

theorem changeText_run_of_restsIn (rests : RestsIn change session.disk path) :
    (changeText path change).run session = (.ok (), session) := by
  rw [changeText_run]
  cases read : session.disk.read path with
  | error trouble => rfl
  | ok content =>
    obtain ⟨text, decoded, same⟩ := rests content read
    dsimp only
    rw [decoded]
    dsimp only
    rw [if_pos same]

theorem follows_changeText (named : path.IsNamed) (own : rewritten path.name) (change : List Char → List Char) :
    Keeps (changeText path change) (SessionFollows rewritten made) := by
  intro session outcome next ran
  rw [changeText_run] at ran
  split at ran
  · cases ran
    exact .refl _
  · next read =>
    split at ran
    · cases ran
      exact .refl _
    · split at ran
      · cases ran
        exact .refl _
      · split at ran
        · cases ran
          exact .refl _
        · next written =>
          cases ran
          exact Disk.follows_write named written (.inl ⟨own, _, read⟩)

theorem return_notMem_unifyLines (text : List Char) : '\r' ∉ Operation.unifyLines text := by
  induction text using Operation.unifyLines.induct with
  | case1 => exact List.not_mem_nil
  | case2 rest none_ =>
    rw [Operation.unifyLines, List.mem_cons, not_or]
    exact ⟨by decide, none_⟩
  | case3 c rest other none_ =>
    rw [Operation.unifyLines.eq_3 c rest other, List.mem_cons, not_or]
    refine ⟨?_, none_⟩
    split
    · decide
    · next dark => exact Ne.symm dark

/-- After a change that does all it can, it has nothing to do. -/
theorem restsIn_changeText (twice : ∀ text, change (change text) = change text)
    (clean : ∀ text, '\r' ∉ text → '\r' ∉ change text) (ran : (changeText path change).run session = (.ok (), after)) :
    RestsIn change after.disk path := by
  rw [changeText_run] at ran
  intro content found
  split at ran
  · next trouble read =>
    cases ran
    rw [read] at found
    cases found
  · next old read =>
    split at ran
    · cases ran
    · next text decoded =>
      split at ran
      · next same =>
        cases ran
        obtain rfl := Except.ok.inj (read.symm.trans found)
        exact ⟨text, decoded, same⟩
      · split at ran
        · cases ran
        · next disk written =>
          cases ran
          obtain ⟨location, -, written', readBack⟩ :=
            Disk.exists_write_of_read read (encodeChars (change (Operation.unifyLines text)))
          obtain rfl := Except.ok.inj (written.symm.trans written')
          obtain rfl := Except.ok.inj (readBack.symm.trans found)
          have unified := unifyLines_of_notMem (clean _ (return_notMem_unifyLines text))
          exact ⟨_, decode_encodeChars _, by rw [unified, twice]⟩

end Scaffold.Project
