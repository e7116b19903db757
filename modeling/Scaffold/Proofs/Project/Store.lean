import Scaffold.Proofs.Files.Disk
import Scaffold.Proofs.Json.Document
import Scaffold.Proofs.Project.Isolation
import Scaffold.Proofs.Text.Utf8

/-! # The manifest and its file

Between loading and saving, a manifest remembers the document that it last loaded or wrote. Saving writes the
file exactly when the document in memory is another one, the order of its keys included, or when that is
demanded, and afterwards the file holds the document in memory. What carries this over any number of changes
and savings is that the file goes on to hold the document that is remembered.
-/

namespace Scaffold.Project

open Scaffold.Text Scaffold.Files Scaffold.Json Stateful

/-! ## Documents in files -/

theorem unifyLines_of_notMem : ∀ {text : List Char}, '\r' ∉ text → Operation.unifyLines text = text
  | [], _ => rfl
  | c :: rest, none_ => by
    obtain ⟨first, later⟩ := not_or.mp (mt List.mem_cons.mpr none_)
    rw [Operation.unifyLines.eq_def]
    split
    · next eq => cases eq
    · next eq => exact absurd (List.cons.inj eq).1.symm first
    · next eq =>
      obtain ⟨rfl, rfl⟩ := List.cons.inj eq
      rw [if_neg (Ne.symm first), unifyLines_of_notMem later]

theorem readBytes_run (path : Path) (session : Session) :
    (Operation.readBytes path).run session =
      match session.disk.read path with
      | .ok content => (.ok content, session)
      | .error trouble => (.error (.text (.trouble trouble)), session) := by
  change (Operation.liftTrouble (session.disk.read path)).run session = _
  cases session.disk.read path <;> rfl

theorem readText_run (path : Path) (session : Session) :
    (Operation.readText path).run session =
      match session.disk.read path with
      | .error trouble => (.error (.text (.trouble trouble)), session)
      | .ok content =>
        match decode content with
        | .error fault => (.error (.text (.encoding fault)), session)
        | .ok text => (.ok (Operation.unifyLines text), session) := by
  unfold Operation.readText
  rw [bind_run, readBytes_run]
  cases session.disk.read path with
  | error trouble => rfl
  | ok content =>
    dsimp only
    cases decode content <;> rfl

/-- A file holds a document when its content is read as the document. -/
def Holds (disk : Disk) (path : Path) (value : Value) : Prop :=
  ∃ content text, disk.read path = .ok content ∧ decode content = .ok text ∧
    parse (Operation.unifyLines text) = .ok value

theorem readJson_run_iff {path : Path} {session : Session} {value : Value} :
    (Operation.readJson path).run session = (.ok value, session) ↔ Holds session.disk path value := by
  unfold Operation.readJson Holds
  rw [bind_run, readText_run]
  constructor
  · intro ran
    cases content : session.disk.read path with
    | error trouble => rw [content] at ran; cases ran
    | ok bytes =>
      rw [content] at ran
      dsimp only at ran
      cases decoded : decode bytes with
      | error fault => rw [decoded] at ran; cases ran
      | ok text =>
        rw [decoded] at ran
        dsimp only at ran
        cases parsed : parse (Operation.unifyLines text) with
        | error fault => rw [parsed] at ran; cases ran
        | ok found =>
          rw [parsed] at ran
          cases ran
          exact ⟨bytes, text, rfl, decoded, parsed⟩
  · rintro ⟨bytes, text, content, decoded, parsed⟩
    rw [content]
    dsimp only
    rw [decoded]
    dsimp only
    rw [parsed]
    rfl

/-- A file that contains the text of a document holds it. -/
theorem holds_document {disk : Disk} {path : Path} {value : Value} (distinct : value.Distinct)
    (integral : value.isIntegral = true) (read : disk.read path = .ok (encodeChars (document value).toList)) :
    Holds disk path value := by
  obtain ⟨other, parsed, coarse⟩ := parse_document distinct
  refine ⟨_, _, read, decode_encodeChars _, ?_⟩
  rw [unifyLines_of_notMem (return_notMem_document value), parsed, Value.eq_of_coarse integral coarse]

/-- A file that holds a document can be given another one. -/
theorem exists_write_document {disk : Disk} {path : Path} {old : Value} (held : Holds disk path old) {value : Value}
    (distinct : value.Distinct) (integral : value.isIntegral = true) :
    ∃ written, disk.write path (encodeChars (document value).toList) = .ok written ∧ Holds written path value := by
  obtain ⟨content, text, read, -, -⟩ := held
  obtain ⟨location, -, write, readBack⟩ := Disk.exists_write_of_read read (encodeChars (document value).toList)
  exact ⟨_, write, holds_document distinct integral readBack⟩

theorem Holds.eq {disk : Disk} {path : Path} {value other : Value} (held : Holds disk path value) (held' : Holds disk path other) :
    other = value := by
  obtain ⟨content, text, read, decoded, parsed⟩ := held
  obtain ⟨content', text', read', decoded', parsed'⟩ := held'
  obtain rfl := Except.ok.inj (read.symm.trans read')
  obtain rfl := Except.ok.inj (decoded.symm.trans decoded')
  exact Except.ok.inj (parsed'.symm.trans parsed)

/-- What a file holds that can contain nothing but the text of a document is the document, up to the form of its
numbers. -/
theorem Holds.coarse {disk : Disk} {path : Path} {value other : Value} (held : Holds disk path other) (distinct : value.Distinct)
    (read : ∀ content, disk.read path = .ok content → content = encodeChars (document value).toList) :
    other.coarse = value.coarse := by
  obtain ⟨content, text, read', decoded, parsed⟩ := held
  obtain rfl := read content read'
  obtain rfl := Except.ok.inj ((decode_encodeChars _).symm.trans decoded)
  obtain ⟨found, parsed', coarse⟩ := parse_document distinct
  rw [unifyLines_of_notMem (return_notMem_document value), parsed'] at parsed
  exact Except.ok.inj parsed ▸ coarse

/-- Values with the same document are the same up to the form of their numbers. -/
theorem coarse_of_document_eq {value other : Value} (distinct : value.Distinct) (distinctOther : other.Distinct)
    (same : document other = document value) : other.coarse = value.coarse := by
  obtain ⟨read, parsed, coarse⟩ := parse_document distinct
  obtain ⟨read', parsed', coarse'⟩ := parse_document distinctOther
  rw [same, parsed] at parsed'
  cases parsed'
  exact coarse'.symm.trans coarse

/-- Documents of different values differ, the order of keys included. -/
theorem document_inj {value other : Value} (distinct : value.Distinct) (integral : value.isIntegral = true)
    (distinctOther : other.Distinct) (same : document other = document value) : other = value :=
  Value.eq_of_coarse integral (coarse_of_document_eq distinct distinctOther same)

/-! ## Changes of a manifest -/

namespace Manifest

/-- A change of a manifest in memory. -/
inductive Change where
  | setName (name : String)
  | removeDependencies (names : List String) (sectionName : String)
  | removeScripts (names : List String)
  | ensureDependency (name version sectionName : String)
  | rewriteScripts (rewrite : String → String → Option String)

def Change.apply : Change → Manifest → Manifest
  | .setName name, manifest => manifest.setName name
  | .removeDependencies names sectionName, manifest => (manifest.removeKeys sectionName names).2
  | .removeScripts names, manifest => (manifest.removeKeys "scripts" names).2
  | .ensureDependency name version sectionName, manifest => manifest.ensureDependency name version sectionName
  | .rewriteScripts rewrite, manifest => manifest.rewriteScripts rewrite

/-- An object that is read back exactly once it has been written. -/
structure Exact (members : Members) : Prop where
  distinct : (Value.object members).Distinct
  integral : (Value.object members).isIntegral = true

/-- A property of texts that an object has when its values do, with conditions on its keys that fewer keys
satisfy too. -/
structure Hereditary (property : Value → Prop) : Prop where
  text : ∀ text, property (.text text)
  set : ∀ {members : Members} {key : String} {value : Value}, property (.object members) → property value →
    property (.object (members.set key value))
  part : ∀ {members part : Members}, property (.object members) → part.keys.Sublist members.keys →
    (∀ member ∈ part, member ∈ members ∨ property member.2) → property (.object part)
  get? : ∀ {members : Members} {key : String} {value : Value}, property (.object members) →
    members.get? key = some value → property value

theorem hereditary_distinct : Hereditary Value.Distinct := by
  refine ⟨fun _ => trivial, fun own new => distinct_set _ own new, fun own keys values => ?_, fun own found => ?_⟩
  · refine ⟨own.1.sublist keys, Value.membersDistinct_iff.mpr fun member mem => ?_⟩
    exact (values member mem).elim (Value.membersDistinct_iff.mp own.2 member) id
  · obtain ⟨member, held, rfl⟩ := Option.map_eq_some_iff.mp found
    exact Value.membersDistinct_iff.mp own.2 member (List.mem_of_find?_eq_some held)

theorem hereditary_integral : Hereditary fun value => value.isIntegral = true := by
  refine ⟨fun _ => rfl, fun own new => ?_, fun own _ values => ?_, fun own found => ?_⟩
  · refine Value.membersIntegral_iff.mpr fun member mem => ?_
    rcases mem_set mem with rfl | old
    · exact new
    · exact Value.membersIntegral_iff.mp own member old
  · refine Value.membersIntegral_iff.mpr fun member mem => ?_
    exact (values member mem).elim (Value.membersIntegral_iff.mp own member) id
  · obtain ⟨member, held, rfl⟩ := Option.map_eq_some_iff.mp found
    exact Value.membersIntegral_iff.mp own member (List.mem_of_find?_eq_some held)

variable {manifest : Manifest} {part : Members}

theorem section?_eq_some_iff {name : String} :
    manifest.section? name = some part ↔ manifest.data.get? name = some (.object part) := by
  unfold section?
  cases manifest.data.get? name with
  | none => simp
  | some value => cases value <;> simp [Value.members?]

theorem sublist_foldl_erase (names : List String) (members : Members) :
    (names.foldl Members.erase members).Sublist members := by
  induction names generalizing members with
  | nil => exact .refl _
  | cons name later sublist => exact (sublist (members.erase name)).trans List.filter_sublist

theorem rewriteScript_eq_some {rewrite : String → String → Option String} {script changed : String × Value}
    (eq : rewriteScript rewrite script = some changed) :
    changed.1 = script.1 ∧ (changed = script ∨ ∃ text, changed.2 = .text text) := by
  unfold rewriteScript at eq
  split at eq
  · obtain ⟨text, -, rfl⟩ := Option.map_eq_some_iff.mp eq
    exact ⟨rfl, .inr ⟨text, rfl⟩⟩
  · cases eq
    exact ⟨rfl, .inl rfl⟩

theorem sublist_keys_filterMap (rewrite : String → String → Option String) (scripts : Members) :
    (Members.keys (scripts.filterMap (rewriteScript rewrite))).Sublist scripts.keys := by
  induction scripts with
  | nil => exact .refl _
  | cons script later sublist =>
    rw [List.filterMap_cons]
    split
    · exact sublist.cons _
    · next changed eq =>
      rw [Members.keys, List.map_cons, (rewriteScript_eq_some eq).1]
      exact sublist.cons_cons _

/-- A change leaves parts of what was there, and texts. -/
theorem Hereditary.apply {property : Value → Prop} (hereditary : Hereditary property) (change : Change)
    (own : property (.object manifest.data)) : property (.object (change.apply manifest).data) := by
  have removed (names : List String) (sectionName : String) :
      property (.object (manifest.removeKeys sectionName names).2.data) := by
    unfold removeKeys
    split
    · exact own
    · next part found =>
      have inner := hereditary.get? own (section?_eq_some_iff.mp found)
      have sublist := sublist_foldl_erase names part
      exact hereditary.set own (hereditary.part inner (sublist.map _) fun member mem => .inl (sublist.subset mem))
  cases change with
  | setName name => exact hereditary.set own (hereditary.text name)
  | removeDependencies names sectionName => exact removed names sectionName
  | removeScripts names => exact removed names "scripts"
  | ensureDependency name version sectionName =>
    have inner : property (.object (manifest.members sectionName)) := by
      unfold members
      cases found : manifest.section? sectionName with
      | none => exact hereditary.part own (List.nil_sublist _) fun _ mem => absurd mem List.not_mem_nil
      | some part => exact hereditary.get? own (section?_eq_some_iff.mp found)
    have grown : property (.object (if name ∈ (manifest.members sectionName).keys then manifest.members sectionName
        else (manifest.members sectionName).set name (.text version))) := by
      split
      · exact inner
      · exact hereditary.set inner (hereditary.text version)
    exact hereditary.set own grown
  | rewriteScripts rewrite =>
    change property (.object (manifest.rewriteScripts rewrite).data)
    unfold Manifest.rewriteScripts
    split
    · exact own
    · next scripts found =>
      have inner := hereditary.get? own (section?_eq_some_iff.mp found)
      refine hereditary.set own (hereditary.part inner (sublist_keys_filterMap rewrite scripts) fun member mem => ?_)
      obtain ⟨script, held, eq⟩ := List.mem_filterMap.mp mem
      rcases (rewriteScript_eq_some eq).2 with rfl | ⟨text, eq⟩
      · exact .inl held
      · exact .inr (by rw [eq]; exact hereditary.text text)

/-- No change brings in a number with a point or an exponent, or a key for the second time. -/
theorem exact_apply (change : Change) (exact_ : Exact manifest.data) : Exact (change.apply manifest).data :=
  ⟨hereditary_distinct.apply change exact_.distinct, hereditary_integral.apply change exact_.integral⟩

theorem apply_eq (change : Change) (manifest : Manifest) :
    change.apply manifest = { manifest with data := (change.apply manifest).data } := by
  have removed (names : List String) (sectionName : String) :
      (manifest.removeKeys sectionName names).2 =
        { manifest with data := (manifest.removeKeys sectionName names).2.data } := by
    unfold removeKeys
    split <;> rfl
  cases change with
  | setName name => rfl
  | removeDependencies names sectionName => exact removed names sectionName
  | removeScripts names => exact removed names "scripts"
  | ensureDependency name version sectionName => rfl
  | rewriteScripts rewrite =>
    change manifest.rewriteScripts rewrite = { manifest with data := (manifest.rewriteScripts rewrite).data }
    unfold Manifest.rewriteScripts
    split <;> rfl

/-! ## Histories -/

/-- A session with a manifest that was loaded in it, and the document that was last loaded or written. -/
structure Editing where
  session : Session
  manifest : Manifest
  last : Members

/-- What may happen: a change in memory, saving, or something else that leaves the file as it is. -/
inductive Step : Editing → Editing → Prop
  | change (editing : Editing) (change : Change) :
      Step editing { editing with manifest := change.apply editing.manifest }
  | save {editing : Editing} {force wrote : Bool} {saved : Manifest} {after : Session}
      (ran : (editing.manifest.save force).run editing.session = (.ok (wrote, saved), after)) :
      Step editing ⟨after, saved, if wrote then saved.data else editing.last⟩
  | elsewhere (editing : Editing) {after : Session}
      (spared : after.disk.read editing.manifest.path = editing.session.disk.read editing.manifest.path) :
      Step editing { editing with session := after }

/-- Any number of steps, one after the other. -/
inductive Steps : Editing → Editing → Prop
  | refl (editing : Editing) : Steps editing editing
  | tail {first second third : Editing} (earlier : Steps first second) (last : Step second third) : Steps first third

/-- What every step keeps: the manifest remembers the document last loaded or written, and the file holds it. -/
structure Settled (path : Path) (editing : Editing) : Prop where
  place : editing.manifest.path = path
  data : Exact editing.manifest.data
  last : Exact editing.last
  stored : editing.manifest.stored = document (.object editing.last)
  held : Holds editing.session.disk path (.object editing.last)

variable {path : Path} {editing next : Editing}

/-- The document in memory counts as changed exactly when it is not the one last loaded or written. -/
theorem Settled.isDirty_iff (settled : Settled path editing) :
    editing.manifest.isDirty = true ↔ editing.manifest.data ≠ editing.last := by
  unfold isDirty text
  rw [decide_eq_true_iff, settled.stored, not_iff_not]
  constructor
  · intro same
    exact Value.object.inj (document_inj settled.last.distinct settled.last.integral settled.data.distinct same)
  · intro same
    rw [same]

/-- Saving succeeds. It writes the file when that is demanded or the document is not the one last loaded or
written, does nothing otherwise, and the file holds the document in memory. -/
theorem Settled.save_run (settled : Settled path editing) (force : Bool) :
    ∃ wrote saved after, (editing.manifest.save force).run editing.session = (.ok (wrote, saved), after) ∧
      (wrote = true ↔ force = true ∨ editing.manifest.data ≠ editing.last) ∧
      (wrote = true → saved = { editing.manifest with stored := editing.manifest.text } ∧ ∃ disk,
        editing.session.disk.write path (encodeChars editing.manifest.text.toList) = .ok disk ∧
          after = { editing.session with disk := disk }) ∧
      (wrote = false → saved = editing.manifest ∧ after = editing.session) ∧
      Holds after.disk path (.object editing.manifest.data) := by
  obtain rfl := settled.place
  obtain ⟨disk, write, holds⟩ := exists_write_document settled.held settled.data.distinct settled.data.integral
  rw [show document (.object editing.manifest.data) = editing.manifest.text from rfl] at write
  have ran := Project.save_run editing.manifest force editing.session
  by_cases writes : (force || editing.manifest.isDirty) = true
  · rw [if_pos writes, write] at ran
    refine ⟨_, _, _, ran, ⟨fun _ => ?_, fun _ => rfl⟩, fun _ => ⟨rfl, disk, write, rfl⟩, nofun, holds⟩
    rwa [Bool.or_eq_true, settled.isDirty_iff] at writes
  · rw [if_neg writes] at ran
    rw [Bool.or_eq_true, settled.isDirty_iff] at writes
    refine ⟨_, _, _, ran, ⟨nofun, fun demanded => absurd demanded writes⟩, nofun, fun _ => ⟨rfl, rfl⟩, ?_⟩
    rw [Classical.not_not.mp (not_or.mp writes).2]
    exact settled.held

theorem Settled.step (settled : Settled path editing) (step : Step editing next) : Settled path next := by
  cases step with
  | change change =>
    have same := apply_eq change editing.manifest
    exact ⟨(congrArg Manifest.path same).trans settled.place, exact_apply change settled.data, settled.last,
      (congrArg Manifest.stored same).trans settled.stored, settled.held⟩
  | @save force wrote saved after ran =>
    obtain ⟨_, _, _, ran', -, written, kept, holds⟩ := settled.save_run force
    rw [ran] at ran'
    cases ran'
    cases wrote with
    | true =>
      obtain ⟨rfl, -⟩ := written rfl
      exact ⟨settled.place, settled.data, settled.data, rfl, holds⟩
    | false =>
      obtain ⟨rfl, rfl⟩ := kept rfl
      exact settled
  | elsewhere spared =>
    obtain ⟨content, text, read, decoded, parsed⟩ := settled.held
    rw [settled.place] at spared
    exact ⟨settled.place, settled.data, settled.last, settled.stored, content, text, spared.trans read, decoded, parsed⟩

theorem Settled.steps (settled : Settled path editing) (steps : Steps editing next) : Settled path next := by
  induction steps with
  | refl => exact settled
  | tail earlier last kept => exact kept.step last

/-- A file that holds an object is loaded as it. -/
theorem load_run {session : Session} {data : Members} (held : Holds session.disk path (.object data)) :
    (load path).run session = (.ok (ofData path data), session) := by
  have isFile : session.disk.isFile path = true := by
    obtain ⟨content, -, read, -⟩ := held
    exact Disk.isFile_of_read read
  have asked : (Operation.ask fun disk => disk.isFile path).run session = (.ok true, session) := by
    rw [← isFile]
    rfl
  unfold load
  rw [bind_run, asked]
  dsimp only [Bool.not_true]
  rw [if_neg (by decide), bind_run, tryCatch_run, readJson_run_iff.mpr held]
  rfl

/-- A manifest that was just loaded is settled. -/
theorem Settled.loaded {session : Session} {data : Members} (held : Holds session.disk path (.object data))
    (integral : (Value.object data).isIntegral = true) : Settled path ⟨session, ofData path data, data⟩ := by
  have distinct : (Value.object data).Distinct := by
    obtain ⟨_, _, _, _, parsed⟩ := held
    exact distinct_of_parse parsed
  exact ⟨rfl, ⟨distinct, integral⟩, ⟨distinct, integral⟩, rfl, held⟩

/-- A manifest is loaded from a file that holds an object whose numbers are integers. Whatever then happens to it
while nobody else writes the file, saving succeeds; it writes the file exactly when that is demanded or the
document in memory is not the one last loaded or written, and the file is read back as the document in memory. -/
theorem save_writes_changes {session : Session} {data : Members}
    (held : (Operation.readJson path).run session = (.ok (.object data), session))
    (integral : (Value.object data).isIntegral = true) :
    (load path).run session = (.ok (ofData path data), session) ∧
      ∀ editing, Steps ⟨session, ofData path data, data⟩ editing → ∀ force,
        ∃ wrote saved after, (editing.manifest.save force).run editing.session = (.ok (wrote, saved), after) ∧
          saved.data = editing.manifest.data ∧
          (wrote = true ↔ force = true ∨ editing.manifest.data ≠ editing.last) ∧
          (wrote = true → ∃ disk, editing.session.disk.write path
            (encodeChars (document (.object editing.manifest.data)).toList) = .ok disk ∧
              after = { editing.session with disk := disk }) ∧
          (wrote = false → after = editing.session) ∧
          (Operation.readJson path).run after = (.ok (.object editing.manifest.data), after) := by
  have holds := readJson_run_iff.mp held
  refine ⟨load_run holds, fun editing steps force => ?_⟩
  obtain ⟨wrote, saved, after, ran, iff, written, kept, holds⟩ :=
    ((Settled.loaded holds integral).steps steps).save_run force
  refine ⟨wrote, saved, after, ran, ?_, iff, fun writes => (written writes).2, fun writes => (kept writes).2,
    readJson_run_iff.mpr holds⟩
  cases wrote with
  | true => rw [(written rfl).1]
  | false => rw [(kept rfl).1]

/-- A document with two scripts. -/
def twoScripts : Members :=
  [("z", .array [.integer 1, .integer (-20)]), ("scripts", .object [("b", .text "c"), ("d", .text "e")])]

def oneScript : Members := [("z", .array [.integer 1, .integer (-20)]), ("scripts", .object [("d", .text "e")])]

def twoScriptsDisk : Disk := ⟨[], [(["package.json"], .file (encodeChars (document (.object twoScripts)).toList))]⟩

/-- Once a script was removed, saving writes the file, and it holds the document without the script. -/
theorem save_writes_removed_script :
    (Operation.readJson ⟨false, ["package.json"]⟩).run ⟨twoScriptsDisk, [], []⟩ =
        (.ok (.object twoScripts), ⟨twoScriptsDisk, [], []⟩) ∧
      (Value.object twoScripts).isIntegral = true ∧
      ∃ editing, Steps ⟨⟨twoScriptsDisk, [], []⟩, ofData ⟨false, ["package.json"]⟩ twoScripts, twoScripts⟩ editing ∧
        ∃ saved after, (editing.manifest.save false).run editing.session = (.ok (true, saved), after) ∧
          (Operation.readJson ⟨false, ["package.json"]⟩).run after = (.ok (.object oneScript), after) := by
  have integral : (Value.object twoScripts).isIntegral = true := by decide
  have distinct : (Value.object twoScripts).Distinct := by
    simp [twoScripts, Value.Distinct, Value.AreDistinct]
  have held : (Operation.readJson ⟨false, ["package.json"]⟩).run ⟨twoScriptsDisk, [], []⟩ =
      (.ok (.object twoScripts), ⟨twoScriptsDisk, [], []⟩) :=
    readJson_run_iff.mpr (holds_document distinct integral (Disk.read_eq_ok_iff.mpr ⟨["package.json"], by decide, by rfl⟩))
  have kept : ((Change.removeScripts ["b"]).apply (ofData ⟨false, ["package.json"]⟩ twoScripts)).data = oneScript := by
    rfl
  have steps := Steps.tail (.refl _)
    (.change ⟨⟨twoScriptsDisk, [], []⟩, ofData ⟨false, ["package.json"]⟩ twoScripts, twoScripts⟩ (.removeScripts ["b"]))
  obtain ⟨wrote, saved, after, ran, -, iff, -, -, read⟩ := (save_writes_changes held integral).2 _ steps false
  obtain rfl : wrote = true := by
    refine iff.mpr (.inr ?_)
    rw [kept]
    simp [oneScript, twoScripts]
  rw [kept] at read
  exact ⟨held, integral, _, steps, saved, after, ran, read⟩

end Manifest

end Scaffold.Project
