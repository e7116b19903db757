import Scaffold.Proofs.Project.Converting
import Scaffold.Proofs.Project.Failing

/-! # Where names lead when types are removed

The scripts of a manifest and the page of a project name files, and the removal of types takes the names over to the
new endings. It does so whether or not the files are among those that it converts, and whether or not they can be
converted. A name leads to a file afterwards exactly when it is one of those that were, or there was one already.
-/

namespace Scaffold.Project

open Scaffold.Text Scaffold.Files Scaffold.Json Stateful Processing Manifest

variable {name text part front : List Char} {parts : List (List Char)}

/-! ## Names in a text -/

/-- A name stands in a text apart from others: no name goes on at its ends. -/
def StandsIn (name text : List Char) : Prop :=
  ∃ front back, text = front ++ name ++ back ∧ (∀ c ∈ front.getLast?, isWord c = false ∧ c ≠ '.') ∧ endsWord back = true

theorem standsIn_self (name : List Char) : StandsIn name name :=
  ⟨[], [], by rw [List.nil_append, List.append_nil], nofun, rfl⟩

private theorem apart_renamed (apart : ∀ c ∈ front.getLast?, isWord c = false ∧ c ≠ '.') :
    ∀ c ∈ (renamed front).getLast?, isWord c = false ∧ c ≠ '.' := by
  rcases List.eq_nil_or_concat front with rfl | ⟨above, last, rfl⟩
  · exact nofun
  · rw [List.concat_eq_append] at apart ⊢
    obtain ⟨word, dot⟩ := apart last List.getLast?_concat
    have ends : endsWord [last] = true := by simp [endsWord, word]
    have own : renamed [last] = [last] := renamed.eq_2 last [] fun _ same => absurd same dot
    rw [renamed_append_of_endsWord _ ends, own]
    intro c same
    rw [List.getLast?_concat, Option.mem_some_iff] at same
    exact same ▸ ⟨word, dot⟩

theorem StandsIn.renamed (stands : StandsIn name text) : StandsIn (renamed name) (renamed text) := by
  obtain ⟨front, back, rfl, apart, ends⟩ := stands
  refine ⟨Project.renamed front, Project.renamed back, ?_, apart_renamed apart, by rw [endsWord_renamed, ends]⟩
  rw [renamed_append_of_endsWord _ ends, renamed_append_of_last apart]

theorem StandsIn.before_blank (stands : StandsIn name text) (rest : List Char) : StandsIn name (text ++ ' ' :: rest) := by
  obtain ⟨front, back, rfl, apart, ends⟩ := stands
  refine ⟨front, back ++ ' ' :: rest, by simp only [List.append_assoc], apart, ?_⟩
  cases back with
  | nil => rw [List.nil_append, endsWord, show isWord ' ' = false by decide]; rfl
  | cons c later => exact ends

theorem StandsIn.after_blank (stands : StandsIn name text) (rest : List Char) : StandsIn name (rest ++ ' ' :: text) := by
  obtain ⟨front, back, rfl, apart, ends⟩ := stands
  refine ⟨rest ++ ' ' :: front, back, by simp only [List.append_assoc, List.cons_append], ?_, ends⟩
  rw [List.getLast?_append, List.getLast?_cons]
  cases last : front.getLast? with
  | none =>
    intro c same
    obtain rfl := Option.some.inj same
    exact ⟨by decide, by decide⟩
  | some c =>
    intro d same
    obtain rfl := Option.some.inj same
    exact apart c last

theorem StandsIn.intercalate (stands : StandsIn name part) (mem : part ∈ parts) : StandsIn name (joint.intercalate parts) := by
  induction parts with
  | nil => cases mem
  | cons first later inside =>
    cases later with
    | nil =>
      obtain rfl := List.mem_singleton.mp mem
      rwa [List.intercalate_singleton]
    | cons next others =>
      rw [List.intercalate_cons_cons, List.append_assoc]
      rcases List.mem_cons.mp mem with rfl | mem
      · exact stands.before_blank _
      · rw [show joint = " &&".toList ++ [' '] by decide, List.append_assoc, ← List.append_assoc]
        exact (inside mem).after_blank _

/-! ## The scripts -/

/-- The parts of a script that are kept without types. -/
def keptParts (script : String) (command : List Char) : List (List Char) :=
  if script = "type" || script = "type-check" then []
  else if script = "build" then keptSegments command
  else [command]

theorem untypedScript_eq (script command : String) :
    untypedScript script command =
      if keptParts script command.toList = [] then none
      else some (String.ofList (joint.intercalate ((keptParts script command.toList).map renamed))) := by
  unfold untypedScript keptParts
  split
  · rfl
  · split
    · split
      · next none_ => rw [if_pos none_]
      · next some_ => rw [if_neg some_, renameEndings_eq, show " && ".toList = joint from rfl, renamed_intercalate]
    · rw [if_neg (List.cons_ne_nil _ _), renameEndings_eq, List.map_singleton, List.intercalate_singleton]

/-- A name in a part of a script that is kept stands in the new script, with the new ending. -/
theorem exists_untypedScript {script command : String} (mem : part ∈ keptParts script command.toList) (stands : StandsIn name part) :
    ∃ changed, untypedScript script command = some changed ∧ StandsIn (renamed name) changed.toList := by
  refine ⟨_, by rw [untypedScript_eq, if_neg (List.ne_nil_of_mem mem)], ?_⟩
  rw [String.toList_ofList]
  exact stands.renamed.intercalate (List.mem_map_of_mem mem)

theorem section?_removeKeys_of_ne {manifest : Manifest} {sectionName other : String} (apart : other ≠ sectionName) (names : List String) :
    (manifest.removeKeys sectionName names).2.section? other = manifest.section? other := by
  unfold removeKeys
  split
  · rfl
  · rw [section?, get?_set, if_neg apart, section?]

theorem section?_ensureDependency_of_ne {manifest : Manifest} {sectionName other : String} (apart : other ≠ sectionName)
    (package version : String) : (manifest.ensureDependency package version sectionName).section? other = manifest.section? other := by
  rw [ensureDependency, section?, get?_set, if_neg apart, section?]

theorem section?_rewriteScripts (manifest : Manifest) (rewrite : String → String → Option String) :
    (manifest.rewriteScripts rewrite).section? "scripts" =
      (manifest.section? "scripts").map fun scripts => scripts.filterMap (rewriteScript rewrite) := by
  unfold rewriteScripts
  cases held : manifest.section? "scripts" with
  | none => exact held
  | some scripts =>
    dsimp only
    rw [section?, get?_set, if_pos rfl]
    rfl

/-- Without types the scripts are those that can be rewritten, and nothing else happens to them. -/
theorem Family.scripts_strip (family : Family) (manifest : Manifest) :
    (family.retainPackages (family.untypeManifest manifest)).section? "scripts" =
      (manifest.section? "scripts").map fun scripts => scripts.filterMap (rewriteScript untypedScript) := by
  have retained (packages : List (String × String)) (begun : Manifest) :
      (packages.foldl (fun manifest package => manifest.ensureDependency package.1 package.2 "devDependencies") begun).section?
        "scripts" = begun.section? "scripts" := by
    induction packages generalizing begun with
    | nil => rfl
    | cons package later same => rw [List.foldl_cons, same, section?_ensureDependency_of_ne (by decide)]
  rw [retainPackages, retained, untypeManifest, section?_rewriteScripts, section?_removeKeys_of_ne (by decide)]

/-! ## The page -/

/-- A file holds a text, its lines ended by line feeds. -/
def HoldsText (disk : Disk) (path : Path) (text : List Char) : Prop :=
  ∃ content raw, disk.read path = .ok content ∧ decode content = .ok raw ∧ Operation.unifyLines raw = text

theorem holdsText_changeText {change : List Char → List Char} {path : Path} {session last : Session}
    (clean : ∀ text, '\r' ∉ text → '\r' ∉ change text) (ran : (changeText path change).run session = (.ok (), last))
    (holds : HoldsText session.disk path text) : HoldsText last.disk path (change text) := by
  obtain ⟨content, raw, read, decoded, rfl⟩ := holds
  rw [changeText_run, read] at ran
  dsimp only at ran
  rw [decoded] at ran
  dsimp only at ran
  split at ran
  · next same =>
    cases ran
    exact ⟨content, raw, read, decoded, same.symm⟩
  · split at ran
    · cases ran
    · next disk written =>
      cases ran
      obtain ⟨location, -, written', readBack⟩ :=
        Disk.exists_write_of_read read (encodeChars (change (Operation.unifyLines raw)))
      obtain rfl := Except.ok.inj (written.symm.trans written')
      exact ⟨_, _, readBack, decode_encodeChars _, unifyLines_of_notMem (clean _ (return_notMem_unifyLines raw))⟩

theorem plainEntry_infix_renameEntry (mention : typedEntry <:+: text) : plainEntry <:+: renameEntry text := by
  induction text using entry_induction with
  | nil => exact absurd (List.infix_nil.mp mention) (by decide)
  | entry rest _ => exact ⟨[], renameEntry rest, by rw [renameEntry_append]; rfl⟩
  | other c rest found inside =>
    rw [renameEntry_of_unmarked found]
    exact List.infix_cons (inside ((List.infix_cons_iff.mp mention).resolve_left found))

/-! ## Where names with endings lead -/

/-- The endings of a file with types and of the one that takes its place. -/
def IsEnding (ending : String) : Prop := ending = ".ts" ∨ ending = ".js"

private theorem exists_partsBetween_append (front : List Char) :
    ∃ above last, ∀ back, '/' ∉ back → partsBetween '/' (front ++ back) = above ++ [last ++ back] := by
  induction front with
  | nil => exact ⟨[], [], fun back absent => Path.partsBetween_of_notMem absent⟩
  | cons c rest parts =>
    obtain ⟨above, last, parts⟩ := parts
    by_cases slash : c = '/'
    · refine ⟨[] :: above, last, fun back absent => ?_⟩
      rw [List.cons_append, partsBetween, parts back absent]
      cases above <;> simp [slash]
    · cases above with
      | nil =>
        refine ⟨[], c :: last, fun back absent => ?_⟩
        rw [List.cons_append, partsBetween, parts back absent]
        simp [slash]
      | cons first others =>
        refine ⟨(c :: first) :: others, last, fun back absent => ?_⟩
        rw [List.cons_append, partsBetween, parts back absent]
        simp [slash]

private theorem exists_ofString_append (stem : String) : ∃ absolute above last, ∀ ending, IsEnding ending →
    Path.ofString (stem ++ ending) = ⟨absolute, above ++ [last ++ ending]⟩ := by
  obtain ⟨above, last, parts⟩ := exists_partsBetween_append stem.toList
  refine ⟨stem.toList.head? = some '/', (above.map String.ofList).filter fun part => part ≠ "" && part ≠ ".",
    String.ofList last, fun ending isEnding => ?_⟩
  have slash : '/' ∉ ending.toList := by rcases isEnding with rfl | rfl <;> decide
  have long : ending.length = 3 := by rcases isEnding with rfl | rfl <;> rfl
  have head : (stem ++ ending).toList.head? = some '/' ↔ stem.toList.head? = some '/' := by
    rw [String.toList_append]
    cases stem.toList with
    | nil => rcases isEnding with rfl | rfl <;> simp
    | cons c rest => simp
  have name : String.ofList (last ++ ending.toList) = String.ofList last ++ ending := by
    rw [String.ofList_append, String.ofList_toList]
  have kept : String.ofList last ++ ending ≠ "" ∧ String.ofList last ++ ending ≠ "." := by
    have length : (String.ofList last ++ ending).length = last.length + 3 := by
      rw [String.length_append, String.length_ofList, long]
    constructor <;> intro same <;> rw [same] at length
    · exact absurd length (Nat.succ_ne_zero _).symm
    · exact absurd (Nat.succ.inj length) (Nat.succ_ne_zero _).symm
  rw [Path.ofString, String.toList_append, parts _ slash, List.map_append, List.map_singleton, List.filter_append, name,
    ← String.toList_append, Files.Path.mk.injEq]
  exact ⟨decide_eq_decide.mpr head, by simp [kept]⟩

private theorem exists_child_append (target : Path) (stem : String) : ∃ absolute above last, ∀ ending, IsEnding ending →
    target.child (stem ++ ending) = ⟨absolute, above ++ [last ++ ending]⟩ := by
  obtain ⟨absolute, above, last, path⟩ := exists_ofString_append stem
  refine ⟨absolute || target.absolute, if absolute then above else target.parts ++ above, last, fun ending isEnding => ?_⟩
  change Path.append target (Path.ofString (stem ++ ending)) = _
  rw [path ending isEnding, Path.append]
  cases absolute <;> simp

theorem isPlainName_child (target : Path) (stem : String) :
    (target.child (stem ++ ".js")).IsNamed ∧ IsPlainName (target.child (stem ++ ".js")).name := by
  obtain ⟨absolute, above, last, child⟩ := exists_child_append target stem
  have name : (target.child (stem ++ ".js")).name = last ++ ".js" := by
    rw [child _ (.inr rfl), Path.name, List.getLast?_concat, Option.getD_some]
  rw [Path.IsNamed, name]
  refine ⟨⟨fun empty => ?_, fun up => ?_⟩, last, rfl⟩
  · have length := congrArg String.length empty
    simp at length
  · have ending := congrArg (fun name => name.toList.reverse) up
    simp at ending

theorem locate_concat_iff {disk : Disk} {absolute : Bool} {above : List String} {last : String} {location : Location}
    (down : last ≠ "..") :
    disk.locate ⟨absolute, above ++ [last]⟩ = .ok location ↔
      ∃ here, disk.follow (if absolute then [] else disk.workingDirectory) above = .ok here ∧
        disk.entry? here = some .directory ∧ location = here ++ [last] := by
  rw [Disk.locate, Disk.follow_append]
  cases reached : disk.follow (if absolute then [] else disk.workingDirectory) above with
  | error cause => simp [Except.bind]
  | ok here =>
    change disk.follow here [last] = _ ↔ _
    rw [Disk.follow]
    split
    · next found => simp [found]
    · next found => simp [found]
    · next found =>
      rw [if_neg down, Disk.follow]
      simp [found, eq_comm]

/-- A name without types leads to the file that takes the place of another exactly when the name with types leads to that
other one. -/
theorem locate_untyped_iff {disk : Disk} {location : Location} (typed : isConvertible ⟨true, location⟩ = true) (target : Path)
    (stem : String) :
    disk.locate (target.child (stem ++ ".js")) = .ok (untypedLocation location) ↔
      disk.locate (target.child (stem ++ ".ts")) = .ok location := by
  obtain ⟨absolute, above, last, child⟩ := exists_child_append target stem
  have down (ending : String) (isEnding : IsEnding ending) : last ++ ending ≠ ".." := by
    intro up
    have length := congrArg (fun name => name.toList.reverse) up
    rcases isEnding with rfl | rfl <;> simp at length
  obtain ⟨here, name, rfl⟩ : ∃ here name, location = here ++ [name] := by
    refine ⟨_, _, (List.dropLast_append_getLast fun root => ?_).symm⟩
    subst root
    exact absurd typed (by decide)
  obtain ⟨new, old⟩ := untypedName_of_isConvertible typed
  rw [Path.name, List.getLast?_concat, Option.getD_some] at new old
  have cancel {first second ending : String} : first ++ ending = second ++ ending ↔ first = second := by
    rw [← String.toList_inj, String.toList_append, String.toList_append, List.append_left_inj, String.toList_inj]
  rw [child _ (.inl rfl), child _ (.inr rfl), locate_concat_iff (down _ (.inl rfl)), locate_concat_iff (down _ (.inr rfl))]
  refine exists_congr fun above => and_congr_right fun _ => and_congr_right fun _ => ?_
  have names : untypedName name = last ++ ".js" ↔ name = last ++ ".ts" := by
    rw [new, cancel, ← cancel, ← old]
  rw [untypedLocation_concat, ← List.concat_eq_append, ← List.concat_eq_append, ← List.concat_eq_append, ← List.concat_eq_append,
    List.concat_inj, List.concat_inj, names]

/-! ## The names that are taken over -/

variable {family : Family} {target : Path} {before after : Progress}

/-- A script of the manifest or the page of the project names a file. -/
inductive Names (target : Path) (progress : Progress) : String → Prop
  | script {manifest : Manifest} {scripts : Members} {script command : String} {name : List Char}
      (held : progress.manifest = some manifest) (there : manifest.section? "scripts" = some scripts)
      (mem : (script, .text command) ∈ scripts) (stands : StandsIn name command.toList) :
      Names target progress (String.ofList name)
  | page {text : List Char} {name : String} (holds : HoldsText progress.session.disk (target.child "index.html") text)
      (mention : '/' :: name.toList <:+: text) : Names target progress name

/-- The removal of types takes the name of a file with types over to the name of one without. The first text is the
name with types but for its ending, the second one the new name but for its ending: a directory on the way may have a
name like that of a file with types, and it is taken over too. -/
inductive TakesOver (target : Path) (progress : Progress) : String → String → Prop
  | script {manifest : Manifest} {scripts : Members} {script command : String} {part stem : List Char}
      (held : progress.manifest = some manifest) (there : manifest.section? "scripts" = some scripts)
      (mem : (script, .text command) ∈ scripts) (kept : part ∈ keptParts script command.toList)
      (stands : StandsIn (stem ++ ".ts".toList) part) :
      TakesOver target progress (String.ofList stem) (String.ofList (renamed stem))
  | page {text : List Char} (holds : HoldsText progress.session.disk (target.child "index.html") text)
      (mention : typedEntry <:+: text) : TakesOver target progress "src/main" "src/main"

/-- A name that is taken over stands where the other one stood. -/
theorem Family.names_of_takesOver {old new : String} (tree : before.session.disk.IsTree)
    (ran : (family.stripTypes target).run before = (.ok (), after)) (takes : TakesOver target before old new) :
    Names target after (new ++ ".js") := by
  cases takes with
  | @script manifest scripts script command part stem held there mem kept stands =>
    obtain ⟨changed, rewritten, stands'⟩ := exists_untypedScript kept stands
    have new : renamed (stem ++ ".ts".toList) = renamed stem ++ ".js".toList := by
      rw [renamed_append_of_endsWord stem (by decide)]
      rfl
    rw [new] at stands'
    have name : String.ofList (renamed stem) ++ ".js" = String.ofList (renamed stem ++ ".js".toList) := by
      rw [String.ofList_append, String.ofList_toList]
    rw [name]
    have manifest' : after.manifest = some (family.retainPackages (family.untypeManifest manifest)) := by
      rw [manifest_stripTypes ran, held, Option.map_some]
    have there' : (family.retainPackages (family.untypeManifest manifest)).section? "scripts" =
        some (scripts.filterMap (rewriteScript untypedScript)) := by rw [family.scripts_strip, there, Option.map_some]
    have mem' : (script, .text changed) ∈ scripts.filterMap (rewriteScript untypedScript) :=
      List.mem_filterMap.mpr ⟨_, mem, by rw [rewriteScript, rewritten]; rfl⟩
    exact .script manifest' there' mem' stands'
  | page holds mention =>
    obtain ⟨session, untypes, page⟩ := family.untypes_stripTypes tree ran
    obtain ⟨content, raw, read, decoded, unified⟩ := holds
    obtain ⟨named, own⟩ := Path.isNamed_child (show IsPlain "index.html" by decide) target
    have plain : ¬ IsPlainName (target.child "index.html").name := by
      rw [own]
      rintro ⟨stem, same⟩
      have last := congrArg (fun name => name.toList.reverse.head?) same
      simp at last
    have other : isConvertible (target.child "index.html") = false := by
      unfold isConvertible Path.suffix
      rw [own]
      decide
    have still : HoldsText session.disk (target.child "index.html") _ := ⟨content, raw, untypes.read named other plain read, decoded, unified⟩
    refine .page (holdsText_changeText (fun page absent mem => ?_) page still) (plainEntry_infix_renameEntry mention)
    rcases mem_renameEntry mem with new | old
    · exact absurd new (by decide)
    · exact absent old

/-- A name that is taken over leads to a file afterwards exactly when it led to one before, or when the file with types
next to it is among those that the removal takes care of, and can lose its types. -/
theorem Family.reference_is_valid_iff {old new : String} (tree : before.session.disk.IsTree)
    (ran : (family.stripTypes target).run before = (.ok (), after)) (takes : TakesOver target before old new) :
    Names target after (new ++ ".js") ∧
      (after.session.disk.isFile (target.child (new ++ ".js")) = true ↔
        before.session.disk.isFile (target.child (new ++ ".js")) = true ∨
          ∃ location, before.session.disk.locate (target.child (new ++ ".ts")) = .ok location ∧
            family.TakesCare target before.session.disk location ∧ IsTyped before.session.disk location) := by
  refine ⟨family.names_of_takesOver tree ran takes, ?_⟩
  obtain ⟨session, untypes, page⟩ := family.untypes_stripTypes tree ran
  obtain ⟨named, plain⟩ := isPlainName_child target new
  have other : isConvertible (target.child (new ++ ".js")) = false :=
    Bool.eq_false_iff.mpr fun convertible => (isNamed_of_isConvertible convertible).2 plain
  rw [(sameShape_changeText page).isFile, untypes.isFile_iff named other]
  refine or_congr_right (exists_congr fun location => ?_)
  constructor
  · rintro ⟨own, typed, located⟩
    exact ⟨(locate_untyped_iff typed.named target new).mp located, own, typed⟩
  · rintro ⟨located, own, typed⟩
    exact ⟨own, typed, (locate_untyped_iff typed.named target new).mpr located⟩

/-- A page that names the entry, and a script that names a file outside the sources. -/
def scriptedProject : Session :=
  ⟨⟨[], [(["index.html"], .file (encodeChars typedEntry)), (["src"], .directory), (["src", "main.ts"], .file []),
    (["scripts"], .directory), (["scripts", "gen.ts"], .file [])]⟩, [], []⟩

/-- The scripts before and after the removal of types. -/
def scripted (command : String) : Manifest :=
  ofData ⟨false, [fileName]⟩ [("scripts", .object [("gen", .text command)])]

def typedScripts : Progress := vue3.start ⟨false, []⟩ scriptedProject (some (scripted "node scripts/gen.ts"))

/-- The entry was converted, and the file that the script names was not. -/
def untypedScripts : Progress :=
  { session := { scriptedProject with disk := ⟨[], [(["index.html"], .file (encodeChars plainEntry)), (["src"], .directory),
      (["scripts"], .directory), (["scripts", "gen.ts"], .file []), (["src", "main.js"], .file [])]⟩ }
    manifest := some { scripted "node scripts/gen.ts" with data := (scripted "node scripts/gen.js").data }
    result := { Result.start ⟨false, []⟩ vue3.name with converted := [⟨false, ["src", "main.js"]⟩] } }

theorem strip_scripts : (vue3.stripTypes ⟨false, []⟩).run typedScripts = (.ok (), untypedScripts) := by
  with_unfolding_all rfl

theorem isTree_scriptedProject : scriptedProject.disk.IsTree := by decide

/-- The entry that the page names is there without types. -/
theorem page_reference_is_valid :
    scriptedProject.disk.IsTree ∧ (vue3.stripTypes ⟨false, []⟩).run typedScripts = (.ok (), untypedScripts) ∧
      TakesOver ⟨false, []⟩ typedScripts "src/main" "src/main" ∧ Names ⟨false, []⟩ untypedScripts "src/main.js" ∧
      untypedScripts.session.disk.isFile (Path.child ⟨false, []⟩ "src/main.js") = true := by
  have takes : TakesOver ⟨false, []⟩ typedScripts "src/main" "src/main" :=
    .page ⟨encodeChars typedEntry, typedEntry, by rfl, by rfl, rfl⟩ List.infix_rfl
  have located : scriptedProject.disk.locate (Path.child ⟨false, []⟩ ("src/main" ++ ".ts")) = .ok ["src", "main.ts"] := by rfl
  have typed : IsTyped scriptedProject.disk ["src", "main.ts"] := ⟨by decide, [], by rfl, ⟨[], by rfl⟩, [], by with_unfolding_all rfl⟩
  have care : vue3.TakesCare ⟨false, []⟩ scriptedProject.disk ["src", "main.ts"] :=
    .inr ⟨["src"], ["main.ts"], by rfl, List.cons_ne_nil _ _, rfl⟩
  obtain ⟨names, iff⟩ := Family.reference_is_valid_iff isTree_scriptedProject strip_scripts takes
  exact ⟨isTree_scriptedProject, strip_scripts, takes, names, iff.mpr (.inr ⟨_, located, care, typed⟩)⟩

/-- A script names a file that is not there. -/
theorem script_reference_is_broken :
    scriptedProject.disk.IsTree ∧ (vue3.stripTypes ⟨false, []⟩).run typedScripts = (.ok (), untypedScripts) ∧
      TakesOver ⟨false, []⟩ typedScripts "scripts/gen" "scripts/gen" ∧
      Names ⟨false, []⟩ untypedScripts "scripts/gen.js" ∧
      typedScripts.session.disk.isFile (Path.child ⟨false, []⟩ "scripts/gen.ts") = true ∧
      untypedScripts.session.disk.isFile (Path.child ⟨false, []⟩ "scripts/gen.js") = false := by
  have takes : TakesOver ⟨false, []⟩ typedScripts (String.ofList "scripts/gen".toList) (String.ofList (renamed "scripts/gen".toList)) :=
    .script rfl rfl List.mem_cons_self (List.mem_singleton.mpr rfl) ((standsIn_self _).after_blank "node".toList)
  have names : Names ⟨false, []⟩ untypedScripts (String.ofList "scripts/gen.js".toList) :=
    .script rfl rfl List.mem_cons_self ((standsIn_self _).after_blank "node".toList)
  exact ⟨isTree_scriptedProject, strip_scripts, takes, names, by decide, by decide⟩

end Scaffold.Project
