import Scaffold.Proofs.Project.Pruning

/-! # Changes of sections

Every change that a removal makes in a manifest changes the members of sections, each in its place, and nothing else.
The one exception is a section for packages that is made anew, at the end of the document. Written so, changes made
one after the other are one change, and it can be seen which of them commute.
-/

namespace Scaffold.Project.Manifest

open Scaffold.Json

variable {manifest : Manifest} {data members part : Members} {key name sectionName : String} {names : List String}
variable {packages : List (String × String)}

/-- Changes the members of sections, which are the values that are objects. -/
def amend (change : String → Members → Members) (data : Members) : Members :=
  data.map fun member =>
    match member.2 with
    | .object part => (member.1, .object (change member.1 part))
    | _ => member

/-- A change of one section. -/
def within (sectionName : String) (change : Members → Members) (key : String) (part : Members) : Members :=
  if key = sectionName then change part else part

theorem amend_amend (first second : String → Members → Members) (data : Members) :
    amend second (amend first data) = amend (fun key part => second key (first key part)) data := by
  unfold amend
  rw [List.map_map]
  refine List.map_congr_left fun member _ => ?_
  rcases member with ⟨key, _ | _ | _ | _ | _ | _ | _⟩ <;> rfl

theorem amend_eq_self {change : String → Members → Members} (same : ∀ sectionName part, change sectionName part = part)
    (data : Members) : amend change data = data := by
  refine (List.map_congr_left fun member _ => ?_).trans (List.map_id data)
  rcases member with ⟨key, _ | _ | _ | _ | _ | _ | part⟩ <;> try rfl
  exact congrArg (fun part => (key, Value.object part)) (same key part)

theorem amend_append (change : String → Members → Members) (front back : Members) :
    amend change (front ++ back) = amend change front ++ amend change back :=
  List.map_append

@[simp]
theorem keys_amend (change : String → Members → Members) (data : Members) : (amend change data).keys = data.keys := by
  unfold amend Members.keys
  rw [List.map_map]
  refine List.map_congr_left fun member _ => ?_
  rcases member with ⟨key, _ | _ | _ | _ | _ | _ | _⟩ <;> rfl

theorem mem_keys_of_get? {value : Value} (found : data.get? key = some value) : key ∈ data.keys := by
  obtain ⟨held, eq, -⟩ := Option.map_eq_some_iff.mp found
  exact List.mem_map.mpr ⟨held, List.mem_of_find?_eq_some eq, by simpa using List.find?_some eq⟩

theorem get?_of_mem {value : Value} (nodup : data.keys.Nodup) (mem : (key, value) ∈ data) : data.get? key = some value := by
  have there : (data.find? fun member => decide (member.1 = key)).isSome = true :=
    List.find?_isSome.mpr ⟨_, mem, by simp⟩
  obtain ⟨held, eq⟩ := Option.isSome_iff_exists.mp there
  have own : held.1 = key := by simpa using List.find?_some eq
  rw [Members.get?, eq, List.inj_on_of_nodup_map nodup (List.mem_of_find?_eq_some eq) mem own]
  rfl

theorem get?_eq_none_iff : data.get? key = none ↔ key ∉ data.keys := by
  rw [Members.get?, Option.map_eq_none_iff, List.find?_eq_none]
  constructor
  · rintro absent mem
    obtain ⟨member, held, own⟩ := List.mem_map.mp mem
    exact absent member held (by simpa using own)
  · intro fresh member held own
    exact fresh (List.mem_map.mpr ⟨member, held, by simpa using own⟩)

/-- Without an object there, a change of a section changes nothing. -/
theorem amend_within_of_missing (nodup : data.keys.Nodup) (missing : ∀ part, data.get? sectionName ≠ some (.object part))
    (change : Members → Members) : amend (within sectionName change) data = data := by
  refine (List.map_congr_left fun member mem => ?_).trans (List.map_id data)
  rcases member with ⟨key, _ | _ | _ | _ | _ | _ | part⟩ <;> try rfl
  have other : key ≠ sectionName := by
    rintro rfl
    exact missing part (get?_of_mem nodup mem)
  simp [within, other]

theorem set_eq_amend (nodup : data.keys.Nodup) (found : data.get? sectionName = some (.object part))
    (change : Members → Members) : data.set sectionName (.object (change part)) = amend (within sectionName change) data := by
  rw [Members.set, if_pos (mem_keys_of_get? found)]
  refine List.map_congr_left fun member mem => ?_
  rcases member with ⟨key, value⟩
  by_cases same : key = sectionName
  · subst same
    obtain rfl := Option.some.inj ((get?_of_mem nodup mem).symm.trans found)
    simp [within]
  · cases value <;> simp [within, same]

/-! ## What the changes of a manifest change -/

theorem foldl_erase (names : List String) (part : Members) :
    names.foldl Members.erase part = part.filter fun member => member.1 ∉ names := by
  induction names generalizing part with
  | nil => simp
  | cons name later erases =>
    rw [List.foldl_cons, erases, Members.erase, List.filter_filter]
    refine List.filter_congr fun member _ => ?_
    by_cases own : member.1 = name <;> simp [own]

theorem data_removeKeys (nodup : manifest.data.keys.Nodup) (sectionName : String) (names : List String) :
    (manifest.removeKeys sectionName names).2.data =
      amend (within sectionName (List.filter fun member => member.1 ∉ names)) manifest.data := by
  unfold removeKeys
  split
  · next missing =>
    refine (amend_within_of_missing nodup (fun part found => ?_) _).symm
    rw [section?_eq_some_iff.mpr found] at missing
    cases missing
  · next part found =>
    dsimp only
    rw [foldl_erase]
    exact set_eq_amend nodup (section?_eq_some_iff.mp found) _

theorem data_rewriteScripts (nodup : manifest.data.keys.Nodup) (rewrite : String → String → Option String) :
    (manifest.rewriteScripts rewrite).data =
      amend (within "scripts" (List.filterMap (rewriteScript rewrite))) manifest.data := by
  unfold rewriteScripts
  split
  · next missing =>
    refine (amend_within_of_missing nodup (fun part found => ?_) _).symm
    rw [section?_eq_some_iff.mpr found] at missing
    cases missing
  · next part found => exact set_eq_amend nodup (section?_eq_some_iff.mp found) _

/-- The document with a section, which is empty if it is new. -/
def withSection (sectionName : String) (data : Members) : Members :=
  if sectionName ∈ data.keys then data else data ++ [(sectionName, .object [])]

theorem withSection_amend (empty : change sectionName [] = []) (data : Members) :
    withSection sectionName (amend change data) = amend change (withSection sectionName data) := by
  unfold withSection
  rw [keys_amend]
  split
  · rfl
  · rw [amend_append, amend, amend, List.map_singleton]
    dsimp only
    rw [empty]

theorem mem_keys_withSection (sectionName : String) (data : Members) : sectionName ∈ (withSection sectionName data).keys := by
  unfold withSection
  split
  · assumption
  · simp [Members.keys]

theorem nodup_keys_withSection (nodup : data.keys.Nodup) : (withSection sectionName data).keys.Nodup := by
  unfold withSection
  split
  · exact nodup
  · next fresh =>
    rw [Members.keys, List.map_append, List.nodup_append]
    refine ⟨nodup, List.nodup_singleton _, fun one mem other own => ?_⟩
    obtain rfl := List.mem_singleton.mp own
    rintro rfl
    exact fresh mem

/-- The packages that a section lacks, as its members. -/
def missing (packages : List (String × String)) (part : Members) : Members :=
  (packages.filter fun package => package.1 ∉ part.keys).map fun package => (package.1, .text package.2)

/-- The packages that come later are missing before the first one is added exactly when they are missing after it. -/
theorem missing_cons {package : String × String} {later : List (String × String)} (fresh : package.1 ∉ later.map Prod.fst)
    (part : Members) :
    part ++ missing [package] part ++ missing later (part ++ missing [package] part) =
      part ++ missing (package :: later) part := by
  by_cases there : package.1 ∈ part.keys
  · have none_ : missing [package] part = [] := by simp [missing, there]
    rw [none_, List.append_nil, missing, missing, List.filter_cons_of_neg (by simpa using there)]
  · have one : missing [package] part = [(package.1, .text package.2)] := by simp [missing, there]
    have same : missing later (part ++ [(package.1, .text package.2)]) = missing later part := by
      unfold missing
      congr 1
      refine List.filter_congr fun other mem => ?_
      have apart : other.1 ≠ package.1 := fun same => fresh (List.mem_map.mpr ⟨other, mem, same⟩)
      rw [decide_eq_decide, Members.keys, Members.keys, List.map_append, List.mem_append, List.map_singleton, List.mem_singleton]
      exact not_congr (or_iff_left apart)
    rw [one, same, List.append_assoc, List.singleton_append, missing, missing,
      List.filter_cons_of_pos (by simpa using there), List.map_cons]

/-- What is there under the name of a section is an object. -/
def IsSection (data : Members) (sectionName : String) : Prop :=
  ∀ value, data.get? sectionName = some value → ∃ part, value = .object part

theorem data_ensureDependency (nodup : manifest.data.keys.Nodup) (isSection : IsSection manifest.data sectionName)
    (package : String × String) :
    (manifest.ensureDependency package.1 package.2 sectionName).data =
      amend (within sectionName fun part => part ++ missing [package] part) (withSection sectionName manifest.data) := by
  have grown (part : Members) : (if package.1 ∈ part.keys then part else part.set package.1 (.text package.2)) =
      part ++ missing [package] part := by
    split
    · next there => simp [missing, there]
    · next fresh => simp [missing, fresh, Members.set]
  unfold ensureDependency members
  dsimp only
  rw [grown]
  cases found : manifest.data.get? sectionName with
  | none =>
    have fresh := get?_eq_none_iff.mp found
    have absent : manifest.section? sectionName = none := by rw [section?, found]; rfl
    rw [absent, Option.getD_none, Members.set, if_neg fresh, withSection, if_neg fresh, amend_append,
      amend_within_of_missing nodup fun part => by simp [found]]
    simp [amend, within]
  | some value =>
    obtain ⟨part, rfl⟩ := isSection value found
    rw [section?_eq_some_iff.mpr found, Option.getD_some, withSection, if_pos (mem_keys_of_get? found)]
    exact set_eq_amend nodup found fun part => part ++ missing [package] part

theorem isSection_amend (isSection : IsSection data sectionName) (change : String → Members → Members) :
    IsSection (amend change data) sectionName := by
  intro value found
  obtain ⟨member, eq, rfl⟩ := Option.map_eq_some_iff.mp found
  have own : member.1 = sectionName := by simpa using List.find?_some eq
  unfold amend at eq
  rw [List.find?_map, Option.map_eq_some_iff] at eq
  obtain ⟨old, before, rfl⟩ := eq
  have same : ((fun member : String × Value => decide (member.1 = sectionName)) ∘ fun member : String × Value =>
      match member.2 with
      | .object part => (member.1, .object (change member.1 part))
      | _ => member) = fun member => decide (member.1 = sectionName) := by
    funext member
    rcases member with ⟨key, _ | _ | _ | _ | _ | _ | _⟩ <;> rfl
  rw [same] at before
  obtain ⟨part, eq⟩ := isSection old.2 (by rw [Members.get?, before]; rfl)
  rcases old with ⟨key, value⟩
  obtain rfl := eq
  exact ⟨_, rfl⟩

theorem isSection_withSection (isSection : IsSection data sectionName) : IsSection (withSection sectionName data) sectionName := by
  unfold withSection
  split
  · exact isSection
  · next fresh =>
    intro value found
    rw [Members.get?, List.find?_append, Option.map_eq_some_iff] at found
    obtain ⟨member, eq, rfl⟩ := found
    have absent := get?_eq_none_iff.mpr fresh
    rw [Members.get?, Option.map_eq_none_iff] at absent
    rw [absent, Option.none_or] at eq
    obtain rfl := List.mem_singleton.mp (List.mem_of_find?_eq_some eq)
    exact ⟨[], rfl⟩

/-- Packages that are needed are added one after the other where they are missing. -/
theorem data_foldl_ensureDependency (nodup : manifest.data.keys.Nodup) (isSection : IsSection manifest.data sectionName)
    (distinct : (packages.map Prod.fst).Nodup) :
    (packages.foldl (fun manifest package => manifest.ensureDependency package.1 package.2 sectionName) manifest).data =
      if packages = [] then manifest.data
      else amend (within sectionName fun part => part ++ missing packages part) (withSection sectionName manifest.data) := by
  induction packages generalizing manifest with
  | nil => rfl
  | cons package later adds =>
    obtain ⟨fresh, others⟩ := List.nodup_cons.mp distinct
    have first := data_ensureDependency nodup isSection package
    have nodupNext : (manifest.ensureDependency package.1 package.2 sectionName).data.keys.Nodup := by
      rw [first, keys_amend]
      exact nodup_keys_withSection nodup
    have rest := adds nodupNext (by rw [first]; exact isSection_amend (isSection_withSection isSection) _) others
    rw [List.foldl_cons, rest, if_neg (List.cons_ne_nil _ _)]
    split
    · next none_ => rw [none_, first]
    · have there : sectionName ∈ (manifest.ensureDependency package.1 package.2 sectionName).data.keys := by
        rw [first, keys_amend]
        exact mem_keys_withSection sectionName _
      rw [withSection, if_pos there, first, amend_amend]
      congr 1
      funext key part
      unfold within
      split
      · exact missing_cons fresh part
      · rfl

end Scaffold.Project.Manifest
