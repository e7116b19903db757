import Mathlib.Data.List.Nodup
import Scaffold.Proofs.Project.Renaming
import Scaffold.Proofs.Project.Store

/-! # Changes of a manifest that were made before

What a removal changes in a manifest holds afterwards: keys are gone, scripts name no types, packages are there.
Later removals keep this, and so does writing the manifest and reading it again, so the same change made again
leaves the manifest as it is.
-/

namespace Scaffold.Project

open Scaffold.Json

namespace Manifest

variable {manifest : Manifest} {data before after members part : Members} {key sectionName : String}
variable {names : List String} {packages : List (String × String)} {value : Value}

/-! ## Sections -/

theorem get?_set (members : Members) (key other : String) (value : Value) :
    (members.set key value).get? other = if other = key then some value else members.get? other := by
  unfold Members.set Members.get?
  split
  · next there =>
    have keeps : ((fun member : String × Value => decide (member.1 = other)) ∘
        fun member => if member.1 = key then (key, value) else member) = fun member => decide (member.1 = other) := by
      funext member
      dsimp only [Function.comp]
      split
      · next same => rw [same]
      · rfl
    rw [List.find?_map, keeps, Option.map_map]
    cases found : members.find? (fun member => decide (member.1 = other)) with
    | none =>
      rw [if_neg]
      · rfl
      · rintro rfl
        obtain ⟨member, held, own⟩ := List.mem_map.mp there
        exact List.find?_eq_none.mp found member held (by simpa using own)
    | some member =>
      have own : member.1 = other := by simpa using List.find?_some found
      by_cases same : other = key <;> simp [own, same]
  · next fresh =>
    rw [List.find?_append, List.find?_singleton]
    by_cases same : other = key
    · have absent : members.find? (fun member => decide (member.1 = other)) = none := by
        refine List.find?_eq_none.mpr fun member held own => fresh (List.mem_map.mpr ⟨member, held, ?_⟩)
        rw [← same]
        simpa using own
      rw [absent, if_pos same]
      simp [same]
    · rw [if_neg (by simpa using Ne.symm same), if_neg same, Option.or_none]

theorem set_of_get? (nodup : members.keys.Nodup) (found : members.get? key = some value) :
    members.set key value = members := by
  obtain ⟨held, eq, rfl⟩ := Option.map_eq_some_iff.mp found
  have mem := List.mem_of_find?_eq_some eq
  have own : held.1 = key := by simpa using List.find?_some eq
  have there : key ∈ members.keys := List.mem_map.mpr ⟨held, mem, own⟩
  rw [Members.set, if_pos there]
  refine (List.map_congr_left fun member member_mem => ?_).trans (List.map_id members)
  split
  · next same =>
    rw [← List.inj_on_of_nodup_map nodup mem member_mem (own.trans same.symm), ← own]
    rfl
  · rfl

/-- The members of each section are among those of the section before. -/
def Sheds (before after : Members) : Prop :=
  ∀ ⦃sectionName : String⦄ ⦃part : Members⦄, after.get? sectionName = some (.object part) →
    ∃ whole : Members, before.get? sectionName = some (.object whole) ∧ part ⊆ whole

theorem Sheds.trans {middle : Members} (first : Sheds before middle) (second : Sheds middle after) :
    Sheds before after := by
  intro sectionName part found
  obtain ⟨whole, found, inside⟩ := second found
  obtain ⟨all, found, outside⟩ := first found
  exact ⟨all, found, List.Subset.trans inside outside⟩

theorem sheds_removeKeys (manifest : Manifest) (sectionName : String) (names : List String) :
    Sheds manifest.data (manifest.removeKeys sectionName names).2.data := by
  intro other part found
  unfold removeKeys at found
  split at found
  · exact ⟨part, found, List.Subset.refl _⟩
  · next whole held =>
    rw [get?_set] at found
    split at found
    · next same =>
      obtain rfl := Value.object.inj (Option.some.inj found)
      exact ⟨whole, same ▸ section?_eq_some_iff.mp held, (sublist_foldl_erase names whole).subset⟩
    · exact ⟨part, found, List.Subset.refl _⟩

/-! ## Keys that are gone -/

/-- A section, if there is one, has none of these keys. -/
def Lacks (data : Members) (sectionName : String) (names : List String) : Prop :=
  ∀ ⦃part : Members⦄, data.get? sectionName = some (.object part) → ∀ name ∈ names, name ∉ part.keys

theorem Lacks.mono (lacks : Lacks before sectionName names) (sheds : Sheds before after) :
    Lacks after sectionName names := by
  intro part found name mem held
  obtain ⟨whole, found, inside⟩ := sheds found
  exact lacks found name mem (List.map_subset _ inside held)

private theorem notMem_keys_foldl_erase (names : List String) (members : Members) {name : String} (mem : name ∈ names) :
    name ∉ Members.keys (names.foldl Members.erase members) := by
  induction names generalizing members with
  | nil => cases mem
  | cons first later gone =>
    rcases List.mem_cons.mp mem with rfl | mem
    · intro held
      have kept := (sublist_foldl_erase later (members.erase name)).subset
      obtain ⟨member, memberMem, eq⟩ := List.mem_map.mp held
      have apart := (List.mem_filter.mp (kept memberMem)).2
      simp [eq] at apart
    · exact gone _ mem

theorem lacks_removeKeys (manifest : Manifest) (sectionName : String) (names : List String) :
    Lacks (manifest.removeKeys sectionName names).2.data sectionName names := by
  intro part found name mem
  unfold removeKeys at found
  split at found
  · next absent => exact absurd (section?_eq_some_iff.mpr found) (by rw [absent]; exact nofun)
  · next whole held =>
    rw [get?_set, if_pos rfl] at found
    obtain rfl := Value.object.inj (Option.some.inj found)
    exact notMem_keys_foldl_erase names whole mem

theorem removeKeys_of_lacks (nodup : manifest.data.keys.Nodup) (lacks : Lacks manifest.data sectionName names) :
    (manifest.removeKeys sectionName names).2 = manifest := by
  unfold removeKeys
  split
  · rfl
  · next whole held =>
    have found := section?_eq_some_iff.mp held
    have whole_eq : names.foldl Members.erase whole = whole := by
      have absent := lacks found
      clear lacks
      induction names with
      | nil => rfl
      | cons name later same =>
        obtain ⟨own, others⟩ := List.forall_mem_cons.mp absent
        have erased : whole.erase name = whole := by
          refine List.filter_eq_self.mpr fun member mem => ?_
          simpa using fun eq : member.1 = name => own (List.mem_map.mpr ⟨member, mem, eq⟩)
        rw [List.foldl_cons, erased, same others]
    dsimp only
    rw [whole_eq, set_of_get? nodup found]

/-! ## Scripts that name no types -/

/-- No script would be rewritten. -/
def Untyped (data : Members) : Prop :=
  ∀ ⦃scripts : Members⦄, data.get? "scripts" = some (.object scripts) → ∀ ⦃name command : String⦄, (name, .text command) ∈ scripts →
    untypedScript name command = some command

theorem Untyped.mono (untyped : Untyped before) (sheds : Sheds before after) : Untyped after := by
  intro scripts found name command mem
  obtain ⟨whole, found, inside⟩ := sheds found
  exact untyped found (inside mem)

theorem untyped_rewriteScripts (manifest : Manifest) : Untyped (manifest.rewriteScripts untypedScript).data := by
  intro scripts found name command mem
  unfold rewriteScripts at found
  split at found
  · next absent => exact absurd (section?_eq_some_iff.mpr found) (by rw [absent]; exact nofun)
  · rw [get?_set, if_pos rfl] at found
    obtain rfl := Value.object.inj (Option.some.inj found)
    obtain ⟨⟨old, value⟩, -, eq⟩ := List.mem_filterMap.mp mem
    unfold rewriteScript at eq
    split at eq
    · next name' text same =>
      obtain ⟨changed, untyped, eq⟩ := Option.map_eq_some_iff.mp eq
      cases eq
      exact untypedScript_untypedScript untyped
    · next other =>
      obtain eq := Option.some.inj eq
      exact absurd eq (other _ _)

theorem lacks_rewriteScripts (rewrite : String → String → Option String) (lacks : Lacks manifest.data sectionName names) :
    Lacks (manifest.rewriteScripts rewrite).data sectionName names := by
  intro part found name mem
  unfold rewriteScripts at found
  split at found
  · exact lacks found name mem
  · next scripts held =>
    rw [get?_set] at found
    split at found
    · next same =>
      obtain rfl := Value.object.inj (Option.some.inj found)
      have absent := lacks (same ▸ section?_eq_some_iff.mp held) name mem
      exact fun inside => absent ((sublist_keys_filterMap rewrite scripts).subset inside)
    · exact lacks found name mem

theorem rewriteScripts_of_untyped (nodup : manifest.data.keys.Nodup) (untyped : Untyped manifest.data) :
    manifest.rewriteScripts untypedScript = manifest := by
  unfold rewriteScripts
  split
  · rfl
  · next scripts held =>
    have found := section?_eq_some_iff.mp held
    have same : scripts.filterMap (rewriteScript untypedScript) = scripts := by
      refine (List.filterMap_congr fun script mem => ?_).trans (List.filterMap_some ..)
      obtain ⟨name, value⟩ := script
      cases value with
      | text command => rw [rewriteScript, untyped found mem, Option.map_some]
      | _ => rfl
    rw [same, set_of_get? nodup found]

/-! ## Packages that are there -/

/-- The development dependencies hold each of these packages. -/
def Retains (data : Members) (packages : List (String × String)) : Prop :=
  ∀ package ∈ packages, ∃ part : Members, data.get? "devDependencies" = some (.object part) ∧ package.1 ∈ part.keys

private theorem mem_keys_ensured {package : String × String} :
    package.1 ∈ Members.keys (if package.1 ∈ part.keys then part else part.set package.1 (.text package.2)) := by
  split
  · assumption
  · next fresh =>
    rw [keys_set, if_neg fresh]
    exact List.mem_append_right _ (List.mem_singleton.mpr rfl)

private theorem subset_keys_ensured {package : String × String} :
    part.keys ⊆ Members.keys (if package.1 ∈ part.keys then part else part.set package.1 (.text package.2)) := by
  split
  · exact List.Subset.refl _
  · next fresh =>
    rw [keys_set, if_neg fresh]
    exact List.subset_append_left _ _

private theorem keys_ensured_subset {package : String × String} :
    Members.keys (if package.1 ∈ part.keys then part else part.set package.1 (.text package.2)) ⊆
      part.keys ++ [package.1] := by
  split
  · exact List.subset_append_left _ _
  · next fresh =>
    rw [keys_set, if_neg fresh]
    exact List.Subset.refl _

theorem retains_ensureDependency (package : String × String) (retains : Retains manifest.data packages) :
    Retains (manifest.ensureDependency package.1 package.2 "devDependencies").data (packages ++ [package]) := by
  intro other mem
  refine ⟨_, by rw [ensureDependency, get?_set, if_pos rfl], ?_⟩
  rcases List.mem_append.mp mem with mem | own
  · obtain ⟨part, found, held⟩ := retains other mem
    refine subset_keys_ensured ?_
    rwa [members, section?_eq_some_iff.mpr found, Option.getD_some]
  · obtain rfl := List.mem_singleton.mp own
    exact mem_keys_ensured

theorem lacks_ensureDependency {package : String × String} (fresh : package.1 ∉ names)
    (lacks : Lacks manifest.data sectionName names) :
    Lacks (manifest.ensureDependency package.1 package.2 "devDependencies").data sectionName names := by
  intro part found name mem held
  rw [ensureDependency, get?_set] at found
  split at found
  · next same =>
    obtain rfl := Value.object.inj (Option.some.inj found)
    rcases List.mem_append.mp (keys_ensured_subset held) with old | own
    · unfold members at old
      cases whole : manifest.section? "devDependencies" with
      | none =>
        rw [whole] at old
        cases old
      | some whole_ =>
        rw [whole] at old
        exact lacks (same ▸ section?_eq_some_iff.mp whole) name mem old
    · exact fresh (List.mem_singleton.mp own ▸ mem)
  · exact lacks found name mem held

theorem untyped_ensureDependency (package : String × String) (untyped : Untyped manifest.data) :
    Untyped (manifest.ensureDependency package.1 package.2 "devDependencies").data := by
  intro scripts found
  rw [ensureDependency, get?_set, if_neg (by decide)] at found
  exact untyped found

theorem ensureDependency_of_retains (nodup : manifest.data.keys.Nodup) {package : String × String}
    (retains : Retains manifest.data [package]) :
    manifest.ensureDependency package.1 package.2 "devDependencies" = manifest := by
  obtain ⟨part, found, held⟩ := retains package (List.mem_singleton.mpr rfl)
  rw [ensureDependency, members, section?_eq_some_iff.mpr found, Option.getD_some, if_pos held,
    set_of_get? nodup found]

private theorem mem_keys_foldl_erase {name : String} (stays : name ∉ names) (held : name ∈ members.keys) :
    name ∈ Members.keys (names.foldl Members.erase members) := by
  induction names generalizing members with
  | nil => exact held
  | cons first later keeps =>
    obtain ⟨other, others⟩ := not_or.mp (mt List.mem_cons.mpr stays)
    refine keeps others ?_
    obtain ⟨member, mem, rfl⟩ := List.mem_map.mp held
    exact List.mem_map.mpr ⟨member, List.mem_filter.mpr ⟨mem, by simpa using other⟩, rfl⟩

theorem retains_removeKeys (apart : ∀ package ∈ packages, package.1 ∉ names) (sectionName : String)
    (retains : Retains manifest.data packages) :
    Retains (manifest.removeKeys sectionName names).2.data packages := by
  intro package mem
  obtain ⟨part, found, held⟩ := retains package mem
  unfold removeKeys
  split
  · exact ⟨part, found, held⟩
  · next whole section_ =>
    dsimp only
    rw [get?_set]
    split
    · next same =>
      obtain rfl := Value.object.inj (Option.some.inj (found.symm.trans (same ▸ section?_eq_some_iff.mp section_)))
      exact ⟨_, rfl, mem_keys_foldl_erase (apart package mem) held⟩
    · exact ⟨part, found, held⟩

/-! ## Reading a manifest again -/

section Coarse

private theorem get?_coarseMembers (members : Members) (key : String) :
    Members.get? (Value.coarseMembers members) key = (members.get? key).map Value.coarse := by
  rw [Value.coarseMembers_eq_map, Members.get?, Members.get?, List.find?_map, Option.map_map, Option.map_map]
  rfl

private theorem keys_coarseMembers (members : Members) : Members.keys (Value.coarseMembers members) = members.keys := by
  rw [Value.coarseMembers_eq_map, Members.keys, List.map_map]
  rfl

variable (same : (Value.object after).coarse = (Value.object before).coarse)

include same

private theorem exists_section (found : after.get? sectionName = some (.object part)) :
    ∃ whole : Members, before.get? sectionName = some (.object whole) ∧
      (Value.object part).coarse = (Value.object whole).coarse := by
  have members := congrArg (Members.get? · sectionName) (Value.object.inj same)
  rw [get?_coarseMembers, get?_coarseMembers, found, Option.map_some, eq_comm, Option.map_eq_some_iff] at members
  obtain ⟨value, held, eq⟩ := members
  cases value with
  | object whole => exact ⟨whole, held, eq.symm⟩
  | _ => cases eq

private theorem keys_eq : after.keys = before.keys := by
  rw [← keys_coarseMembers after, ← keys_coarseMembers before, Value.object.inj same]

private theorem mem_text {name text : String} (mem : (name, Value.text text) ∈ after) :
    (name, Value.text text) ∈ before := by
  have coarse : (name, Value.text text) ∈ Value.coarseMembers before := by
    rw [← Value.object.inj same, Value.coarseMembers_eq_map]
    exact List.mem_map.mpr ⟨_, mem, rfl⟩
  rw [Value.coarseMembers_eq_map] at coarse
  obtain ⟨⟨key, value⟩, held, eq⟩ := List.mem_map.mp coarse
  obtain ⟨rfl, eq⟩ := Prod.mk.inj eq
  cases value with
  | text other =>
    cases eq
    exact held
  | _ => cases eq

theorem Lacks.coarse (lacks : Lacks before sectionName names) : Lacks after sectionName names := by
  intro part found name mem held
  obtain ⟨whole, found, coarse⟩ := exists_section same found
  exact lacks found name mem (keys_eq coarse ▸ held)

theorem Untyped.coarse (untyped : Untyped before) : Untyped after := by
  intro scripts found name command mem
  obtain ⟨whole, found, coarse⟩ := exists_section same found
  exact untyped found (mem_text coarse mem)

theorem Retains.coarse (retains : Retains before packages) : Retains after packages := by
  intro package mem
  obtain ⟨part, found, held⟩ := retains package mem
  obtain ⟨whole, found, coarse⟩ := exists_section same.symm found
  exact ⟨whole, found, keys_eq coarse ▸ held⟩

end Coarse

end Manifest

open Manifest

/-! ## Rules -/

variable {rule : Rule} {family : Family} {manifest : Manifest} {before after : Members}

/-- A manifest from which a rule removes nothing. -/
structure Rule.Pruned (rule : Rule) (data : Members) : Prop where
  dependencies : Lacks data "dependencies" rule.dependencies
  devDependencies : Lacks data "devDependencies" rule.devDependencies
  scripts : Lacks data "scripts" rule.scripts

namespace Rule

theorem Pruned.mono (pruned : rule.Pruned before) (sheds : Sheds before after) : rule.Pruned after :=
  ⟨pruned.dependencies.mono sheds, pruned.devDependencies.mono sheds, pruned.scripts.mono sheds⟩

theorem Pruned.coarse (pruned : rule.Pruned before) (same : (Value.object after).coarse = (Value.object before).coarse) :
    rule.Pruned after :=
  ⟨pruned.dependencies.coarse same, pruned.devDependencies.coarse same, pruned.scripts.coarse same⟩

theorem sheds_pruneManifest (rule : Rule) (manifest : Manifest) : Sheds manifest.data (rule.pruneManifest manifest).data :=
  ((sheds_removeKeys _ _ _).trans (sheds_removeKeys _ _ _)).trans (sheds_removeKeys _ _ _)

theorem pruned_pruneManifest (rule : Rule) (manifest : Manifest) : rule.Pruned (rule.pruneManifest manifest).data :=
  ⟨(lacks_removeKeys _ _ _).mono ((sheds_removeKeys _ _ _).trans (sheds_removeKeys _ _ _)),
    (lacks_removeKeys _ _ _).mono (sheds_removeKeys _ _ _), lacks_removeKeys _ _ _⟩

/-- A rule that was applied removes nothing more. -/
theorem pruneManifest_of_pruned (nodup : manifest.data.keys.Nodup) (pruned : rule.Pruned manifest.data) :
    rule.pruneManifest manifest = manifest := by
  change (((manifest.removeKeys "dependencies" rule.dependencies).2.removeKeys "devDependencies"
    rule.devDependencies).2.removeKeys "scripts" rule.scripts).2 = manifest
  rw [removeKeys_of_lacks nodup pruned.dependencies, removeKeys_of_lacks nodup pruned.devDependencies,
    removeKeys_of_lacks nodup pruned.scripts]

end Rule

/-! ## Types -/

/-- A manifest in which there is nothing to do for a project without types. -/
structure Family.Typeless (family : Family) (data : Members) : Prop where
  lacks : Lacks data "devDependencies" family.typeDependencies
  untyped : Untyped data
  retains : Retains data family.retainedDependencies

/-- A manifest from which the removal of types takes nothing. -/
structure Family.IsUntyped (family : Family) (data : Members) : Prop where
  lacks : Lacks data "devDependencies" family.typeDependencies
  untyped : Untyped data

namespace Family

theorem Typeless.isUntyped (typeless : family.Typeless before) : family.IsUntyped before :=
  ⟨typeless.lacks, typeless.untyped⟩

theorem IsUntyped.mono (untyped : family.IsUntyped before) (sheds : Sheds before after) : family.IsUntyped after :=
  ⟨untyped.lacks.mono sheds, untyped.untyped.mono sheds⟩

theorem IsUntyped.coarse (untyped : family.IsUntyped before)
    (same : (Value.object after).coarse = (Value.object before).coarse) : family.IsUntyped after :=
  ⟨untyped.lacks.coarse same, untyped.untyped.coarse same⟩

theorem isUntyped_untypeManifest (family : Family) (manifest : Manifest) : family.IsUntyped (family.untypeManifest manifest).data :=
  ⟨lacks_rewriteScripts _ (lacks_removeKeys _ _ _), untyped_rewriteScripts _⟩

theorem untypeManifest_of_isUntyped (nodup : manifest.data.keys.Nodup) (untyped : family.IsUntyped manifest.data) :
    family.untypeManifest manifest = manifest := by
  unfold untypeManifest
  rw [removeKeys_of_lacks nodup untyped.lacks, rewriteScripts_of_untyped nodup untyped.untyped]

theorem Typeless.coarse (typeless : family.Typeless before)
    (same : (Value.object after).coarse = (Value.object before).coarse) : family.Typeless after :=
  ⟨typeless.lacks.coarse same, typeless.untyped.coarse same, typeless.retains.coarse same⟩

/-- A rule that does not remove the packages that are needed anyway leaves a manifest without types. -/
theorem Typeless.pruneManifest (typeless : family.Typeless manifest.data)
    (apart : ∀ package ∈ family.retainedDependencies, package.1 ∉ rule.dependencies ∧ package.1 ∉ rule.devDependencies ∧
      package.1 ∉ rule.scripts) : family.Typeless (rule.pruneManifest manifest).data :=
  ⟨typeless.lacks.mono (rule.sheds_pruneManifest manifest), typeless.untyped.mono (rule.sheds_pruneManifest manifest),
    retains_removeKeys (fun package mem => (apart package mem).2.2) _
      (retains_removeKeys (fun package mem => (apart package mem).2.1) _
        (retains_removeKeys (fun package mem => (apart package mem).1) _ typeless.retains))⟩

theorem typeless_retainPackages (apart : ∀ package ∈ family.retainedDependencies, package.1 ∉ family.typeDependencies)
    (manifest : Manifest) : family.Typeless (family.retainPackages (family.untypeManifest manifest)).data := by
  obtain ⟨lacks, untyped⟩ := family.isUntyped_untypeManifest manifest
  unfold retainPackages
  generalize family.untypeManifest manifest = begun at lacks untyped
  -- the packages that are there already, and those still to come
  have goes (packages done : List (String × String)) (begun : Manifest)
      (apart : ∀ package ∈ packages, package.1 ∉ family.typeDependencies)
      (lacks : Lacks begun.data "devDependencies" family.typeDependencies) (untyped : Untyped begun.data)
      (retains : Retains begun.data done) :
      let ended := packages.foldl (fun manifest package => manifest.ensureDependency package.1 package.2 "devDependencies") begun
      Lacks ended.data "devDependencies" family.typeDependencies ∧ Untyped ended.data ∧ Retains ended.data (done ++ packages) := by
    induction packages generalizing begun done with
    | nil => exact ⟨lacks, untyped, by rwa [List.append_nil]⟩
    | cons package later goes =>
      obtain ⟨own, others⟩ := List.forall_mem_cons.mp apart
      have ended := goes (done ++ [package]) _ others (lacks_ensureDependency own lacks)
        (untyped_ensureDependency package untyped) (retains_ensureDependency package retains)
      rwa [List.append_assoc] at ended
  obtain ⟨lacks, untyped, retains⟩ := goes family.retainedDependencies [] begun apart lacks untyped nofun
  exact ⟨lacks, untyped, retains⟩

theorem retainPackages_of_typeless (nodup : manifest.data.keys.Nodup) (typeless : family.Typeless manifest.data) :
    family.retainPackages manifest = manifest := by
  have retains := typeless.retains
  unfold retainPackages
  generalize family.retainedDependencies = packages at retains
  induction packages with
  | nil => rfl
  | cons package later same =>
    obtain ⟨own, others⟩ := List.forall_mem_cons.mp retains
    rw [List.foldl_cons, ensureDependency_of_retains nodup (List.forall_mem_singleton.mpr own), same others]

end Family

end Scaffold.Project
