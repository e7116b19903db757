import Scaffold.CommandLine.Create
import Scaffold.Proofs.Project.Remaining
import Scaffold.Proofs.Project.Scripts

/-! # Features that are chosen by name

A list of names with commas between them says which features are wanted. What it comes down to is which names of features
are among its parts: the features that are not are off, and they are removed in one order whatever the list looks like.
-/

namespace Scaffold.Project

open Scaffold.Text Scaffold.Files Stateful Processing

variable {features : List Feature} {family : Family} {name text : String} {order : List String}

/-! ## Selections -/

theorem lookup_set (selection : Selection) (name : String) (on : Bool) (other : String) :
    (selection.set name on).lookup other = if other = name then some on else selection.lookup other := by
  have replaced (entries : Selection) :
      List.lookup other (entries.map fun entry => if entry.1 = name then (name, on) else entry) =
        if other = name then (if entries.any (·.1 = name) then some on else none) else entries.lookup other := by
    induction entries with
    | nil => simp
    | cons entry entries eq =>
      rw [List.map_cons, List.any_cons, List.lookup_cons, List.lookup_cons, eq]
      grind
  unfold Selection.set
  split
  · next present => rw [replaced, if_pos present]
  · next absent =>
    rw [List.lookup_append, List.lookup_cons, List.lookup_nil]
    by_cases same : other = name
    · obtain rfl := same
      have none_ : selection.lookup other = none := by
        rw [List.lookup_eq_none_iff]
        intro entry mem
        simp only [List.any_eq_true, decide_eq_true_eq, not_exists, not_and] at absent
        simpa using Ne.symm (absent entry mem)
      simp [none_]
    · have differs : (other == name) = false := beq_false_of_ne same
      simp [differs, same]

/-- Every feature has the value that its name is given. -/
theorem lookup_foldl_set (value : String → Bool) (features : List Feature) (selection : Selection) (name : String) :
    (features.foldl (fun selection feature => Selection.set selection feature.name (value feature.name)) selection).lookup name =
      if name ∈ features.map Feature.name then some (value name) else selection.lookup name := by
  induction features generalizing selection with
  | nil => simp
  | cons feature features eq =>
    rw [List.foldl_cons, eq, lookup_set, List.map_cons]
    grind

/-- A feature is on exactly when its name is chosen. -/
theorem isOn_ofChosen (listed : name ∈ features.map Feature.name) (chosen : List String) :
    (Selection.ofChosen features chosen).isOn name = decide (name ∈ chosen) := by
  have own := lookup_foldl_set (fun name => decide (name ∈ chosen)) features [] name
  rw [if_pos listed] at own
  unfold Selection.isOn Selection.ofChosen
  dsimp only
  rw [List.lookup_append, own]
  rfl

theorem mem_removalNames_iff : name ∈ removalNames features ↔ name ∈ features.map Feature.name := by
  unfold removalNames
  dsimp only
  split
  · next types =>
    rw [List.mem_cons]
    constructor
    · rintro (rfl | mem)
      · exact types
      · exact List.mem_of_mem_erase mem
    · intro mem
      by_cases same : name = typesFeature
      · exact .inl same
      · exact .inr ((List.mem_erase_of_ne same).mpr mem)
  · exact Iff.rfl

/-- The features that are not chosen are removed. -/
theorem removalOrder_ofChosen (features : List Feature) (chosen : List String) :
    removalOrder features (.ofChosen features chosen) = (removalNames features).filter (· ∉ chosen) := by
  refine List.filter_congr fun name mem => ?_
  rw [isOn_ofChosen (mem_removalNames_iff.mp mem)]
  simp

/-! ## Lists of names -/

/-- A name is a part of a list with commas, without the blanks around it. Blank parts are no names. -/
def Lists (text name : String) : Prop :=
  name ≠ "" ∧ ∃ pieces, PartedBy [','] text.toList pieces ∧ ∃ piece ∈ pieces, Trims piece name.toList

/-- To part a text at one character is to part it at a mark of this character. -/
theorem splitAt_singleton (separator : Char) (text : List Char) :
    splitAt [separator] 0 text = partsBetween separator text := by
  induction text with
  | nil => rfl
  | cons c rest eq =>
    rw [partsBetween, ← eq]
    by_cases same : c = separator
    · obtain rfl := same
      have marked : [c] <+: c :: rest := ⟨rest, rfl⟩
      obtain ⟨part, later, parted⟩ := List.exists_cons_of_ne_nil (splitAt_ne_nil [c] 0 rest)
      rw [splitAt_of_marked (by simp) marked, List.length_singleton, List.drop_one, List.tail_cons, parted]
      simp
    · have unmarked : ¬ [separator] <+: c :: rest := fun marked => same (List.cons_prefix_cons.mp marked).1.symm
      obtain ⟨part, later, parted, whole⟩ := splitAt_of_unmarked unmarked
      rw [whole, parted]
      simp [same]

theorem mem_parseFeatureList_iff : name ∈ parseFeatureList text ↔ Lists text name := by
  unfold parseFeatureList Lists
  simp only [partedBy_iff (by simp : [','] ≠ []), splitAt_singleton, exists_eq_left, trims_iff]
  simp only [List.mem_map, List.mem_filter, decide_eq_true_eq, ne_eq]
  constructor
  · rintro ⟨_, ⟨⟨piece, mem, rfl⟩, some_⟩, rfl⟩
    refine ⟨fun blank => some_ ?_, piece, mem, String.toList_ofList⟩
    rw [← @String.toList_ofList (strip piece), blank]
    rfl
  · rintro ⟨some_, piece, mem, same⟩
    refine ⟨strip piece, ⟨⟨piece, mem, rfl⟩, fun blank => some_ ?_⟩, by rw [← same, String.ofList_toList]⟩
    rw [← @String.ofList_toList name, same, blank]

/-! ## What is left out -/

/-- The features that a list leaves out, each once: types first, and the others as they are declared. -/
structure LeavesOut (features : List Feature) (text : String) (order : List String) : Prop where
  mem_iff (name : String) : name ∈ order ↔ name ∈ features.map Feature.name ∧ ¬ Lists text name
  nodup : order.Nodup
  types : TypesFirst order
  declared : (order.erase typesFeature).Sublist (features.map Feature.name)

theorem sublist_erase_removalOrder (features : List Feature) (selection : Selection) :
    ((removalOrder features selection).erase typesFeature).Sublist (features.map Feature.name) := by
  unfold removalOrder removalNames
  dsimp only
  split
  · rw [List.filter_cons]
    split
    · rw [List.erase_cons_head]
      exact List.filter_sublist.trans List.erase_sublist
    · exact List.erase_sublist.trans (List.filter_sublist.trans List.erase_sublist)
  · exact List.erase_sublist.trans List.filter_sublist

theorem leavesOut_removalOrder (distinct : (family.features.map Feature.name).Nodup) (text : String) :
    LeavesOut family.features text (removalOrder family.features (.ofChosen family.features (parseFeatureList text))) := by
  obtain ⟨nodup, types⟩ := typesFirst_removalOrder distinct (.ofChosen family.features (parseFeatureList text))
  refine ⟨fun name => ?_, nodup, types, sublist_erase_removalOrder _ _⟩
  rw [removalOrder_ofChosen, List.mem_filter, mem_removalNames_iff, decide_eq_true_eq, mem_parseFeatureList_iff]

/-- Which features are removed depends only on which of them are listed. -/
theorem removalOrder_congr {first second : String}
    (agree : ∀ name ∈ family.features.map Feature.name, Lists first name ↔ Lists second name) :
    removalOrder family.features (.ofChosen family.features (parseFeatureList first)) =
      removalOrder family.features (.ofChosen family.features (parseFeatureList second)) := by
  rw [removalOrder_ofChosen, removalOrder_ofChosen]
  refine List.filter_congr fun name mem => ?_
  rw [decide_eq_decide, mem_parseFeatureList_iff, mem_parseFeatureList_iff, agree name (mem_removalNames_iff.mp mem)]

/-- A list of names on the command line is what the features are chosen by. -/
theorem settleFeatures_listed {arguments : CommandLine.CreateArguments} {session settled : Session} {selection : Selection}
    (listed : arguments.features = .listed text)
    (ran : (CommandLine.settleFeatures arguments family).run session = (.ok selection, settled)) :
    selection = .ofChosen family.features (parseFeatureList text) := by
  unfold CommandLine.settleFeatures at ran
  rw [listed] at ran
  dsimp only at ran
  split at ran
  · obtain ⟨-, warned, -, done⟩ := bind_run_eq_ok_iff.mp ran
    cases done
    rfl
  · cases ran
    rfl

/-- The features that are removed are those that the list leaves out. Two lists that have the same names of features among
their parts leave out the same, whatever the order of the parts, the blanks around them, how often they are there, and which
names are of no feature. -/
theorem unlisted_features_are_removed (distinct : (family.features.map Feature.name).Nodup) :
    (∀ text, LeavesOut family.features text
      (removalOrder family.features (.ofChosen family.features (parseFeatureList text)))) ∧
    (∀ first second, (∀ name ∈ family.features.map Feature.name, Lists first name ↔ Lists second name) →
      removalOrder family.features (.ofChosen family.features (parseFeatureList first)) =
        removalOrder family.features (.ofChosen family.features (parseFeatureList second))) ∧
    ∀ (arguments : CommandLine.CreateArguments) (text : String) (session settled : Session) (selection : Selection),
      arguments.features = .listed text →
      (CommandLine.settleFeatures arguments family).run session = (.ok selection, settled) →
      LeavesOut family.features text (removalOrder family.features selection) := by
  refine ⟨leavesOut_removalOrder distinct, fun _ _ => removalOrder_congr, ?_⟩
  intro arguments text session settled selection listed ran
  rw [settleFeatures_listed listed ran]
  exact leavesOut_removalOrder distinct text

theorem unlisted_features_of_vue3_are_removed :
    LeavesOut vue3.features " pinia,router , ,graphql,pinia"
        (removalOrder vue3.features (.ofChosen vue3.features (parseFeatureList " pinia,router , ,graphql,pinia"))) ∧
      removalOrder vue3.features (.ofChosen vue3.features (parseFeatureList " pinia,router , ,graphql,pinia")) =
        removalOrder vue3.features (.ofChosen vue3.features (parseFeatureList "router,pinia")) := by
  have distinct : (vue3.features.map Feature.name).Nodup := by decide
  obtain ⟨left, same, -⟩ := unlisted_features_are_removed distinct
  refine ⟨left _, same _ _ fun name mem => ?_⟩
  have agree : ∀ name ∈ vue3.features.map Feature.name,
      name ∈ parseFeatureList " pinia,router , ,graphql,pinia" ↔ name ∈ parseFeatureList "router,pinia" := by decide
  rw [← mem_parseFeatureList_iff, ← mem_parseFeatureList_iff]
  exact agree name mem

end Scaffold.Project
