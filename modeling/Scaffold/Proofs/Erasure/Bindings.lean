import Scaffold.Erasure.ImportClause
import Scaffold.Proofs.Syntax.Placement

/-! # The bindings of an import clause

A clause brings in its default name, a namespace and the names in its braces. It keeps those of them that
stay, in the order in which they are written.
-/

namespace Scaffold.Erasure

open Scaffold.Text Scaffold.Syntax

/-- A name that an import clause brings in, and how it is written. -/
structure Binding where
  /-- Whether it stands in the braces of the clause. -/
  braced : Bool
  written : Tree
  name? : Option Tree

namespace Binding

/-- Whether the name is marked as one of a type. -/
def isTyped (binding : Binding) : Bool := binding.braced && binding.written.hasToken "type"

/-- Whether the binding stays where these names are used. -/
def stays (source : Bytes) (used : List String) (binding : Binding) : Bool :=
  !binding.isTyped && match binding.name? with
    | none => true
    | some name => (binding.braced && name.kind ≠ .identifier) || name.text source ∈ used

end Binding

/-- The bindings of one part of a clause. -/
def bindingsOf (part : Tree) : List Binding :=
  match part.kind with
  | .identifier => [⟨false, part, some part⟩]
  | .namespaceImport => [⟨false, part, part.parts.find? fun name => name.kind = .identifier⟩]
  | .namedImports =>
    (part.parts.filter fun specifier => specifier.kind = .importSpecifier).map fun specifier =>
      ⟨true, specifier, (specifier.child? .alias).or (specifier.child? .name)⟩
  | _ => []

def bindings (clause : Tree) : List Binding := clause.parts.flatMap bindingsOf

/-- How the bindings in or outside braces are written. -/
def writtenIn (source : Bytes) (braced : Bool) (bindings : List Binding) : List String :=
  (bindings.filter fun binding => binding.braced = braced).map fun binding => binding.written.text source

/-- The text of a clause with some bindings. -/
def clauseText (source : Bytes) (bindings : List Binding) : String :=
  KeptBindings.text ⟨bindings.length, writtenIn source false bindings, writtenIn source true bindings⟩

theorem writtenIn_append (source : Bytes) (braced : Bool) (first second : List Binding) :
    writtenIn source braced (first ++ second) = writtenIn source braced first ++ writtenIn source braced second := by
  simp [writtenIn]

theorem length_writtenIn (source : Bytes) (bindings : List Binding) :
    (writtenIn source false bindings).length + (writtenIn source true bindings).length = bindings.length := by
  induction bindings with
  | nil => rfl
  | cons binding later eq =>
    obtain ⟨braced, written, name⟩ := binding
    cases braced <;> simp [writtenIn] at eq ⊢ <;> omega

private theorem writtenIn_singleton (source : Bytes) (used : List String) (braced : Bool) (binding : Binding) :
    writtenIn source braced ([binding].filter (Binding.stays source used)) =
      if binding.braced = braced ∧ binding.stays source used = true then [binding.written.text source] else [] := by
  by_cases stays : binding.stays source used = true
  · by_cases same : binding.braced = braced <;> simp [writtenIn, same, stays]
  · simp [writtenIn, stays]

private theorem keptSpecifiers_eq (source : Bytes) (used : List String) (specifiers : List Tree) :
    keptSpecifiers source used specifiers =
      writtenIn source true ((specifiers.map fun specifier =>
        Binding.mk true specifier ((specifier.child? .alias).or (specifier.child? .name))).filter
          (Binding.stays source used)) := by
  unfold keptSpecifiers writtenIn
  rw [List.filter_map, List.filter_map, List.filter_filter, List.map_map]
  refine congrArg (List.map _) (List.filter_congr fun specifier _ => ?_)
  simp only [Function.comp_apply, Binding.stays, Binding.isTyped]
  generalize (specifier.child? .alias).or (specifier.child? .name) = name
  cases name <;> simp

private theorem add_eq (source : Bytes) (used : List String) (kept : KeptBindings) (part : Tree) :
    kept.add source used part =
      ⟨kept.total + (bindingsOf part).length,
        kept.whole ++ writtenIn source false ((bindingsOf part).filter (Binding.stays source used)),
        kept.named ++ writtenIn source true ((bindingsOf part).filter (Binding.stays source used))⟩ := by
  unfold KeptBindings.add
  split
  · next kind =>
    have own : bindingsOf part = [⟨false, part, some part⟩] := by simp only [bindingsOf, kind]
    simp only [own, writtenIn_singleton]
    simp [Binding.stays, Binding.isTyped]
  · next kind =>
    have own : bindingsOf part = [⟨false, part, part.parts.find? fun name => name.kind = .identifier⟩] := by
      simp only [bindingsOf, kind]
    simp only [own, writtenIn_singleton]
    cases part.parts.find? fun name => name.kind = .identifier <;> simp [Binding.stays, Binding.isTyped, isKept]
  · next kind =>
    have own : bindingsOf part = (part.parts.filter fun specifier => specifier.kind = .importSpecifier).map
        fun specifier => ⟨true, specifier, (specifier.child? .alias).or (specifier.child? .name)⟩ := by
      simp only [bindingsOf, kind]
    simp only [own, keptSpecifiers_eq, List.length_map]
    congr 1
    simp only [writtenIn, List.self_eq_append_right, List.map_eq_nil_iff, List.filter_eq_nil_iff]
    intro binding mem unbraced
    obtain ⟨specifier, -, rfl⟩ := List.mem_map.mp (List.mem_filter.mp mem).1
    cases unbraced
  · next other namespaces named =>
    have own : bindingsOf part = [] := by
      unfold bindingsOf
      split
      · next kind => exact absurd kind other
      · next kind => exact absurd kind namespaces
      · next kind => exact absurd kind named
      · rfl
    simp [own, writtenIn]

/-- What a clause keeps are its bindings that stay. -/
theorem keptBindings_eq (source : Bytes) (used : List String) (clause : Tree) :
    keptBindings source used clause =
      ⟨(bindings clause).length,
        writtenIn source false ((bindings clause).filter (Binding.stays source used)),
        writtenIn source true ((bindings clause).filter (Binding.stays source used))⟩ := by
  have fold (parts : List Tree) (kept : KeptBindings) :
      parts.foldl (KeptBindings.add source used) kept =
        ⟨kept.total + (parts.flatMap bindingsOf).length,
          kept.whole ++ writtenIn source false ((parts.flatMap bindingsOf).filter (Binding.stays source used)),
          kept.named ++ writtenIn source true ((parts.flatMap bindingsOf).filter (Binding.stays source used))⟩ := by
    induction parts generalizing kept with
    | nil => simp [writtenIn]
    | cons part later eq =>
      rw [List.foldl_cons, eq, add_eq]
      simp only [List.flatMap_cons, List.filter_append, writtenIn_append, List.length_append, List.append_assoc,
        Nat.add_assoc]
  rw [keptBindings, fold, bindings]
  simp

theorem count_keptBindings (source : Bytes) (used : List String) (clause : Tree) :
    (keptBindings source used clause).count = ((bindings clause).filter (Binding.stays source used)).length := by
  rw [keptBindings_eq, KeptBindings.count, length_writtenIn]

theorem text_keptBindings (source : Bytes) (used : List String) (clause : Tree) :
    (keptBindings source used clause).text =
      clauseText source ((bindings clause).filter (Binding.stays source used)) := by
  rw [keptBindings_eq, clauseText]
  rfl

theorem written_mem_preorder_part {part : Tree} {binding : Binding} (mem : binding ∈ bindingsOf part) :
    binding.written ∈ part.preorder := by
  unfold bindingsOf at mem
  split at mem
  · rw [List.mem_singleton.mp mem]
    exact part.mem_preorder_self
  · rw [List.mem_singleton.mp mem]
    exact part.mem_preorder_self
  · obtain ⟨specifier, specifierMem, rfl⟩ := List.mem_map.mp mem
    exact Tree.mem_preorder_of_mem_children part.mem_preorder_self
      (List.mem_filter.mp (List.mem_filter.mp specifierMem).1).1
  · cases mem

/-- What a binding is written as stands in its clause. -/
theorem written_mem_preorder {clause : Tree} {binding : Binding} (mem : binding ∈ bindings clause) :
    binding.written ∈ clause.preorder := by
  obtain ⟨part, partMem, mem⟩ := List.mem_flatMap.mp mem
  have inside : part ∈ clause.preorder :=
    Tree.mem_preorder_of_mem_children (Tree.mem_preorder_self clause) (List.mem_filter.mp partMem).1
  exact Tree.mem_preorder_trans inside (written_mem_preorder_part mem)

end Scaffold.Erasure
