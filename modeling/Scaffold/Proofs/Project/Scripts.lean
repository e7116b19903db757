import Scaffold.Proofs.Project.Renaming

/-! # Scripts that are rewritten once

The parts of a command stand between its marks, each mark as far in front as it can, and without the blanks around them.
A script that builds a project keeps those of its parts that do not check types, in their order and with the new endings,
and these are again the parts of what is written. No old ending is left in a script, so rewriting it again changes nothing.
-/

namespace Scaffold.Project

open Scaffold.Text

variable {mark text part trimmed : List Char} {parts : List (List Char)}

/-! ## Parts -/

/-- What stands between the marks of a text, the first of them being the one that ends first. -/
inductive PartedBy (mark : List Char) : List Char → List (List Char) → Prop
  | last {text : List Char} (absent : ¬ mark <:+: text) : PartedBy mark text [text]
  | more {part rest : List Char} {parts : List (List Char)} (first : ¬ mark <:+: (part ++ mark).dropLast)
      (later : PartedBy mark rest parts) : PartedBy mark (part ++ (mark ++ rest)) (part :: parts)

/-- A text without the blanks at its two ends. -/
structure Trims (text trimmed : List Char) : Prop where
  split : ∃ front back, text = front ++ (trimmed ++ back) ∧ (∀ c ∈ front, isBlank c = true) ∧ ∀ c ∈ back, isBlank c = true
  bare : Bare trimmed

/-- The parts of a command, without the blanks around them. -/
def AreParts (command : List Char) (parts : List (List Char)) : Prop :=
  ∃ pieces, PartedBy both command pieces ∧ List.Forall₂ Trims pieces parts

private theorem not_prefix_of_first {c : Char} (rest : List Char) (first : ¬ mark <:+: (c :: part ++ mark).dropLast) :
    ¬ mark <+: c :: (part ++ (mark ++ rest)) := by
  intro begins
  have front : (c :: part ++ mark).dropLast <+: c :: (part ++ (mark ++ rest)) := by
    have whole : c :: (part ++ (mark ++ rest)) = (c :: part ++ mark) ++ rest := by simp
    rw [whole]
    exact (List.dropLast_prefix _).trans (List.prefix_append _ _)
  refine first (List.prefix_of_prefix_length_le begins front ?_).isInfix
  simp only [List.length_dropLast, List.length_append, List.length_cons]
  omega

theorem PartedBy.eq_splitAt (nonempty : mark ≠ []) (parted : PartedBy mark text parts) : parts = splitAt mark 0 text := by
  induction parted with
  | last absent => exact Eq.symm <| splitAt_of_not_infix absent
  | @more part rest parts first later same =>
    rw [same]
    induction part with
    | nil => rw [List.nil_append, splitAt_of_marked nonempty (List.prefix_append _ _), List.drop_left]
    | cons c part inner =>
      obtain ⟨front, others, eq, whole⟩ := splitAt_of_unmarked (not_prefix_of_first rest first)
      have behind : ¬ mark <:+: (part ++ mark).dropLast := by
        have some_ : part ++ mark ≠ [] := by simp [nonempty]
        rw [List.cons_append, List.dropLast_cons_of_ne_nil some_, List.infix_cons_iff, not_or] at first
        exact first.2
      rw [← inner behind] at eq
      obtain ⟨rfl, rfl⟩ := List.cons.inj eq
      exact whole.symm

theorem partedBy_splitAt (nonempty : mark ≠ []) (text : List Char) : PartedBy mark text (splitAt mark 0 text) := by
  induction length : text.length using Nat.strong_induction_on generalizing text with
  | _ length' shorter =>
    subst length
    by_cases found : mark <+: text
    · obtain ⟨rest, rfl⟩ := found
      rw [splitAt_of_marked nonempty (List.prefix_append _ _), List.drop_left]
      have long := List.length_pos_iff.mpr nonempty
      have later := shorter rest.length (by rw [List.length_append]; omega) rest rfl
      refine @PartedBy.more mark [] rest _ (fun inside => ?_) later
      have short := inside.length_le
      rw [List.nil_append, List.length_dropLast] at short
      omega
    · cases text with
      | nil => exact .last (by rwa [List.infix_nil, ← List.prefix_nil])
      | cons c rest =>
        obtain ⟨part, later, eq, whole⟩ := splitAt_of_unmarked found
        have parted := shorter rest.length (Nat.lt_succ_self _) rest rfl
        rw [eq] at parted
        rw [whole]
        cases parted with
        | last absent => exact .last (by rw [List.infix_cons_iff]; exact not_or.mpr ⟨found, absent⟩)
        | @more _ rest' parts first others =>
          refine @PartedBy.more mark (c :: part) rest' _ ?_ others
          have some_ : part ++ mark ≠ [] := by simp [nonempty]
          rw [List.cons_append, List.dropLast_cons_of_ne_nil some_, List.infix_cons_iff]
          refine not_or.mpr ⟨fun begins => found (begins.trans (List.cons_prefix_cons.mpr ⟨rfl, ?_⟩)), first⟩
          rw [← List.append_assoc]
          exact (List.dropLast_prefix _).trans (List.prefix_append _ _)

theorem partedBy_iff (nonempty : mark ≠ []) : PartedBy mark text parts ↔ parts = splitAt mark 0 text :=
  ⟨fun parted => parted.eq_splitAt nonempty, fun same => same ▸ partedBy_splitAt nonempty text⟩

theorem trims_iff : Trims text trimmed ↔ trimmed = strip text := by
  constructor
  · rintro ⟨⟨front, back, rfl, inFront, behind⟩, bare⟩
    have blanks : (front ++ (trimmed ++ back)).dropWhile isBlank = (trimmed ++ back).dropWhile isBlank :=
      List.dropWhile_append_of_pos inFront
    cases trimmed with
    | nil =>
      have none_ : (back ++ []).dropWhile isBlank = [] := List.dropWhile_append_of_pos behind
      rw [strip, blanks, List.nil_append, ← List.append_nil back, none_]
      rfl
    | cons c rest =>
      have dark : isBlank c = false := bare.head c rfl
      rw [strip, blanks, List.cons_append, List.dropWhile_cons_of_neg (by simp [dark]), ← List.cons_append,
        List.reverse_append, List.dropWhile_append_of_pos fun d mem => behind d (List.mem_reverse.mp mem)]
      have own := bare.strip_eq
      rw [strip, List.dropWhile_cons_of_neg (by simp [dark])] at own
      exact own.symm
  · rintro rfl
    refine ⟨⟨text.takeWhile isBlank, ((text.dropWhile isBlank).reverse.takeWhile isBlank).reverse, ?_, ?_, ?_⟩, bare_strip text⟩
    · rw [strip, ← List.reverse_append, List.takeWhile_append_dropWhile, List.reverse_reverse, List.takeWhile_append_dropWhile]
    · exact fun c mem => List.all_eq_true.mp List.all_takeWhile c mem
    · exact fun c mem => List.all_eq_true.mp List.all_takeWhile c (List.mem_reverse.mp mem)

/-- A command has one list of parts. -/
theorem areParts_iff {command : List Char} : AreParts command parts ↔ parts = segments command := by
  have stripped (pieces : List (List Char)) : List.Forall₂ Trims pieces parts ↔ parts = pieces.map strip := by
    induction pieces generalizing parts with
    | nil => rw [List.forall₂_nil_left_iff, List.map_nil]
    | cons piece pieces same =>
      rw [List.forall₂_cons_left_iff, List.map_cons]
      constructor
      · rintro ⟨trimmed, others, own, each, rfl⟩
        rw [trims_iff.mp own, same.mp each]
      · rintro rfl
        exact ⟨strip piece, pieces.map strip, trims_iff.mpr rfl, same.mpr rfl, rfl⟩
  constructor
  · rintro ⟨pieces, parted, each⟩
    rw [(stripped pieces).mp each, (partedBy_iff (by decide)).mp parted]
    rfl
  · rintro rfl
    exact ⟨_, (partedBy_iff (by decide)).mpr rfl, (stripped _).mpr rfl⟩

/-! ## Endings -/

/-- Renaming shows wherever there is an old ending. -/
theorem goesOn_of_renamed_eq {command front rest : List Char} (same : renamed command = command)
    (split : command = front ++ '.' :: 't' :: 's' :: rest) : endsWord rest = false := by
  induction command using renamed.induct generalizing front with
  | case1 later ends _ =>
    rw [renamed, if_pos ends] at same
    cases same
  | case2 later goesOn keeps =>
    rw [renamed, if_neg goesOn] at same
    have behind : renamed later = later := by simpa using same
    rcases front with _ | ⟨a, _ | ⟨b, _ | ⟨c, front⟩⟩⟩
    · obtain rfl : later = rest := by simpa using split
      exact Bool.eq_false_iff.mpr goesOn
    · cases split
    · cases split
    · have inside : later = front ++ '.' :: 't' :: 's' :: rest := by
        simpa using (List.cons.inj (List.cons.inj (List.cons.inj split).2).2).2
      exact keeps behind inside
  | case3 c later other keeps =>
    rw [renamed.eq_2 c later other] at same
    cases front with
    | nil =>
      obtain ⟨rfl, rfl⟩ := List.cons.inj split
      exact absurd rfl (other rest rfl)
    | cons d front => exact keeps (List.cons.inj same).2 (List.cons.inj split).2
  | case4 => cases front <;> cases split

/-! ## Scripts -/

/-- The name of the program that checks types. -/
def checker : List Char := "vue-tsc".toList

theorem keptSegments_eq (command : List Char) :
    keptSegments command = (segments command).filter fun part => ¬ checker <:+: part := by
  refine List.filter_congr fun part _ => ?_
  rw [Bool.eq_iff_iff, Bool.not_eq_true', Bool.eq_false_iff, ne_eq, mentions_iff, decide_eq_true_eq]
  rfl

/-- What becomes of a script that builds the project. -/
theorem untypedScript_build (command : String) :
    untypedScript "build" command =
      if keptSegments command.toList = [] then none
      else some (String.ofList (renamed (joint.intercalate (keptSegments command.toList)))) := by
  rw [untypedScript, if_neg (by decide), if_pos rfl]
  split
  · next none_ => rw [if_pos none_]
  · next some_ => rw [if_neg some_, renameEndings_eq]; rfl

/-- A script that was rewritten has no old ending. -/
theorem renamed_of_untypedScript {name command changed : String} (rewritten : untypedScript name command = some changed) :
    renamed changed.toList = changed.toList := by
  unfold untypedScript at rewritten
  split at rewritten
  · cases rewritten
  · split at rewritten
    · split at rewritten
      · cases rewritten
      · obtain rfl := Option.some.inj rewritten
        rw [String.toList_ofList, renameEndings_eq, renamed_renamed]
    · obtain rfl := Option.some.inj rewritten
      rw [String.toList_ofList, renameEndings_eq, renamed_renamed]

/-- A script that was rewritten stays as it is when it is rewritten again, and in it a word goes on behind every `.ts`. One
that builds the project has those of the parts of the command that do not check types, with the new endings, and is gone
when all parts check types. -/
theorem scripts_are_rewritten_once (name command : String) :
    (∀ changed, untypedScript name command = some changed →
      untypedScript name changed = some changed ∧
      ∀ front rest, changed.toList = front ++ (".ts".toList ++ rest) → ∃ c later, rest = c :: later ∧ isWord c = true) ∧
    (name = "build" → ∃ parts, (∀ other, AreParts command.toList other ↔ other = parts) ∧
      (untypedScript name command = none ↔ ∀ part ∈ parts, checker <:+: part) ∧
      ∀ changed, untypedScript name command = some changed → ∀ other, AreParts changed.toList other ↔
        other = (parts.filter fun part => ¬ checker <:+: part).map renamed) := by
  constructor
  · intro changed rewritten
    refine ⟨untypedScript_untypedScript rewritten, fun front rest split => ?_⟩
    have goesOn := goesOn_of_renamed_eq (renamed_of_untypedScript rewritten) split
    cases rest with
    | nil => cases goesOn
    | cons c later => exact ⟨c, later, rfl, by simpa [endsWord] using goesOn⟩
  · rintro rfl
    refine ⟨segments command.toList, fun other => areParts_iff, ?_, fun changed rewritten other => ?_⟩
    · rw [untypedScript_build, ite_eq_left_iff, keptSegments_eq, List.filter_eq_nil_iff]
      simp
    · rw [areParts_iff]
      rw [untypedScript_build] at rewritten
      split at rewritten
      · cases rewritten
      · next some_ =>
        obtain rfl := Option.some.inj rewritten
        have kept : ∀ part ∈ (keptSegments command.toList).map renamed, IsPart part := by
          refine List.forall_mem_map.mpr fun part mem => ?_
          exact (isPart_of_mem_segments (List.mem_filter.mp mem).1).renamed
        rw [String.toList_ofList, renamed_intercalate, segments_intercalate (mt List.map_eq_nil_iff.mp some_) kept, keptSegments_eq]

theorem build_is_rewritten_once :
    untypedScript "build" "vue-tsc --noEmit && vite build -c a.ts&&&b.tsx" = some "vite build -c a.js && &b.tsx" ∧
      untypedScript "build" "vite build -c a.js && &b.tsx" = some "vite build -c a.js && &b.tsx" ∧
      AreParts "vite build -c a.js && &b.tsx".toList ["vite build -c a.js".toList, "&b.tsx".toList] := by
  obtain ⟨once, build⟩ := scripts_are_rewritten_once "build" "vue-tsc --noEmit && vite build -c a.ts&&&b.tsx"
  have rewritten : untypedScript "build" "vue-tsc --noEmit && vite build -c a.ts&&&b.tsx" =
      some "vite build -c a.js && &b.tsx" := by decide +kernel
  obtain ⟨parts, alone, -, kept⟩ := build rfl
  have old : ["vue-tsc --noEmit".toList, "vite build -c a.ts".toList, "&b.tsx".toList] = parts :=
    (alone _).mp (areParts_iff.mpr (by decide +kernel))
  refine ⟨rewritten, (once _ rewritten).1, (kept _ rewritten _).mpr ?_⟩
  rw [← old]
  decide +kernel

end Scaffold.Project
