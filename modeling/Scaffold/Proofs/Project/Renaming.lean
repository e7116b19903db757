import Mathlib.Data.List.Forall2
import Mathlib.Data.List.Infix
import Scaffold.Project.Removal

/-! # Names that are taken over once

The page of a project and its scripts name files, and without types these have other endings. A text that was
rewritten names no file by its old ending, and rewriting it again leaves it as it is. For a script that builds
the project this includes its parts: those that only check types are gone, and the others stand apart as before.
-/

namespace Scaffold.Project

open Scaffold.Text Pattern

/-! ## Parts between marks -/

section Parts

variable {mark separator text part : List Char}

private theorem splitAt_skip (mark : List Char) (skip : Nat) (text : List Char) :
    splitAt mark skip text = splitAt mark 0 (text.drop skip) := by
  induction text generalizing skip with
  | nil => cases skip <;> rfl
  | cons c rest skips =>
    cases skip with
    | zero => rfl
    | succ skip =>
      rw [splitAt, List.drop_succ_cons]
      exact skips skip

theorem splitAt_ne_nil (mark : List Char) (skip : Nat) (text : List Char) : splitAt mark skip text ≠ [] := by
  induction text generalizing skip with
  | nil => cases skip <;> simp [splitAt]
  | cons c rest some_ =>
    cases skip with
    | succ skip => exact some_ skip
    | zero =>
      rw [splitAt]
      split
      · exact List.cons_ne_nil _ _
      · split <;> exact List.cons_ne_nil _ _

theorem splitAt_of_marked (nonempty : mark ≠ []) (begins : mark <+: text) :
    splitAt mark 0 text = [] :: splitAt mark 0 (text.drop mark.length) := by
  obtain ⟨rest, rfl⟩ := begins
  obtain ⟨c, later, rfl⟩ := List.exists_cons_of_ne_nil nonempty
  rw [List.cons_append, splitAt, if_pos (by simp), splitAt_skip]
  rfl

theorem splitAt_of_unmarked {c : Char} {rest : List Char} (other : ¬ mark <+: c :: rest) :
    ∃ part later, splitAt mark 0 rest = part :: later ∧ splitAt mark 0 (c :: rest) = (c :: part) :: later := by
  obtain ⟨part, later, eq⟩ := List.exists_cons_of_ne_nil (splitAt_ne_nil mark 0 rest)
  refine ⟨part, later, eq, ?_⟩
  rw [splitAt, if_neg (by simp [other]), eq]

theorem splitAt_of_not_infix (apart : ¬ mark <:+: text) : splitAt mark 0 text = [text] := by
  induction text with
  | nil => rfl
  | cons c rest alone =>
    rw [List.infix_cons_iff, not_or] at apart
    obtain ⟨part, later, eq, whole⟩ := splitAt_of_unmarked apart.1
    rw [alone apart.2] at eq
    obtain ⟨rfl, rfl⟩ := List.cons.inj eq
    exact whole

private theorem prefix_of_splitAt {later : List (List Char)} (nonempty : mark ≠ [])
    (eq : splitAt mark 0 text = part :: later) : part <+: text := by
  induction text generalizing part later with
  | nil =>
    obtain ⟨rfl, -⟩ := List.cons.inj eq
    exact List.nil_prefix
  | cons c rest begins =>
    by_cases found : mark <+: c :: rest
    · rw [splitAt_of_marked nonempty found] at eq
      obtain ⟨rfl, -⟩ := List.cons.inj eq
      exact List.nil_prefix
    · obtain ⟨front, others, inner, whole⟩ := splitAt_of_unmarked found
      rw [whole] at eq
      obtain ⟨rfl, -⟩ := List.cons.inj eq
      exact List.cons_prefix_cons.mpr ⟨rfl, begins inner⟩

/-- No part of a text holds the mark. -/
theorem not_infix_of_mem_splitAt (nonempty : mark ≠ []) {skip : Nat} (mem : part ∈ splitAt mark skip text) :
    ¬ mark <:+: part := by
  induction text generalizing skip part with
  | nil =>
    have eq : part = [] := by cases skip <;> simpa [splitAt] using mem
    rw [eq, List.infix_nil]
    exact nonempty
  | cons c rest apart =>
    cases skip with
    | succ skip => exact apart mem
    | zero =>
      by_cases found : mark <+: c :: rest
      · rw [splitAt, if_pos (by simp [nonempty, found])] at mem
        rcases List.mem_cons.mp mem with rfl | mem
        · rw [List.infix_nil]
          exact nonempty
        · exact apart mem
      · obtain ⟨front, later, inner, whole⟩ := splitAt_of_unmarked found
        rw [whole] at mem
        rcases List.mem_cons.mp mem with rfl | mem
        · rw [List.infix_cons_iff]
          rintro (begins | inside)
          · exact found (begins.trans (List.cons_prefix_cons.mpr ⟨rfl, prefix_of_splitAt nonempty inner⟩))
          · exact apart (by rw [inner]; exact List.mem_cons_self) inside
        · exact apart (by rw [inner]; exact List.mem_cons_of_mem _ mem)

theorem mentions_iff : mentions mark text = true ↔ mark <:+: text := by
  induction text with
  | nil => rw [mentions, List.isEmpty_iff, List.infix_nil]
  | cons c rest iff => rw [mentions, Bool.or_eq_true, List.isPrefixOf_iff_prefix, iff, List.infix_cons_iff]

end Parts

/-! ## The entry of a page -/

section Entry

variable {page text : List Char}

theorem renameEntry_append (rest : List Char) : renameEntry (typedEntry ++ rest) = plainEntry ++ renameEntry rest := by
  obtain ⟨part, later, eq⟩ := List.exists_cons_of_ne_nil (splitAt_ne_nil typedEntry 0 rest)
  rw [renameEntry, renameEntry, splitAt_of_marked (by decide) (List.prefix_append typedEntry rest), List.drop_left, eq,
    List.intercalate_cons_cons, List.nil_append]

theorem renameEntry_of_unmarked {c : Char} {rest : List Char} (other : ¬ typedEntry <+: c :: rest) :
    renameEntry (c :: rest) = c :: renameEntry rest := by
  obtain ⟨part, later, eq, whole⟩ := splitAt_of_unmarked other
  rw [renameEntry, renameEntry, whole, eq]
  cases later with
  | nil => rw [List.intercalate_singleton, List.intercalate_singleton]
  | cons next others => rw [List.intercalate_cons_cons, List.intercalate_cons_cons, List.cons_append, List.cons_append]

/-- A page is read from one entry to the next. -/
theorem entry_induction {motive : List Char → Prop} (nil : motive [])
    (entry : ∀ rest, motive rest → motive (typedEntry ++ rest))
    (other : ∀ c rest, ¬ typedEntry <+: c :: rest → motive rest → motive (c :: rest)) (page : List Char) : motive page := by
  induction length : page.length using Nat.strong_induction_on generalizing page with
  | _ length' shorter =>
    subst length
    by_cases found : typedEntry <+: page
    · obtain ⟨rest, rfl⟩ := found
      have long : 0 < typedEntry.length := by decide
      exact entry rest (shorter rest.length (by rw [List.length_append]; omega) rest rfl)
    · cases page with
      | nil => exact nil
      | cons c rest => exact other c rest found (shorter rest.length (Nat.lt_succ_self _) rest rfl)

/-- A text that cannot begin in a new name begins a page only where it began it before. -/
private theorem prefix_of_prefix_renameEntry (apart : ∀ s, s <:+ text → s ≠ [] → ∀ rest, ¬ s <+: plainEntry ++ rest)
    (begins : text <+: renameEntry page) : text <+: page := by
  induction text generalizing page with
  | nil => exact List.nil_prefix
  | cons c later shorter =>
    by_cases found : typedEntry <+: page
    · obtain ⟨rest, rfl⟩ := found
      rw [renameEntry_append] at begins
      exact absurd begins (apart _ (List.suffix_refl _) (List.cons_ne_nil _ _) _)
    · cases page with
      | nil => exact absurd (List.prefix_nil.mp begins) (List.cons_ne_nil _ _)
      | cons d rest =>
        rw [renameEntry_of_unmarked found, List.cons_prefix_cons] at begins
        obtain ⟨rfl, begins⟩ := begins
        exact List.cons_prefix_cons.mpr
          ⟨rfl, shorter (fun s under => apart s (under.trans (List.suffix_cons _ _))) begins⟩

theorem typedEntry_eq : typedEntry = ['/', 's', 'r', 'c', '/', 'm', 'a', 'i', 'n', '.', 't', 's'] := by decide

theorem plainEntry_eq : plainEntry = ['/', 's', 'r', 'c', '/', 'm', 'a', 'i', 'n', '.', 'j', 's'] := by decide

/-- No end of the old name begins the new one: the only slash inside it is followed by another letter. -/
private theorem not_prefix_plainEntry {s : List Char} (under : s <:+ typedEntry.tail) (nonempty : s ≠ [])
    (rest : List Char) : ¬ s <+: plainEntry ++ rest := by
  rw [typedEntry_eq, List.tail_cons] at under
  rw [plainEntry_eq]
  simp only [List.suffix_cons_iff, List.suffix_nil, nonempty, or_false] at under
  rcases under with rfl | rfl | rfl | rfl | rfl | rfl | rfl | rfl | rfl | rfl | rfl <;>
    simp [List.cons_prefix_cons]

private theorem not_infix_plainEntry_append {rest : List Char} (apart : ¬ typedEntry <:+: rest) :
    ¬ typedEntry <:+: plainEntry ++ rest := by
  rw [typedEntry_eq] at apart ⊢
  rw [plainEntry_eq]
  simp [List.infix_cons_iff, List.cons_prefix_cons, apart]

/-- A page that was rewritten does not name the old entry. -/
theorem not_infix_renameEntry (page : List Char) : ¬ typedEntry <:+: renameEntry page := by
  induction page using entry_induction with
  | nil => decide
  | entry rest apart =>
    rw [renameEntry_append]
    exact not_infix_plainEntry_append apart
  | other c rest found apart =>
    rw [renameEntry_of_unmarked found, List.infix_cons_iff]
    rintro (begins | inside)
    · refine found ?_
      rw [typedEntry_eq, List.cons_prefix_cons] at begins ⊢
      exact ⟨begins.1, prefix_of_prefix_renameEntry
        (fun s under nonempty => not_prefix_plainEntry (by rwa [typedEntry_eq]) nonempty) begins.2⟩
    · exact apart inside

theorem mem_renameEntry {c : Char} (mem : c ∈ renameEntry page) : c ∈ plainEntry ∨ c ∈ page := by
  induction page using entry_induction with
  | nil => exact .inr mem
  | entry rest old =>
    rw [renameEntry_append] at mem
    rcases List.mem_append.mp mem with new | mem
    · exact .inl new
    · exact (old mem).imp_right (List.mem_append_right _)
  | other d rest found old =>
    rw [renameEntry_of_unmarked found] at mem
    rcases List.mem_cons.mp mem with rfl | mem
    · exact .inr List.mem_cons_self
    · exact (old mem).imp_right (List.mem_cons_of_mem _)

theorem renameEntry_renameEntry (page : List Char) : renameEntry (renameEntry page) = renameEntry page := by
  rw [renameEntry, splitAt_of_not_infix (not_infix_renameEntry page), List.intercalate_singleton]

end Entry

/-! ## The endings in a script -/

section Endings

/-- Whether no word goes on here. -/
def endsWord : List Char → Bool
  | [] => true
  | c :: _ => !isWord c

/-- A command with the new endings, one character after the other. -/
def renamed : List Char → List Char
  | '.' :: 't' :: 's' :: rest =>
    if endsWord rest then '.' :: 'j' :: 's' :: renamed rest else '.' :: 't' :: 's' :: renamed rest
  | c :: rest => c :: renamed rest
  | [] => []

variable {command part : List Char}

private theorem matchLength?_typedEnding (before : Option Char) (rest : List Char) :
    typedEnding.matchLength? before ('.' :: 't' :: 's' :: rest) = if endsWord rest then some 3 else none := by
  cases rest with
  | nil => rfl
  | cons c later =>
    cases word : isWord c <;>
      simp [matchLength?, typedEnding, Pattern.literal, seqs, ends, endsWord, word]

private theorem matchLength?_typedEnding_of_ne (before : Option Char)
    (other : ∀ rest, command = '.' :: 't' :: 's' :: rest → False) : typedEnding.matchLength? before command = none := by
  rcases command with _ | ⟨a, _ | ⟨b, _ | ⟨c, rest⟩⟩⟩
  · rfl
  · by_cases dot : '.' = a <;> simp [matchLength?, typedEnding, Pattern.literal, seqs, ends, dot]
  · by_cases dot : '.' = a <;> by_cases t : 't' = b <;>
      simp [matchLength?, typedEnding, Pattern.literal, seqs, ends, dot, t]
  · by_cases dot : '.' = a
    · by_cases t : 't' = b
      · by_cases s : 's' = c
        · subst dot t s
          exact absurd rfl (other rest)
        · simp [matchLength?, typedEnding, Pattern.literal, seqs, ends, s]
      · simp [matchLength?, typedEnding, Pattern.literal, seqs, ends, t]
    · simp [matchLength?, typedEnding, Pattern.literal, seqs, ends, dot]

/-- A command is renamed from left to right. -/
theorem renameEndings_eq (command : List Char) : renameEndings command = renamed command := by
  have goes (limit : Nat) (before : Option Char) (text : List Char) (few : text.length < limit) :
      replaceFrom typedEnding (fun _ => ".js".toList) limit before 0 text = renamed text := by
    induction text using renamed.induct generalizing limit before with
    | case1 rest ends rename =>
      cases limit with
      | zero => cases few
      | succ limit =>
        have skip : replaceFrom typedEnding (fun _ => ".js".toList) limit (some '.') 2 ('t' :: 's' :: rest) =
            replaceFrom typedEnding (fun _ => ".js".toList) limit (some 's') 0 rest := by cases limit <;> rfl
        rw [replaceFrom, matchLength?_typedEnding, if_pos ends]
        dsimp only
        rw [skip, rename _ _ (by simp only [List.length_cons] at few; omega), renamed, if_pos ends]
        rfl
    | case2 rest goesOn rename =>
      obtain ⟨limit, rfl⟩ : ∃ below, limit = below + 1 := ⟨limit - 1, by omega⟩
      rw [replaceFrom, matchLength?_typedEnding, if_neg goesOn]
      dsimp only
      rw [replaceFrom, matchLength?_typedEnding_of_ne _ (fun _ eq => by cases eq)]
      dsimp only
      rw [replaceFrom, matchLength?_typedEnding_of_ne _ (fun _ eq => by cases eq)]
      dsimp only
      rw [rename _ _ (by simp only [List.length_cons] at few; omega), renamed, if_neg goesOn]
    | case3 c rest other rename =>
      obtain ⟨limit, rfl⟩ : ∃ below, limit = below + 1 := ⟨limit - 1, by omega⟩
      have none_ := matchLength?_typedEnding_of_ne before fun later eq => other later (List.cons.inj eq).1 (List.cons.inj eq).2
      rw [replaceFrom, none_]
      dsimp only
      rw [rename _ _ (by simp only [List.length_cons] at few; omega), renamed]
      exact other
    | case4 => cases limit <;> rfl
  exact goes _ none command (Nat.lt_succ_self _)

private theorem renamed_cons {c : Char} (other : c ≠ '.') (rest : List Char) : renamed (c :: rest) = c :: renamed rest := by
  rw [renamed]
  rintro later rfl
  exact absurd rfl other

theorem endsWord_renamed (rest : List Char) : endsWord (renamed rest) = endsWord rest := by
  cases rest with
  | nil => rfl
  | cons c later =>
    by_cases dot : c = '.'
    · subst dot
      rw [renamed.eq_def]
      split
      · split <;> rfl
      · next eq => rw [(List.cons.inj eq).1]; rfl
      · next eq => cases eq
    · rw [renamed_cons dot]
      rfl

/-- A renamed character is the same or the first letter of the new ending. -/
def Renames (old new : Char) : Prop := new = old ∨ old = 't' ∧ new = 'j'

theorem Renames.eq {old new : Char} (renames : Renames old new) (other : new ≠ 'j') : old = new := by
  rcases renames with same | ⟨-, new⟩
  · exact same.symm
  · exact absurd new other

theorem forall₂_renamed (command : List Char) : List.Forall₂ Renames command (renamed command) := by
  induction command using renamed.induct with
  | case1 rest ends each =>
    rw [renamed, if_pos ends]
    exact .cons (.inl rfl) (.cons (.inr ⟨rfl, rfl⟩) (.cons (.inl rfl) each))
  | case2 rest goesOn each =>
    rw [renamed, if_neg goesOn]
    exact .cons (.inl rfl) (.cons (.inl rfl) (.cons (.inl rfl) each))
  | case3 c rest other each =>
    rw [renamed]
    · exact .cons (.inl rfl) each
    · exact other
  | case4 => exact .nil

private theorem starts_of_renamed {rest later : List Char} (eq : renamed rest = 't' :: 's' :: later) :
    rest = 't' :: 's' :: rest.drop 2 := by
  have each := forall₂_renamed rest
  rw [eq] at each
  rcases each with _ | ⟨first, _ | ⟨second, each⟩⟩
  rw [first.eq (by decide), second.eq (by decide)]
  rfl

/-- Renaming a renamed command changes nothing. -/
theorem renamed_renamed (command : List Char) : renamed (renamed command) = renamed command := by
  induction command using renamed.induct with
  | case1 rest ends same =>
    rw [renamed, if_pos ends, renamed.eq_2, renamed_cons (by decide), renamed_cons (by decide), same]
    rintro later - eq
    cases eq
  | case2 rest goesOn same =>
    rw [renamed, if_neg goesOn, renamed, endsWord_renamed, if_neg goesOn, same]
  | case3 c rest other same =>
    rw [renamed.eq_2 c rest other, renamed.eq_2 c (renamed rest), same]
    rintro later rfl eq
    exact other _ rfl (starts_of_renamed eq)
  | case4 => rfl

/-- What stands at a place of a renamed command stood there before, unless it holds a letter of the new ending. -/
private theorem prefix_of_forall₂ {old new text : List Char} (each : List.Forall₂ Renames old new)
    (plain : 'j' ∉ text) (begins : text <+: new) : text <+: old := by
  induction text generalizing old new with
  | nil => exact List.nil_prefix
  | cons c later shorter =>
    obtain ⟨first, rest⟩ := not_or.mp (mt List.mem_cons.mpr plain)
    cases each with
    | nil => exact absurd (List.prefix_nil.mp begins) (List.cons_ne_nil _ _)
    | cons own each =>
      obtain ⟨rfl, further⟩ := List.cons_prefix_cons.mp begins
      exact List.cons_prefix_cons.mpr ⟨(own.eq (Ne.symm first)).symm, shorter each rest further⟩

theorem infix_of_infix_renamed {text : List Char} (plain : 'j' ∉ text) (inside : text <:+: renamed command) :
    text <:+: command := by
  have goes (old new : List Char) (each : List.Forall₂ Renames old new) (inside : text <:+: new) : text <:+: old := by
    induction each with
    | nil => exact inside
    | cons own each goes =>
      rcases List.infix_cons_iff.mp inside with begins | inside
      · exact (prefix_of_forall₂ (.cons own each) plain begins).isInfix
      · exact List.infix_cons (goes inside)
  exact goes _ _ (forall₂_renamed command) inside

private theorem not_endsWord_cons {c : Char} (word : isWord c = true) (rest : List Char) : ¬ endsWord (c :: rest) = true := by
  rw [endsWord, word]
  decide

/-- What comes before is renamed alone where no word goes on. -/
theorem renamed_append_of_endsWord (front : List Char) {back : List Char} (ends : endsWord back = true) :
    renamed (front ++ back) = renamed front ++ renamed back := by
  induction front using renamed.induct with
  | case1 rest own parts =>
    have still : endsWord (rest ++ back) = true := by
      cases rest with
      | nil => exact ends
      | cons c later => exact own
    simp only [List.cons_append]
    rw [renamed, if_pos still, parts, renamed, if_pos own, List.cons_append, List.cons_append, List.cons_append]
  | case2 rest goesOn parts =>
    have still : ¬ endsWord (rest ++ back) = true := by
      cases rest with
      | nil => exact absurd rfl goesOn
      | cons c later => exact goesOn
    simp only [List.cons_append]
    rw [renamed, if_neg still, parts, renamed, if_neg goesOn, List.cons_append, List.cons_append, List.cons_append]
  | case3 c rest other parts =>
    rw [List.cons_append, renamed.eq_2 c (rest ++ back), parts, renamed.eq_2 c rest other, List.cons_append]
    rintro later rfl eq
    -- the letters of an ending would be those of a word that goes on
    rcases rest with _ | ⟨t, _ | ⟨s, rest⟩⟩
    · obtain rfl : back = 't' :: 's' :: later := eq
      exact not_endsWord_cons (by decide) _ ends
    · injection eq with first eq
      obtain rfl : back = 's' :: later := eq
      exact not_endsWord_cons (by decide) _ ends
    · injection eq with first eq
      injection eq with second eq
      exact other rest rfl (by rw [first, second])
  | case4 => rfl

/-- What comes after is renamed alone where nothing before it can begin an ending. -/
theorem renamed_append_of_last {front : List Char} (apart : ∀ c ∈ front.getLast?, isWord c = false ∧ c ≠ '.')
    (back : List Char) : renamed (front ++ back) = renamed front ++ renamed back := by
  induction front using renamed.induct with
  | case1 rest own parts =>
    cases rest with
    | nil => exact absurd (apart 's' rfl).1 (by decide)
    | cons c later =>
      have still : endsWord (c :: later ++ back) = true := own
      simp only [List.cons_append] at still parts ⊢
      rw [renamed, if_pos still, parts apart, renamed, if_pos own, List.cons_append, List.cons_append, List.cons_append]
  | case2 rest goesOn parts =>
    cases rest with
    | nil => exact absurd rfl goesOn
    | cons c later =>
      have still : ¬ endsWord (c :: later ++ back) = true := goesOn
      simp only [List.cons_append] at still parts ⊢
      rw [renamed, if_neg still, parts apart, renamed, if_neg goesOn, List.cons_append, List.cons_append, List.cons_append]
  | case3 c rest other parts =>
    have inner : ∀ d ∈ rest.getLast?, isWord d = false ∧ d ≠ '.' := by
      cases rest with
      | nil => exact nofun
      | cons d later => rwa [List.getLast?_cons_cons] at apart
    rw [List.cons_append, renamed.eq_2 c (rest ++ back), parts inner, renamed.eq_2 c rest other, List.cons_append]
    rintro later rfl eq
    rcases rest with _ | ⟨t, _ | ⟨s, rest⟩⟩
    · exact (apart '.' rfl).2 rfl
    · injection eq with first eq
      subst first
      exact absurd (inner 't' rfl).1 (by decide)
    · injection eq with first eq
      injection eq with second eq
      exact other rest rfl (by rw [first, second])
  | case4 => rfl

/-- A blank parts what is renamed. -/
theorem renamed_append (front back : List Char) : renamed (front ++ ' ' :: back) = renamed front ++ ' ' :: renamed back := by
  have ends : endsWord (' ' :: back) = true := by
    rw [endsWord, show isWord ' ' = false by decide]
    rfl
  rw [renamed_append_of_endsWord front ends, renamed_cons (by decide)]

end Endings

/-! ## The parts of a script -/

section Segments

variable {text part : List Char} {parts : List (List Char)}

/-- Neither end of a text is blank. -/
structure Bare (text : List Char) : Prop where
  head : ∀ c, text.head? = some c → isBlank c = false
  last : ∀ c, text.getLast? = some c → isBlank c = false

private theorem dropWhile_of_head (dark : ∀ c, text.head? = some c → isBlank c = false) :
    text.dropWhile isBlank = text := by
  cases text with
  | nil => rfl
  | cons c rest => exact List.dropWhile_cons_of_neg (by simp [dark c rfl])

private theorem head_dropWhile (text : List Char) (c : Char) (head : (text.dropWhile isBlank).head? = some c) :
    isBlank c = false := by
  have dark := List.head?_dropWhile_not isBlank text
  rw [head] at dark
  exact dark

theorem Bare.strip_eq (bare : Bare text) : strip text = text := by
  rw [strip, dropWhile_of_head bare.head, dropWhile_of_head (by rw [List.head?_reverse]; exact bare.last),
    List.reverse_reverse]

theorem bare_strip (text : List Char) : Bare (strip text) := by
  refine ⟨fun c head => ?_, fun c last => ?_⟩
  · have front : strip text <+: text.dropWhile isBlank := by
      rw [strip, ← List.reverse_suffix, List.reverse_reverse]
      exact List.dropWhile_suffix isBlank
    obtain ⟨rest, eq⟩ := front
    refine head_dropWhile text c ?_
    rw [← eq, List.head?_append, head, Option.some_or]
  · rw [strip, List.getLast?_reverse] at last
    exact head_dropWhile _ c last

private theorem strip_cons (text : List Char) : strip (' ' :: text) = strip text := by
  rw [strip, strip, List.dropWhile_cons_of_pos (by decide)]

private theorem strip_concat (text : List Char) : strip (text ++ [' ']) = strip text := by
  rw [strip, strip, List.dropWhile_append]
  split
  · next none_ =>
    rw [List.isEmpty_iff.mp none_]
    rfl
  · rw [List.reverse_append, List.reverse_singleton, List.singleton_append, List.dropWhile_cons_of_pos (by decide)]

theorem bare_renamed (bare : Bare text) : Bare (renamed text) := by
  have dark {old new : Char} (renames : Renames old new) (dark : isBlank old = false) : isBlank new = false := by
    rcases renames with rfl | ⟨-, rfl⟩
    · exact dark
    · decide
  have heads {old new : List Char} (each : List.Forall₂ Renames old new)
      (head : ∀ c, old.head? = some c → isBlank c = false) : ∀ c, new.head? = some c → isBlank c = false := by
    intro c eq
    cases each with
    | nil => cases eq
    | cons own _ =>
      obtain rfl := Option.some.inj eq
      exact dark own (head _ rfl)
  have each := forall₂_renamed text
  refine ⟨heads each bare.head, ?_⟩
  have lasts := heads (List.forall₂_reverse_iff.mpr each) (by rw [List.head?_reverse]; exact bare.last)
  rwa [List.head?_reverse] at lasts

/-- What joins the parts of a command. -/
def joint : List Char := " && ".toList

def both : List Char := "&&".toList

/-- A command that stands between joints. -/
structure IsPart (part : List Char) : Prop where
  bare : Bare part
  whole : ¬ both <:+: part

theorem isPart_of_mem_segments {command : List Char} (mem : part ∈ segments command) : IsPart part := by
  obtain ⟨piece, piece_mem, rfl⟩ := List.mem_map.mp mem
  refine ⟨bare_strip piece, fun inside => not_infix_of_mem_splitAt (by decide) piece_mem (inside.trans ?_)⟩
  have front : strip piece <:+: piece.dropWhile isBlank := by
    rw [strip, ← List.reverse_infix, List.reverse_reverse]
    exact (List.dropWhile_suffix isBlank).isInfix
  exact front.trans (List.dropWhile_suffix isBlank).isInfix

theorem IsPart.renamed (isPart : IsPart part) : IsPart (renamed part) :=
  ⟨bare_renamed isPart.bare, fun inside => isPart.whole (infix_of_infix_renamed (by decide) inside)⟩

private theorem joint_eq : joint = [' ', '&', '&', ' '] := by decide

private theorem both_eq : both = ['&', '&'] := by decide

private theorem splitAt_append (apart : ¬ both <:+: part) (rest : List Char) :
    splitAt both 0 (part ++ (joint ++ rest)) = (part ++ [' ']) :: splitAt both 0 (' ' :: rest) := by
  induction part with
  | nil =>
    have other : ¬ both <+: ' ' :: '&' :: '&' :: ' ' :: rest := by simp [both_eq]
    have found : both <+: '&' :: '&' :: ' ' :: rest := ⟨' ' :: rest, by rw [both_eq]; rfl⟩
    obtain ⟨front, later, eq, whole⟩ := splitAt_of_unmarked other
    rw [splitAt_of_marked (by decide) found, both_eq] at eq
    obtain ⟨rfl, rfl⟩ := List.cons.inj eq
    rw [joint_eq]
    exact whole.trans (by rw [both_eq]; rfl)
  | cons c later splits =>
    rw [List.infix_cons_iff, not_or] at apart
    have other : ¬ both <+: c :: (later ++ (joint ++ rest)) := by
      intro begins
      refine apart.1 ?_
      rw [both_eq, joint_eq] at begins
      rw [both_eq]
      cases later with
      | nil => simp [List.cons_prefix_cons] at begins
      | cons d others => simpa [List.cons_prefix_cons] using begins
    obtain ⟨front, others, eq, whole⟩ := splitAt_of_unmarked other
    rw [splits apart.2] at eq
    obtain ⟨rfl, rfl⟩ := List.cons.inj eq
    exact whole

/-- The parts that are joined are the parts of what they make up. -/
theorem segments_intercalate (some_ : parts ≠ []) (each : ∀ part ∈ parts, IsPart part) :
    segments (joint.intercalate parts) = parts := by
  have goes (first : List Char) (parts : List (List Char)) (apart : ¬ both <:+: first)
      (each : ∀ part ∈ parts, IsPart part) :
      (splitAt both 0 (joint.intercalate (first :: parts))).map strip = strip first :: parts := by
    induction parts generalizing first with
    | nil => rw [List.intercalate_singleton, splitAt_of_not_infix apart, List.map_singleton]
    | cons part later goes =>
      obtain ⟨own, others⟩ := List.forall_mem_cons.mp each
      have blank : ' ' :: joint.intercalate (part :: later) = joint.intercalate ((' ' :: part) :: later) := by
        cases later with
        | nil => rw [List.intercalate_singleton, List.intercalate_singleton]
        | cons next others => rw [List.intercalate_cons_cons, List.intercalate_cons_cons, List.cons_append, List.cons_append]
      have apart' : ¬ both <:+: ' ' :: part := by
        rw [List.infix_cons_iff, both_eq]
        rintro (begins | inside)
        · simp at begins
        · exact own.whole (by rwa [both_eq])
      rw [List.intercalate_cons_cons, List.append_assoc, splitAt_append apart, blank, List.map_cons, strip_concat,
        goes _ apart' others, strip_cons, own.bare.strip_eq]
  obtain ⟨first, later, rfl⟩ := List.exists_cons_of_ne_nil some_
  obtain ⟨own, others⟩ := List.forall_mem_cons.mp each
  rw [segments, show "&&".toList = both from rfl, goes first later own.whole others, own.bare.strip_eq]

theorem renamed_intercalate (parts : List (List Char)) :
    renamed (joint.intercalate parts) = joint.intercalate (parts.map renamed) := by
  induction parts with
  | nil => rfl
  | cons part later joined =>
    cases later with
    | nil => rw [List.map_singleton, List.intercalate_singleton, List.intercalate_singleton]
    | cons next others =>
      have inner (rest : List Char) : renamed ('&' :: '&' :: ' ' :: rest) = '&' :: '&' :: ' ' :: renamed rest := by
        rw [renamed_cons (by decide), renamed_cons (by decide), renamed_cons (by decide)]
      rw [List.map_cons, List.map_cons, List.intercalate_cons_cons, List.intercalate_cons_cons, ← List.map_cons, ← joined,
        joint_eq, List.append_assoc, List.append_assoc]
      exact (renamed_append _ _).trans (congrArg (renamed part ++ ' ' :: ·) (inner _))

/-- The checks of a command are gone once it was rewritten. -/
theorem keptSegments_renamed {command : List Char} (some_ : keptSegments command ≠ []) :
    keptSegments (renamed (joint.intercalate (keptSegments command))) = (keptSegments command).map renamed := by
  have kept : ∀ part ∈ keptSegments command, IsPart part ∧ mentions "vue-tsc".toList part = false := by
    intro part mem
    obtain ⟨inside, other⟩ := List.mem_filter.mp mem
    exact ⟨isPart_of_mem_segments inside, by simpa using other⟩
  rw [renamed_intercalate]
  generalize keptSegments command = parts at some_ kept
  rw [keptSegments, segments_intercalate (mt List.map_eq_nil_iff.mp some_), List.filter_eq_self]
  · intro part mem
    obtain ⟨old, held, rfl⟩ := List.mem_map.mp mem
    have absent := (kept old held).2
    rw [Bool.not_eq_true', Bool.eq_false_iff, ne_eq, mentions_iff] at *
    exact mt (infix_of_infix_renamed (by decide)) absent
  · intro part mem
    obtain ⟨old, held, rfl⟩ := List.mem_map.mp mem
    exact (kept old held).1.renamed

/-- A script that was rewritten is not rewritten again. -/
theorem untypedScript_untypedScript {name command changed : String} (eq : untypedScript name command = some changed) :
    untypedScript name changed = some changed := by
  unfold untypedScript at eq ⊢
  split at eq
  · cases eq
  · next other =>
    rw [if_neg other]
    split at eq
    · next build =>
      rw [if_pos build]
      split at eq
      · cases eq
      · next some_ =>
        obtain rfl := Option.some.inj eq
        rw [String.toList_ofList, show " && ".toList = joint from rfl, renameEndings_eq, keptSegments_renamed some_]
        split
        · next none_ => exact absurd (List.map_eq_nil_iff.mp none_) some_
        · rw [renameEndings_eq, ← renamed_intercalate, renamed_renamed]
    · next plain =>
      obtain rfl := Option.some.inj eq
      rw [if_neg plain, String.toList_ofList, renameEndings_eq, renameEndings_eq, renamed_renamed]

end Segments

end Scaffold.Project
