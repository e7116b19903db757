import Scaffold.Proofs.Text.Matching

/-! # The stretches that a pattern matches

A match takes a stretch of the text between what stands in front of it and what follows. What it may take is said for each
form of pattern, so that a pattern made of several ones is read off part by part. A stretch in which no match begins is left
by a replacement, and the search goes on behind it.
-/

namespace Scaffold.Text.Pattern

variable {α : Type} {pattern first second : Pattern α} {accepts : α → Bool} {before : Option α}
variable {taken text more rest : List α}

/-- A pattern matches a stretch of a text. -/
def Matches (pattern : Pattern α) (before : Option α) (taken rest : List α) : Prop :=
  ⟨taken.getLast?.or before, rest⟩ ∈ pattern.ends ⟨before, taken ++ rest⟩

theorem Matches.takes (found : pattern.Matches before taken rest) : pattern.Takes taken := by
  obtain ⟨stretch, split, -, takes⟩ := takes_of_mem_ends found
  rwa [List.append_cancel_right split]

/-- Every end closes a stretch. -/
theorem exists_matches_of_mem_ends {spot next : Spot α} (mem : next ∈ pattern.ends spot) :
    ∃ taken, spot.rest = taken ++ next.rest ∧ next.before = taken.getLast?.or spot.before ∧
      pattern.Matches spot.before taken next.rest := by
  obtain ⟨taken, split, last, -⟩ := takes_of_mem_ends mem
  refine ⟨taken, split, last, ?_⟩
  rw [Matches, ← last, ← split]
  exact mem

theorem ends_eq_nil_iff :
    pattern.ends ⟨before, text⟩ = [] ↔ ∀ taken rest, text = taken ++ rest → ¬ pattern.Matches before taken rest := by
  constructor
  · rintro none taken rest rfl found
    rw [Matches, none] at found
    cases found
  · intro none
    refine List.eq_nil_iff_forall_not_mem.mpr fun next mem => ?_
    obtain ⟨taken, split, -, found⟩ := exists_matches_of_mem_ends mem
    exact none taken next.rest split found

@[simp] theorem matches_one_iff : (one accepts).Matches before taken rest ↔ ∃ x, taken = [x] ∧ accepts x = true := by
  constructor
  · exact Matches.takes
  · rintro ⟨x, rfl, accepted⟩
    rw [Matches, List.singleton_append, ends]
    dsimp only
    rw [if_pos accepted]
    exact List.mem_cons_self

@[simp] theorem matches_many_iff : (many accepts).Matches before taken rest ↔ ∀ x ∈ taken, accepts x = true := by
  constructor
  · exact Matches.takes
  · intro each
    exact List.mem_reverse.mpr (mem_runEnds_iff.mpr ⟨taken, rfl, rfl, each⟩)

@[simp] theorem matches_few_iff : (few accepts).Matches before taken rest ↔ ∀ x ∈ taken, accepts x = true := by
  constructor
  · exact Matches.takes
  · intro each
    exact mem_runEnds_iff.mpr ⟨taken, rfl, rfl, each⟩

theorem matches_seq_iff : (seq first second).Matches before taken rest ↔ ∃ front back, taken = front ++ back ∧
    first.Matches before front (back ++ rest) ∧ second.Matches (front.getLast?.or before) back rest := by
  constructor
  · intro found
    obtain ⟨between, firstMem, secondMem⟩ := List.mem_flatMap.mp found
    obtain ⟨front, split, last, own⟩ := exists_matches_of_mem_ends firstMem
    obtain ⟨back, others, -, later⟩ := exists_matches_of_mem_ends secondMem
    dsimp only at split last others own later
    rw [others] at own
    rw [last] at later
    rw [others, ← List.append_assoc] at split
    exact ⟨front, back, List.append_cancel_right split, own, later⟩
  · rintro ⟨front, back, rfl, own, later⟩
    rw [Matches, getLast?_append_or, List.append_assoc]
    exact List.mem_flatMap.mpr ⟨_, own, later⟩

/-- A match of two patterns begins where one of the first does behind which one of the second begins. -/
theorem ends_seq_ne_nil_iff : (seq first second).ends ⟨before, text⟩ ≠ [] ↔ ∃ taken rest, text = taken ++ rest ∧
    first.Matches before taken rest ∧ second.ends ⟨taken.getLast?.or before, rest⟩ ≠ [] := by
  constructor
  · intro some_
    obtain ⟨next, mem⟩ := List.exists_mem_of_ne_nil _ some_
    obtain ⟨⟨last, behind⟩, firstMem, secondMem⟩ := List.mem_flatMap.mp mem
    obtain ⟨taken, split, rfl, own⟩ := exists_matches_of_mem_ends firstMem
    exact ⟨taken, behind, split, own, List.ne_nil_of_mem secondMem⟩
  · rintro ⟨taken, rest, rfl, own, some_⟩
    obtain ⟨next, mem⟩ := List.exists_mem_of_ne_nil _ some_
    exact List.ne_nil_of_mem (List.mem_flatMap.mpr ⟨_, own, mem⟩)

theorem ends_star_ne_nil (body : Pattern α) (spot : Spot α) : (star body).ends spot ≠ [] := by
  rw [ends]
  cases spot.rest.length with
  | zero => exact List.cons_ne_nil _ _
  | succ fuel => exact List.append_ne_nil_of_right_ne_nil _ (List.cons_ne_nil _ _)

@[simp] theorem matches_some_iff :
    (some_ accepts).Matches before taken rest ↔ taken ≠ [] ∧ ∀ x ∈ taken, accepts x = true := by
  rw [some_, matches_seq_iff]
  constructor
  · rintro ⟨front, back, rfl, found, run⟩
    obtain ⟨x, rfl, accepted⟩ := matches_one_iff.mp found
    exact ⟨List.cons_ne_nil _ _, List.forall_mem_cons.mpr ⟨accepted, matches_many_iff.mp run⟩⟩
  · rintro ⟨some_, each⟩
    obtain ⟨x, others, rfl⟩ := List.exists_cons_of_ne_nil some_
    obtain ⟨accepted, run⟩ := List.forall_mem_cons.mp each
    exact ⟨[x], others, rfl, matches_one_iff.mpr ⟨x, rfl, accepted⟩, matches_many_iff.mpr run⟩

@[simp] theorem matches_literal_iff [DecidableEq α] {word : List α} :
    (literal word).Matches before taken rest ↔ taken = word := by
  constructor
  · exact fun found => takes_literal found.takes
  · rintro rfl
    rw [Matches, ends_literal]
    exact List.mem_cons_self

@[simp] theorem matches_notAfter_iff :
    (notAfter accepts).Matches before taken rest ↔ taken = [] ∧ before.any accepts = false := by
  constructor
  · intro found
    obtain rfl : taken = [] := found.takes
    refine ⟨rfl, ?_⟩
    rw [Matches, ends] at found
    split at found
    · cases found
    · next free => simpa using free
  · rintro ⟨rfl, free⟩
    rw [Matches, ends, if_neg (by simp [free])]
    exact List.mem_cons_self

@[simp] theorem matches_notBefore_one_iff :
    (notBefore (one accepts)).Matches before taken rest ↔ taken = [] ∧ rest.head?.any accepts = false := by
  have free : ((one accepts).ends ⟨before, rest⟩).isEmpty = true ↔ rest.head?.any accepts = false := by
    cases rest with
    | nil => exact ⟨fun _ => rfl, fun _ => rfl⟩
    | cons x rest => cases accepted : accepts x <;> simp [ends, accepted]
  constructor
  · intro found
    obtain rfl : taken = [] := found.takes
    refine ⟨rfl, ?_⟩
    rw [Matches, ends, List.nil_append] at found
    split at found
    · next empty => exact free.mp empty
    · cases found
  · rintro ⟨rfl, apart⟩
    rw [Matches, ends, List.nil_append, if_pos (free.mpr apart)]
    exact List.mem_cons_self

@[simp] theorem matches_opt_iff :
    (opt pattern).Matches before taken rest ↔ pattern.Matches before taken rest ∨ taken = [] := by
  rw [opt, Matches, ends, List.mem_append]
  refine or_congr_right ⟨fun same => ?_, ?_⟩
  · have none : rest = taken ++ rest := congrArg Spot.rest (List.mem_singleton.mp same)
    exact List.self_eq_append_left.mp none
  · rintro rfl
    exact List.mem_cons_self

/-! ## Stretches without a match -/

/-- No match begins in a stretch of a text. -/
def Quiet (pattern : Pattern α) (text rest : List α) : Prop :=
  ∀ front x back, text = front ++ x :: back → ∀ before, pattern.ends ⟨before, x :: (back ++ rest)⟩ = []

theorem quiet_nil (pattern : Pattern α) (rest : List α) : pattern.Quiet [] rest := by
  intro front x back split
  cases front <;> cases split

theorem quiet_cons_iff {x : α} : pattern.Quiet (x :: text) rest ↔
    (∀ before, pattern.ends ⟨before, x :: (text ++ rest)⟩ = []) ∧ pattern.Quiet text rest := by
  constructor
  · intro quiet
    exact ⟨quiet [] x text rfl, fun front y back split => quiet (x :: front) y back (by rw [split, List.cons_append])⟩
  · rintro ⟨here, later⟩ front y back split
    cases front with
    | nil =>
      obtain ⟨rfl, rfl⟩ := List.cons.inj split
      exact here
    | cons z front => exact later front y back (List.cons.inj split).2

theorem quiet_append_iff : pattern.Quiet (text ++ more) rest ↔ pattern.Quiet text (more ++ rest) ∧ pattern.Quiet more rest := by
  induction text with
  | nil => exact ⟨fun quiet => ⟨quiet_nil _ _, quiet⟩, And.right⟩
  | cons x text later =>
    rw [List.cons_append, quiet_cons_iff, quiet_cons_iff, later, List.append_assoc, and_assoc]

/-- A replacement leaves a stretch without a match. -/
theorem replaceFrom_of_quiet (replacement : List α → List α) (limit : Nat) (quiet : pattern.Quiet text rest) :
    replaceFrom pattern replacement limit before 0 (text ++ rest) =
      text ++ replaceFrom pattern replacement limit (text.getLast?.or before) 0 rest := by
  cases limit with
  | zero => rw [replaceFrom_zero, replaceFrom_zero, List.drop_zero, List.drop_zero]
  | succ limit =>
    induction text generalizing before with
    | nil => rfl
    | cons x text later =>
      obtain ⟨none, behind⟩ := quiet_cons_iff.mp quiet
      rw [List.cons_append, replaceFrom, matchLength?_eq_none_iff.mpr (none before)]
      dsimp only
      rw [later behind, ← List.singleton_append (l := text), getLast?_append_or]
      rfl

theorem replaceAll_of_quiet (replacement : List α → List α) (quiet : pattern.Quiet text []) :
    pattern.replaceAll replacement text = text := by
  have left := @replaceFrom_of_quiet _ _ none _ _ replacement (text.length + 1) quiet
  rw [List.append_nil] at left
  rw [replaceAll, left]
  exact List.append_nil text

end Scaffold.Text.Pattern
