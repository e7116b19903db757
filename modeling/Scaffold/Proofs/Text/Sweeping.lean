import Scaffold.Proofs.Text.Stretches

/-! # The run of a replacement

A replacement goes through a text once. An element at which no match begins is kept; where one begins, the preferred match is
replaced as a whole and the run goes on behind it. A repetition is matched as far as it goes, so what it repeats does not
match behind it.
-/

namespace Scaffold.Text.Pattern

variable {α : Type} {pattern first second body : Pattern α} {replacement : List α → List α} {accepts : α → Bool}
variable {before : Option α} {taken text rest : List α} {limit : Nat}

/-! ## Preferred matches -/

/-- Of the matches that begin at a place, a stretch is the preferred one. -/
def Prefers (pattern : Pattern α) (before : Option α) (taken rest : List α) : Prop :=
  (pattern.ends ⟨before, taken ++ rest⟩).head? = some ⟨taken.getLast?.or before, rest⟩

theorem Prefers.matches (prefers : pattern.Prefers before taken rest) : pattern.Matches before taken rest :=
  List.mem_of_mem_head? prefers

theorem Prefers.takes (prefers : pattern.Prefers before taken rest) : pattern.Takes taken := prefers.matches.takes

theorem prefers_of_matchLength? (found : pattern.matchLength? before (taken ++ rest) = some taken.length) :
    pattern.Prefers before taken rest := by
  obtain ⟨⟨last, behind⟩, preferred, length⟩ := Option.map_eq_some_iff.mp found
  obtain ⟨stretch, split, last_eq, -⟩ := takes_of_mem_ends (List.mem_of_mem_head? preferred)
  dsimp only at split last_eq length
  have lengths : taken.length = stretch.length := by
    rw [split, List.length_append] at length
    omega
  obtain ⟨rfl, rfl⟩ := List.append_inj split lengths
  rw [Prefers, preferred, last_eq]

/-- The preferred match of two patterns ends in the preferred match of the second. -/
theorem Prefers.of_seq (prefers : (seq first second).Prefers before taken rest) :
    ∃ front back, taken = front ++ back ∧ first.Matches before front (back ++ rest) ∧
      second.Prefers (front.getLast?.or before) back rest := by
  rw [Prefers, ends, List.head?_flatMap] at prefers
  obtain ⟨between, mem, preferred⟩ := List.exists_of_findSome?_eq_some prefers
  obtain ⟨front, split, last, own⟩ := exists_matches_of_mem_ends mem
  obtain ⟨back, others, -, -⟩ := takes_of_mem_ends (List.mem_of_mem_head? preferred)
  obtain ⟨last', behind⟩ := between
  dsimp only at split last own others preferred
  subst last others
  rw [← List.append_assoc] at split
  obtain rfl := List.append_cancel_right split
  refine ⟨front, back, rfl, own, ?_⟩
  rw [Prefers, preferred, getLast?_append_or]

/-- Repetitions end where a step takes nothing more. -/
theorem not_lt_of_head?_starEnds {step : Spot α → List (Spot α)} {fuel : Nat} {spot last next : Spot α}
    (enough : spot.rest.length ≤ fuel) (preferred : (starEnds step fuel spot).head? = some last) (mem : next ∈ step last) :
    ¬ next.rest.length < last.rest.length := by
  induction fuel generalizing spot with
  | zero =>
    obtain rfl : spot = last := Option.some.inj preferred
    omega
  | succ fuel ends =>
    rw [starEnds, List.head?_append, List.head?_flatMap] at preferred
    rcases Option.or_eq_some_iff.mp preferred with further | ⟨none_, here⟩
    · obtain ⟨between, -, later⟩ := List.exists_of_findSome?_eq_some further
      split at later
      · next shorter => exact ends (by omega) later
      · cases later
    · obtain rfl : spot = last := Option.some.inj here
      have stays := List.findSome?_eq_none_iff.mp none_ next mem
      intro shorter
      rw [if_pos shorter, List.head?_eq_none_iff] at stays
      cases fuel with
      | zero => cases stays
      | succ fuel => exact absurd (List.append_eq_nil_iff.mp stays).2 (List.cons_ne_nil _ _)

/-- Behind a repetition, what it repeats takes nothing more. -/
theorem Prefers.not_matches_of_star (prefers : (star body).Prefers before taken rest) {more others : List α}
    (split : rest = more ++ others) (some_ : more ≠ []) : ¬ body.Matches (taken.getLast?.or before) more others := by
  intro again
  rw [Matches, ← split] at again
  refine not_lt_of_head?_starEnds (Nat.le_refl _) prefers again ?_
  have := List.length_pos_iff.mpr some_
  rw [split, List.length_append]
  dsimp only
  omega

/-! ## The run -/

/-- What a replacement makes of a text. -/
inductive Swept (pattern : Pattern α) (replacement : List α → List α) : Option α → List α → List α → Prop
  | nil {before : Option α} : Swept pattern replacement before [] []
  | keep {before : Option α} {x : α} {rest output : List α} (none_ : pattern.ends ⟨before, x :: rest⟩ = [])
      (later : Swept pattern replacement (some x) rest output) : Swept pattern replacement before (x :: rest) (x :: output)
  | replace {before : Option α} {taken rest output : List α} (prefers : pattern.Prefers before taken rest)
      (later : Swept pattern replacement (taken.getLast?.or before) rest output) :
      Swept pattern replacement before (taken ++ rest) (replacement taken ++ output)

theorem swept_replaceFrom (taking : ∀ before rest, pattern.matchLength? before rest ≠ some 0) (short : text.length < limit) :
    Swept pattern replacement before text (replaceFrom pattern replacement limit before 0 text) := by
  -- a match that is replaced counts against the limit, and the text behind it is shorter
  induction limit generalizing before text with
  | zero => cases short
  | succ limit behind =>
    induction text generalizing before with
    | nil => exact .nil
    | cons x rest onward =>
      rw [List.length_cons] at short
      cases found : pattern.matchLength? before (x :: rest) with
      | none =>
        rw [replaceFrom, found]
        exact .keep (matchLength?_eq_none_iff.mp found) (onward (by omega))
      | some length =>
        obtain ⟨taken, back, split, rfl⟩ := exists_stretch_of_matchLength? found
        have some_ : taken ≠ [] := by
          rintro rfl
          exact taking before _ found
        have positive := List.length_pos_iff.mpr some_
        have size := congrArg List.length split
        rw [List.length_cons, List.length_append] at size
        rw [split] at found ⊢
        rw [replaceFrom_of_matchLength? replacement limit some_ found]
        exact .replace (prefers_of_matchLength? found) (behind (by omega))

theorem swept_replaceAll (taking : ∀ before rest, pattern.matchLength? before rest ≠ some 0) (text : List α) :
    Swept pattern replacement none text (pattern.replaceAll replacement text) :=
  swept_replaceFrom taking (Nat.lt_succ_self _)

/-- A pattern that begins with an element takes something. -/
theorem matchLength?_seq_one_ne_zero (before : Option α) (rest : List α) :
    (seq (one accepts) second).matchLength? before rest ≠ some 0 := by
  intro found
  obtain ⟨front, back, split, ⟨x, rfl, -⟩, -⟩ := takes_of_matchLength? found
  cases split

end Scaffold.Text.Pattern
