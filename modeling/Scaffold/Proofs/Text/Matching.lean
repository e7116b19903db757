import Scaffold.Proofs.Text.Thinning

/-! # Where a pattern matches

A given text matches at its own beginning only, and a run that nothing behind it may continue matches in full. A search
goes through the places of a text in order, so that what is replaced first is the match at the leftmost place.
-/

namespace Scaffold.Text.Pattern

variable {α : Type} {pattern second : Pattern α} {accepts : α → Bool} {before : Option α} {text rest : List α}

section Literal

variable [DecidableEq α]

theorem ends_literal (word : List α) (before : Option α) (rest : List α) :
    (literal word).ends ⟨before, word ++ rest⟩ = [⟨word.getLast?.or before, rest⟩] := by
  induction word generalizing before with
  | nil => rfl
  | cons x word matched =>
    have first : (one (decide <| x = ·)).ends ⟨before, x :: word ++ rest⟩ = [⟨some x, word ++ rest⟩] := by
      simp [ends]
    cases word with
    | nil => exact first
    | cons y word =>
      change (seq (one (decide <| x = ·)) (literal (y :: word))).ends _ = _
      rw [ends, first, List.flatMap_singleton, matched, List.getLast?_cons_cons]
      simp [List.getLast?_cons]

theorem ends_seq_literal (word : List α) (before : Option α) (rest : List α) :
    (seq (literal word) second).ends ⟨before, word ++ rest⟩ = second.ends ⟨word.getLast?.or before, rest⟩ := by
  rw [ends, ends_literal, List.flatMap_singleton]

theorem takes_literal {word taken : List α} (takes : (literal word).Takes taken) : taken = word := by
  induction word generalizing taken with
  | nil => exact takes
  | cons x word matched =>
    cases word with
    | nil =>
      obtain ⟨y, rfl, same⟩ := takes
      rw [of_decide_eq_true same]
    | cons y word =>
      obtain ⟨front, back, rfl, ⟨z, rfl, same⟩, others⟩ := takes
      rw [matched others, of_decide_eq_true same]
      rfl

end Literal

/-- The longest run is tried first. -/
theorem head?_ends_many (accepts : α → Bool) (before : Option α) (rest : List α) :
    ∃ last, ((many accepts).ends ⟨before, rest⟩).head? = some ⟨last, rest.dropWhile accepts⟩ := by
  induction rest generalizing before with
  | nil => exact ⟨before, rfl⟩
  | cons x rest longest =>
    simp only [ends, List.head?_reverse] at longest ⊢
    rw [runEnds, List.dropWhile_cons]
    split
    · next accepted =>
      obtain ⟨last, found⟩ := longest (some x)
      rw [List.getLast?_cons, found]
      exact ⟨last, rfl⟩
    · exact ⟨before, rfl⟩

/-- A run that takes as few elements as it can ends at the first place where what follows in the pattern matches. -/
theorem exists_of_head?_ends_seq_few {spot : Spot α}
    (found : ((seq (few accepts) second).ends ⟨before, text⟩).head? = some spot) :
    ∃ run rest, text = run ++ rest ∧ (second.ends ⟨run.getLast?.or before, rest⟩).head? = some spot ∧
      ∀ earlier later, text = earlier ++ later → earlier.length < run.length →
        second.ends ⟨earlier.getLast?.or before, later⟩ = [] := by
  induction text generalizing before with
  | nil =>
    have single : (seq (few accepts) second).ends ⟨before, []⟩ = second.ends ⟨before, []⟩ := List.flatMap_singleton _ _
    rw [single] at found
    exact ⟨[], [], rfl, found, fun _ _ _ short => absurd short (Nat.not_lt_zero _)⟩
  | cons x text shortest =>
    have step : (seq (few accepts) second).ends ⟨before, x :: text⟩ = second.ends ⟨before, x :: text⟩ ++
        if accepts x then (seq (few accepts) second).ends ⟨some x, text⟩ else [] := by
      simp only [ends, runEnds, List.flatMap_cons]
      split
      · rfl
      · rfl
    rw [step] at found
    by_cases none_ : second.ends ⟨before, x :: text⟩ = []
    · rw [none_, List.nil_append] at found
      split at found
      · obtain ⟨run, rest, rfl, matched, first⟩ := shortest found
        refine ⟨x :: run, rest, rfl, by simpa [List.getLast?_cons] using matched, fun earlier later split short => ?_⟩
        cases earlier with
        | nil =>
          obtain rfl : x :: (run ++ rest) = later := split
          exact none_
        | cons y earlier =>
          obtain ⟨rfl, others⟩ := List.cons.inj split
          simpa [List.getLast?_cons] using first earlier later others (Nat.lt_of_succ_lt_succ short)
      · cases found
    · rw [List.head?_append, Option.or_eq_left_of_isSome (by simpa using none_)] at found
      exact ⟨[], x :: text, rfl, found, fun _ _ _ short => absurd short (Nat.not_lt_zero _)⟩

/-- A run is matched in full where what follows in the pattern matches at no accepted element. -/
theorem ends_seq_many (parted : ∀ before x rest, accepts x = true → second.ends ⟨before, x :: rest⟩ = [])
    (before : Option α) (rest : List α) :
    ∃ last, (seq (many accepts) second).ends ⟨before, rest⟩ = second.ends ⟨last, rest.dropWhile accepts⟩ := by
  induction rest generalizing before with
  | nil => exact ⟨before, List.flatMap_singleton second.ends _⟩
  | cons x rest longest =>
    simp only [ends] at longest ⊢
    rw [runEnds, List.dropWhile_cons]
    split
    · next accepted =>
      obtain ⟨last, same⟩ := longest (some x)
      refine ⟨last, ?_⟩
      rw [List.reverse_cons, List.flatMap_append, same, List.flatMap_singleton, parted before x rest accepted,
        List.append_nil]
    · exact ⟨before, List.flatMap_singleton second.ends _⟩

theorem matchLength?_eq_none_iff : pattern.matchLength? before rest = none ↔ pattern.ends ⟨before, rest⟩ = [] := by
  rw [matchLength?, Option.map_eq_none_iff, List.head?_eq_none_iff]

/-- A pattern occurs in a text where it matches at one of its places. -/
theorem occursFrom_eq_true_iff :
    pattern.occursFrom before text = true ↔
      ∃ front rest, text = front ++ rest ∧ pattern.ends ⟨front.getLast?.or before, rest⟩ ≠ [] := by
  have here {before : Option α} {rest : List α} :
      (pattern.matchLength? before rest).isSome = true ↔ pattern.ends ⟨before, rest⟩ ≠ [] := by
    rw [Option.isSome_iff_ne_none, ne_eq, matchLength?_eq_none_iff]
  induction text generalizing before with
  | nil =>
    rw [occursFrom, here]
    constructor
    · intro matched
      exact ⟨[], [], rfl, matched⟩
    · rintro ⟨front, rest, split, matched⟩
      obtain ⟨rfl, rfl⟩ := List.append_eq_nil_iff.mp split.symm
      exact matched
  | cons x text later =>
    rw [occursFrom, Bool.or_eq_true, here]
    constructor
    · rintro (matched | found)
      · exact ⟨[], _, rfl, matched⟩
      · obtain ⟨front, rest, rfl, matched⟩ := later.mp found
        exact ⟨x :: front, rest, rfl, by simpa [List.getLast?_cons] using matched⟩
    · rintro ⟨front, rest, split, matched⟩
      cases front with
      | nil =>
        obtain rfl : x :: text = rest := split
        exact .inl matched
      | cons y front =>
        obtain ⟨rfl, rfl⟩ := List.cons.inj split
        exact .inr (later.mpr ⟨front, rest, rfl, by simpa [List.getLast?_cons] using matched⟩)

theorem occurs_eq_true_iff :
    pattern.occurs text = true ↔ ∃ front rest, text = front ++ rest ∧ pattern.ends ⟨front.getLast?, rest⟩ ≠ [] := by
  rw [occurs, occursFrom_eq_true_iff]
  simp only [Option.or_none]

/-- With no more matches to replace, a text stays. -/
theorem replaceFrom_zero (replacement : List α → List α) (before : Option α) (skip : Nat) (text : List α) :
    replaceFrom pattern replacement 0 before skip text = text.drop skip := by
  induction text generalizing before skip with
  | nil => cases skip <;> rfl
  | cons x text same =>
    cases skip with
    | zero => rfl
    | succ skip => exact same (some x) skip

/-- What still belongs to a match is passed over. -/
theorem replaceFrom_skip (replacement : List α → List α) (limit skip : Nat) (text rest : List α) :
    replaceFrom pattern replacement limit before (text.length + skip) (text ++ rest) =
      replaceFrom pattern replacement limit (text.getLast?.or before) skip rest := by
  induction text generalizing before with
  | nil => rw [List.length_nil, Nat.zero_add]; rfl
  | cons x text later =>
    have step : replaceFrom pattern replacement limit before ((x :: text).length + skip) (x :: text ++ rest) =
        replaceFrom pattern replacement limit (some x) (text.length + skip) (text ++ rest) := by
      rw [List.length_cons, Nat.succ_add]
      cases limit <;> rfl
    rw [step, later, ← List.singleton_append (l := text), getLast?_append_or]
    rfl

/-- A match takes a stretch of what follows its place. -/
theorem exists_stretch_of_matchLength? {length : Nat} (found : pattern.matchLength? before text = some length) :
    ∃ taken rest, text = taken ++ rest ∧ taken.length = length := by
  obtain ⟨spot, -, same⟩ := Option.map_eq_some_iff.mp found
  refine ⟨text.take length, text.drop length, (List.take_append_drop _ _).symm, ?_⟩
  rw [List.length_take]
  omega

/-- The preferred match at a place is replaced as a whole, and the replacement goes on behind it. -/
theorem replaceFrom_of_matchLength? {taken : List α} (replacement : List α → List α) (limit : Nat) (some_ : taken ≠ [])
    (found : pattern.matchLength? before (taken ++ rest) = some taken.length) :
    replaceFrom pattern replacement (limit + 1) before 0 (taken ++ rest) =
      replacement taken ++ replaceFrom pattern replacement limit (taken.getLast?.or before) 0 rest := by
  obtain ⟨x, stretch, rfl⟩ := List.exists_cons_of_ne_nil some_
  have skips := @replaceFrom_skip _ pattern (some x) replacement limit 0 stretch rest
  have parts : (x :: (stretch ++ rest)).take (stretch.length + 1) = x :: stretch := by simp
  rw [Nat.add_zero] at skips
  rw [List.cons_append, List.length_cons] at found
  rw [List.cons_append, replaceFrom, found]
  dsimp only
  rw [parts, skips, ← List.singleton_append (l := stretch), getLast?_append_or]
  rfl

/-- A pattern that takes something does not occur in the empty text. -/
theorem occursFrom_nil (taking : ∀ before rest, pattern.matchLength? before rest ≠ some 0) (before : Option α) :
    pattern.occursFrom before [] = false := by
  refine Bool.eq_false_iff.mpr fun occurs => ?_
  obtain ⟨length, found⟩ := Option.isSome_iff_exists.mp occurs
  obtain ⟨taken, rest, none_, rfl⟩ := exists_stretch_of_matchLength? found
  obtain ⟨rfl, -⟩ := List.append_eq_nil_iff.mp none_.symm
  exact taking before [] found

/-- The leftmost match of a pattern that takes something is replaced, and the rest of the text stays. -/
theorem replaceFrom_of_occursFrom (replacement : List α → List α)
    (taking : ∀ before rest, pattern.matchLength? before rest ≠ some 0)
    (occurs : pattern.occursFrom before text = true) :
    ∃ front taken rest, text = front ++ (taken ++ rest) ∧
      pattern.matchLength? (front.getLast?.or before) (taken ++ rest) = some taken.length ∧
      (∀ earlier later, text = earlier ++ later → earlier.length < front.length →
        pattern.ends ⟨earlier.getLast?.or before, later⟩ = []) ∧
      replaceFrom pattern replacement 1 before 0 text = front ++ (replacement taken ++ rest) := by
  induction text generalizing before with
  | nil =>
    rw [occursFrom_nil taking] at occurs
    cases occurs
  | cons x text later =>
    cases found : pattern.matchLength? before (x :: text) with
    | some length =>
      obtain ⟨taken, rest, split, rfl⟩ := exists_stretch_of_matchLength? found
      have some_ : taken ≠ [] := by
        rintro rfl
        exact taking before _ found
      rw [split] at found ⊢
      refine ⟨[], taken, rest, rfl, found, fun _ _ _ short => absurd short (Nat.not_lt_zero _), ?_⟩
      rw [replaceFrom_of_matchLength? replacement 0 some_ found, replaceFrom_zero]
      rfl
    | none =>
      rw [occursFrom, found] at occurs
      obtain ⟨front, taken, rest, split, matched, leftmost, replaced⟩ := later occurs
      refine ⟨x :: front, taken, rest, congrArg (x :: ·) split, ?_, fun earlier behind split short => ?_, ?_⟩
      · simpa [List.getLast?_cons] using matched
      · cases earlier with
        | nil =>
          rw [← show x :: text = behind from split]
          exact matchLength?_eq_none_iff.mp found
        | cons y earlier =>
          obtain ⟨rfl, rfl⟩ := List.cons.inj split
          simpa [List.getLast?_cons] using leftmost earlier behind rfl (Nat.lt_of_succ_lt_succ short)
      · rw [replaceFrom, found]
        exact congrArg (x :: ·) replaced

/-- A text without a match stays. -/
theorem replaceFrom_of_occursFrom_eq_false (replacement : List α → List α) (limit : Nat)
    (none_ : pattern.occursFrom before text = false) : replaceFrom pattern replacement limit before 0 text = text := by
  cases limit with
  | zero => exact replaceFrom_zero replacement before 0 text
  | succ limit =>
    induction text generalizing before with
    | nil => rfl
    | cons x text later =>
      obtain ⟨here, behind⟩ := Bool.or_eq_false_iff.mp none_
      rw [replaceFrom, Option.isNone_iff_eq_none.mp (Option.isSome_eq_false_iff.mp here)]
      exact congrArg (x :: ·) (later behind)

end Scaffold.Text.Pattern
