import Scaffold.Proofs.Text.Sweeping

/-! # What the removal of matches keeps

The removal of all matches goes through a text from match to match. In front of each match it keeps a stretch, in which no
match begins, and behind the last one it keeps everything. A repetition matches whatever its parts match.
-/

namespace Scaffold.Text.Pattern

variable {α : Type} {pattern body : Pattern α} {before : Option α} {text taken rest : List α}

/-- The preferred match at a place takes a stretch. -/
theorem matches_of_matchLength? (found : pattern.matchLength? before (taken ++ rest) = some taken.length) :
    pattern.Matches before taken rest := (prefers_of_matchLength? found).matches

/-- A repetition takes parts that its body takes, each of which takes something. -/
theorem matches_star (parts : List (List α)) (before : Option α) (rest : List α) (some_ : ∀ part ∈ parts, part ≠ [])
    (each : ∀ part ∈ parts, ∀ before rest, body.Matches before part rest) : (star body).Matches before parts.flatten rest := by
  have goes (fuel : Nat) (enough : parts.flatten.length ≤ fuel) :
      ⟨parts.flatten.getLast?.or before, rest⟩ ∈ starEnds body.ends fuel ⟨before, parts.flatten ++ rest⟩ := by
    induction parts generalizing before fuel with
    | nil => cases fuel <;> exact List.mem_of_getLast? (by simp [starEnds])
    | cons part parts goes =>
      obtain ⟨own, others⟩ := List.forall_mem_cons.mp some_
      obtain ⟨first, later⟩ := List.forall_mem_cons.mp each
      have positive := List.length_pos_iff.mpr own
      rw [List.flatten_cons, List.length_append] at enough
      cases fuel with
      | zero => omega
      | succ fuel =>
        rw [List.flatten_cons, getLast?_append_or, List.append_assoc, starEnds]
        refine List.mem_append_left _ (List.mem_flatMap.mpr ⟨_, first before (parts.flatten ++ rest), ?_⟩)
        have shorter : (parts.flatten ++ rest).length < (part ++ (parts.flatten ++ rest)).length := by
          simp only [List.length_append]
          omega
        dsimp only
        rw [if_pos shorter]
        exact goes _ others later fuel (by omega)
  rw [Matches, ends]
  exact goes _ (by rw [List.length_append]; omega)

/-- A text without the matches that a search finds in it one after the other. -/
inductive Cuts (pattern : Pattern α) : Option α → List α → List α → Prop
  | rest {before : Option α} {text : List α} (none_ : pattern.occursFrom before text = false) : Cuts pattern before text text
  | cut {before : Option α} {kept taken rest output : List α}
      (found : pattern.Matches (kept.getLast?.or before) taken rest)
      (leftmost : ∀ earlier later, kept ++ (taken ++ rest) = earlier ++ later → earlier.length < kept.length →
        pattern.ends ⟨earlier.getLast?.or before, later⟩ = [])
      (later : Cuts pattern (taken.getLast?.or (kept.getLast?.or before)) rest output) :
      Cuts pattern before (kept ++ (taken ++ rest)) (kept ++ output)

theorem Cuts.length_le {output : List α} (cuts : Cuts pattern before text output) : output.length ≤ text.length := by
  induction cuts with
  | rest => exact Nat.le_refl _
  | cut _ _ _ short =>
    simp only [List.length_append]
    omega

/-- Without what a search finds behind an element, a text still begins with it. -/
theorem Cuts.cons {x : α} {output : List α} (none_ : pattern.ends ⟨before, x :: text⟩ = [])
    (cuts : Cuts pattern (some x) text output) : Cuts pattern before (x :: text) (x :: output) := by
  cases cuts with
  | rest free =>
    refine .rest ?_
    rw [occursFrom, matchLength?_eq_none_iff.mpr none_, free]
    rfl
  | @cut _ kept taken rest output found leftmost later =>
    have last : (x :: kept).getLast?.or before = kept.getLast?.or (some x) := by
      rw [← List.singleton_append, getLast?_append_or]
      rfl
    rw [← List.cons_append, ← List.cons_append]
    refine .cut (by rwa [last]) (fun earlier behind split short => ?_) (by rwa [last])
    cases earlier with
    | nil =>
      rw [← show x :: (kept ++ (taken ++ rest)) = behind from split]
      exact none_
    | cons y earlier =>
      obtain ⟨rfl, others⟩ := List.cons.inj split
      have free := leftmost earlier behind others (Nat.lt_of_succ_lt_succ short)
      rwa [← List.singleton_append, getLast?_append_or]

theorem cuts_removeAll (taking : ∀ before rest, pattern.matchLength? before rest ≠ some 0) (text : List α) :
    Cuts pattern none text (pattern.removeAll text) := by
  have cuts {before : Option α} {source output : List α} (swept : Swept pattern (fun _ => []) before source output) :
      Cuts pattern before source output := by
    induction swept with
    | nil => exact .rest (occursFrom_nil taking _)
    | keep none_ _ cuts => exact cuts.cons none_
    | replace prefers _ cuts => exact @Cuts.cut _ _ _ [] _ _ _ prefers.matches nofun cuts
  exact cuts (swept_replaceAll taking text)

end Scaffold.Text.Pattern
