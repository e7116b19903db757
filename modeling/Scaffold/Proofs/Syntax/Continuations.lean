import Scaffold.Proofs.Syntax.Colons

/-! # Reading on to a colon

What is derived in front of a colon that is a token is derived in the same way whatever stands behind the colon. Only the
end of a statement without a semicolon looks further ahead than to the next token: over comments and line breaks, and
it takes a line comment to go on up to a line feed.
-/

namespace Scaffold.Syntax

open Scaffold.Text

variable {front back more other : List Char} {c : Char} {length skip offset stop : Nat} {trees : List Tree}

/-! ## Comments -/

/-- Behind a colon one text may stand for another: it closes no comment that stays open with the first one. -/
def MayReplace (more other : List Char) : Prop :=
  ∀ front, blockCommentTailLength (front ++ ':' :: more) = none → blockCommentTailLength (front ++ ':' :: other) = none

theorem commentLength_colon (may : MayReplace more other) (fits : commentLength (front ++ ':' :: more) ≤ front.length) :
    commentLength (front ++ ':' :: other) = commentLength (front ++ ':' :: more) := by
  have single (c d : Char) (rest : List Char) (plain : c ≠ '/' ∨ d ≠ '/' ∧ d ≠ '*') : commentLength (c :: d :: rest) = 0 := by
    unfold commentLength
    split <;> simp_all
  rcases front with _ | ⟨c, _ | ⟨d, front⟩⟩
  · rfl
  · rw [List.singleton_append, List.singleton_append, single _ _ _ (.inr (by decide)), single _ _ _ (.inr (by decide))]
  · by_cases line : c = '/' ∧ d = '/'
    · obtain ⟨rfl, rfl⟩ := line
      simp only [List.cons_append, commentLength, List.length_cons] at fits ⊢
      rw [takeWhile_of_le (Nat.le_of_add_le_add_right fits)]
    · by_cases block : c = '/' ∧ d = '*'
      · obtain ⟨rfl, rfl⟩ := block
        simp only [List.cons_append, commentLength, List.length_cons] at fits ⊢
        cases found : blockCommentTailLength (front ++ ':' :: more) with
        | none => rw [may front found]
        | some length =>
          rw [found] at fits
          rw [blockCommentTailLength_append found (Nat.le_of_add_le_add_right fits)]
      · have plain : c ≠ '/' ∨ d ≠ '/' ∧ d ≠ '*' := by
          by_cases slash : c = '/'
          · exact .inr ⟨fun same => line ⟨slash, same⟩, fun same => block ⟨slash, same⟩⟩
          · exact .inl slash
        simp only [List.cons_append]
        rw [single c d _ plain, single c d _ plain]

theorem commentLength_eq_zero (plain : c ≠ '/') (rest : List Char) : commentLength (c :: rest) = 0 := by
  unfold commentLength
  split <;> simp_all

/-- A comment is over where a token begins. -/
theorem commentLength_le (lands : (triviaFrom offset 0 (front ++ ':' :: more)).2.rest = back ++ ':' :: more) :
    commentLength (front ++ ':' :: more) ≤ front.length := by
  cases front with
  | nil => exact Nat.le_refl 0
  | cons c front =>
    by_cases slash : c = '/'
    · subst slash
      simp only [List.cons_append, triviaFrom, show isSeparator '/' = false from rfl] at lands
      cases comment : commentLength ('/' :: (front ++ ':' :: more)) with
      | zero => rw [List.cons_append, comment]; exact Nat.zero_le _
      | succ skip =>
        rw [comment] at lands
        have behind : (triviaFrom (offset + charWidth '/') skip (front ++ ':' :: more)).2.rest = back ++ ':' :: more := lands
        have most := length_triviaFrom_le (offset + charWidth '/') skip (front ++ ':' :: more)
        rw [behind] at most
        simp only [List.length_append, List.length_cons] at most
        rw [List.cons_append, comment, List.length_cons]
        omega
    · rw [List.cons_append, commentLength_eq_zero slash]
      exact Nat.zero_le _

/-- The comments up to a token in front of a colon. -/
theorem triviaFrom_colon (may : MayReplace more other)
    (lands : (triviaFrom offset skip (front ++ ':' :: more)).2.rest = back ++ ':' :: more) :
    triviaFrom offset skip (front ++ ':' :: other) =
      ((triviaFrom offset skip (front ++ ':' :: more)).1,
        ⟨(triviaFrom offset skip (front ++ ':' :: more)).2.offset, back ++ ':' :: other⟩) := by
  have most := length_triviaFrom_le offset skip (front ++ ':' :: more)
  rw [lands] at most
  simp only [List.length_append, List.length_cons] at most
  induction front generalizing offset skip with
  | nil =>
    obtain rfl : skip = 0 := by
      simp only [List.length_nil] at most
      omega
    have here (more : List Char) : triviaFrom offset 0 (':' :: more) = ([], ⟨offset, ':' :: more⟩) := rfl
    rw [List.nil_append, here] at lands ⊢
    rw [List.nil_append, here]
    obtain rfl : back = [] := List.append_left_eq_self.mp lands.symm
    rfl
  | cons c front same =>
    have later {offset skip : Nat} (lands : (triviaFrom offset skip (front ++ ':' :: more)).2.rest = back ++ ':' :: more) :
        triviaFrom offset skip (front ++ ':' :: other) =
          ((triviaFrom offset skip (front ++ ':' :: more)).1,
            ⟨(triviaFrom offset skip (front ++ ':' :: more)).2.offset, back ++ ':' :: other⟩) := by
      refine same lands ?_
      have most := length_triviaFrom_le offset skip (front ++ ':' :: more)
      rw [lands] at most
      simpa only [List.length_append, List.length_cons] using most
    cases skip with
    | succ skip => exact later lands
    | zero =>
      have fits := commentLength_le lands
      simp only [List.cons_append, triviaFrom] at lands ⊢
      split
      · next separator =>
        rw [if_pos separator] at lands
        exact later lands
      · next plain =>
        rw [if_neg plain] at lands
        have kept := commentLength_colon may fits
        simp only [List.cons_append] at fits kept
        rw [kept]
        split at lands
        · next none_ =>
          have eq : c :: front = back := List.append_cancel_right lands
          rw [← eq]
          rfl
        · next skip comment =>
          have stretch (more : List Char) : (c :: (front ++ ':' :: more)).take (skip + 1) = c :: front.take skip := by
            rw [comment, List.length_cons] at fits
            rw [List.take_succ_cons, List.take_append_of_le_length (Nat.le_of_succ_le_succ fits)]
          simp only [later lands, stretch]

theorem triviaFrom_skip (offset skip : Nat) (text : List Char) :
    (triviaFrom offset skip text).2 = (triviaFrom (offset + width (text.take skip)) 0 (text.drop skip)).2 := by
  induction text generalizing offset skip with
  | nil => cases skip <;> simp [triviaFrom, width]
  | cons c text same =>
    cases skip with
    | zero => rfl
    | succ skip =>
      rw [List.take_succ_cons, List.drop_succ_cons, width_cons, ← Nat.add_assoc, triviaFrom]
      exact same _ _

theorem length_readEnding_le {ending : StatementEnd} {fresh : Bool} {next : Cursor} (text : List Char)
    (found : readEnding ending offset fresh skip text = some (trees, next)) : next.rest.length ≤ text.length - skip := by
  induction text generalizing offset fresh skip trees with
  | nil =>
    cases skip <;> cases fresh <;> simp only [readEnding] at found <;> cases found <;> exact Nat.zero_le _
  | cons c text le =>
    cases skip with
    | succ skip => exact Nat.le_trans (le found) (by simp)
    | zero =>
      simp only [readEnding] at found
      split at found
      · cases found
        exact Nat.le_refl _
      · split at found
        · exact Nat.le_trans (le found) (by simp)
        · split at found
          · cases found
          · split at found
            · cases found
            · next inner =>
              cases found
              exact Nat.le_trans (le inner) (by simp; omega)

/-- What is skipped on the way to the end of a statement is skipped in front of the next token, too. -/
theorem triviaFrom_of_readEnding {ending : StatementEnd} {fresh : Bool} {next : Cursor} (text : List Char)
    (found : readEnding ending offset fresh skip text = some (trees, next)) : (triviaFrom offset skip text).2 = next.trivia.2 := by
  induction text generalizing offset fresh skip trees with
  | nil =>
    cases skip <;> cases fresh <;> simp only [readEnding] at found <;> cases found <;> rfl
  | cons c text same =>
    cases skip with
    | succ skip => exact same found
    | zero =>
      simp only [readEnding] at found
      split at found
      · cases found
        rfl
      · rw [triviaFrom]
        split at found
        · next separator =>
          rw [if_pos separator]
          exact same found
        · next plain =>
          rw [if_neg plain]
          split at found
          · cases found
          · next skip comment =>
            split at found
            · cases found
            · next inner =>
              cases found
              exact same inner

/-! ## The end of a statement -/

/-- Every line ends with a line feed. -/
def LinesEnd (text : List Char) : Prop :=
  ∀ before c behind, text = before ++ c :: behind → isLineEnd c = true → c = '\n' ∨ c = '\r' ∧ behind.head? = some '\n'

theorem LinesEnd.of_all {text : List Char} (plain : (text.all fun c => !isLineEnd c || c = '\n') = true) : LinesEnd text := by
  intro before c behind split ends
  have own := List.all_eq_true.mp plain c (by simp [split])
  rw [ends, Bool.not_true, Bool.false_or, decide_eq_true_eq] at own
  exact .inl own

theorem LinesEnd.behind {text : List Char} (lines : LinesEnd (front ++ text)) : LinesEnd text :=
  fun before c behind split => lines (front ++ before) c behind (by rw [split, List.append_assoc])

theorem isSeparator_of_isLineBlank (blank : isLineBlank c = true) : isSeparator c = true := by
  simp only [isLineBlank, isSeparator, Bool.or_eq_true, Bool.and_eq_true, decide_eq_true_eq] at blank ⊢
  omega

theorem pastComments_skip (skip : Nat) (text : List Char) : pastComments skip text = pastComments 0 (text.drop skip) := by
  induction text generalizing skip with
  | nil => cases skip <;> rfl
  | cons c text same =>
    cases skip with
    | zero => rfl
    | succ skip => exact same skip

/-- What comes of two texts that differ behind a colon: nothing, or the end of both, or the same part in front of the colon. -/
inductive SameUpToColon (more other : List Char) : Option (List Char) → Option (List Char) → Prop
  | nothing : SameUpToColon more other none none
  | ended : SameUpToColon more other (some []) (some [])
  | front (front : List Char) : SameUpToColon more other (some (front ++ ':' :: more)) (some (front ++ ':' :: other))

/-- A line comment that ends in front of the colon ends at a line feed there, or at a carriage return in front of one. -/
theorem exists_lineFeed (lines : LinesEnd (front ++ ':' :: more))
    (fits : ((front ++ ':' :: more).takeWhile fun d => !isLineEnd d).length ≤ front.length) :
    ∃ line gap rest, front = line ++ (gap ++ '\n' :: rest) ∧
      line.length = ((front ++ ':' :: more).takeWhile fun d => !isLineEnd d).length ∧ (gap = [] ∨ gap = ['\r']) ∧
        ∀ d ∈ line ++ gap, (d ≠ '\n') := by
  induction front with
  | nil => simp [show isLineEnd ':' = false from rfl] at fits
  | cons d front found =>
    cases ends : isLineEnd d with
    | true =>
      have none_ : ((d :: front ++ ':' :: more).takeWhile fun d => !isLineEnd d) = [] := by
        rw [List.cons_append, List.takeWhile_cons, ends]
        rfl
      rw [none_]
      rcases lines [] d _ rfl ends with rfl | ⟨rfl, head⟩
      · exact ⟨[], [], front, rfl, rfl, .inl rfl, nofun⟩
      · cases front with
        | nil => cases head
        | cons e front =>
          obtain rfl : e = '\n' := by simpa using head
          exact ⟨[], ['\r'], front, rfl, rfl, .inr rfl, by simp⟩
    | false =>
      rw [List.cons_append, List.takeWhile_cons, ends] at fits ⊢
      obtain ⟨line, gap, rest, rfl, size, short, inLine⟩ :=
        found (@LinesEnd.behind [d] _ lines) (Nat.le_of_succ_le_succ fits)
      refine ⟨d :: line, gap, rest, rfl, congrArg (· + 1) size, short, ?_⟩
      intro e mem
      rcases List.mem_cons.mp mem with rfl | mem
      · rintro rfl
        cases ends
      · exact inLine e mem

theorem pastComments_line (line rest : List Char) (inLine : ∀ d ∈ line, d ≠ '\n') :
    pastComments 0 ('/' :: '/' :: (line ++ '\n' :: rest)) = pastComments 0 ('\n' :: rest) := by
  have stretch : (line ++ '\n' :: rest).takeWhile (· ≠ '\n') = line := by
    rw [List.takeWhile_append_of_pos (by simpa using inLine), List.takeWhile_cons_of_neg (by simp), List.append_nil]
  change pastComments (1 + ((line ++ '\n' :: rest).takeWhile (· ≠ '\n')).length) ('/' :: (line ++ '\n' :: rest)) = _
  rw [stretch, pastComments_skip, Nat.add_comm 1, List.drop_succ_cons, List.drop_left]

theorem pastComments_blank (blank : isLineBlank c = true) (rest : List Char) :
    pastComments 0 (c :: rest) = pastComments 0 rest := by
  rw [pastComments.eq_def]
  simp only [blank, if_true]

theorem pastComments_ink (ink : isLineBlank c = false) (plain : c ≠ '/') (rest : List Char) :
    pastComments 0 (c :: rest) = some (c :: rest) := by
  rw [pastComments.eq_def]
  simp [ink, plain]

theorem pastComments_block (tail : List Char) : pastComments 0 ('/' :: '*' :: tail) =
    match blockCommentTailLength tail with
    | some length => pastComments 0 (tail.drop length)
    | none => some [] := by
  change (match blockCommentTailLength tail with
    | some length => pastComments (1 + length) ('*' :: tail)
    | none => some []) = _
  split
  · rw [pastComments_skip, Nat.add_comm 1, List.drop_succ_cons]
  · rfl

theorem pastComments_slash {d : Char} (line : d ≠ '/') (block : d ≠ '*') (rest : List Char) :
    pastComments 0 ('/' :: d :: rest) = none := by
  rw [pastComments.eq_def]
  simp only [show isLineBlank '/' = false from rfl, Bool.false_eq_true, ne_eq, not_true_eq_false, if_false]
  split
  · next same => exact absurd (List.cons.inj same).1 line
  · next same => exact absurd (List.cons.inj same).1 block
  · rfl

/-- A comment in front of a token ends there, and the token is found behind it. -/
theorem lands_behind_comment {d : Char}
    (lands : (triviaFrom offset 0 ('/' :: d :: (front ++ ':' :: more))).2.rest = back ++ ':' :: more)
    (comment : commentLength ('/' :: d :: (front ++ ':' :: more)) = length + 2) :
    length ≤ front.length ∧
      ∃ place, (triviaFrom place 0 ((front ++ ':' :: more).drop length)).2.rest = back ++ ':' :: more := by
  have behind : (triviaFrom (offset + charWidth '/') (length + 1) (d :: (front ++ ':' :: more))).2.rest = back ++ ':' :: more := by
    rw [triviaFrom, comment] at lands
    exact lands
  have fits := @commentLength_le ('/' :: d :: front) _ _ _ lands
  rw [triviaFrom_skip, List.drop_succ_cons] at behind
  simp only [List.cons_append, comment, List.length_cons] at fits
  exact ⟨by omega, _, behind⟩

/-- What a look past comments finds in front of a colon does not depend on what is behind it. -/
theorem pastComments_colon (may : MayReplace more other) (lines : LinesEnd (front ++ ':' :: more))
    (lands : (triviaFrom offset 0 (front ++ ':' :: more)).2.rest = back ++ ':' :: more) :
    SameUpToColon more other (pastComments 0 (front ++ ':' :: more)) (pastComments 0 (front ++ ':' :: other)) := by
  induction size : front.length using Nat.strongRecOn generalizing front offset with
  | ind size earlier =>
    subst size
    cases front with
    | nil => exact .front []
    | cons c front =>
      cases blank : isLineBlank c with
      | true =>
        rw [List.cons_append, triviaFrom, if_pos (isSeparator_of_isLineBlank blank)] at lands
        rw [List.cons_append, List.cons_append, pastComments_blank blank, pastComments_blank blank]
        exact earlier _ (Nat.lt_succ_self _) (@LinesEnd.behind [c] _ lines) lands rfl
      | false =>
        by_cases slash : c = '/'
        · subst slash
          cases front with
          | nil => exact .nothing
          | cons d front =>
            have behind : LinesEnd (front ++ ':' :: more) := @LinesEnd.behind ['/', d] _ lines
            by_cases line : d = '/'
            · subst line
              obtain ⟨fits, place, lands⟩ := lands_behind_comment lands rfl
              obtain ⟨line, gap, rest, rfl, size, short, inLine⟩ := exists_lineFeed behind fits
              rw [← size, List.append_assoc, List.drop_left] at lands
              have found : ∃ place, (triviaFrom place 0 ('\n' :: rest ++ ':' :: more)).2.rest = back ++ ':' :: more := by
                rcases short with rfl | rfl
                · exact ⟨_, lands⟩
                · exact ⟨_, lands⟩
              obtain ⟨place, lands⟩ := found
              have skips (more : List Char) :
                  pastComments 0 ('/' :: '/' :: (line ++ (gap ++ '\n' :: rest)) ++ ':' :: more) =
                    pastComments 0 ('\n' :: rest ++ ':' :: more) := by
                have all := pastComments_line (line ++ gap) (rest ++ ':' :: more) inLine
                simpa using all
              rw [skips, skips]
              refine earlier _ ?_ (@LinesEnd.behind (line ++ gap) _ ?_) lands rfl
              · simp only [List.length_cons, List.length_append]
                omega
              · simpa using behind
            · by_cases block : d = '*'
              · subst block
                simp only [List.cons_append, pastComments_block]
                cases found : blockCommentTailLength (front ++ ':' :: more) with
                | none =>
                  rw [may front found]
                  exact .ended
                | some length =>
                  obtain ⟨fits, place, lands⟩ := @lands_behind_comment _ _ _ length _ _ lands
                    (show _ = length + 2 by simp only [commentLength, found])
                  rw [blockCommentTailLength_append found fits]
                  simp only
                  rw [drop_colon fits] at lands ⊢
                  rw [drop_colon fits]
                  refine earlier _ ?_ (@LinesEnd.behind (front.take length) _ ?_) lands rfl
                  · simp only [List.length_cons, List.length_drop]
                    omega
                  · rw [← List.append_assoc, List.take_append_drop]
                    exact behind
              · simp only [List.cons_append]
                rw [pastComments_slash line block, pastComments_slash line block]
                exact .nothing
        · simp only [List.cons_append]
          rw [pastComments_ink blank slash, pastComments_ink blank slash]
          exact .front (c :: front)

/-- The operators that begin with the letters `in` do not go on across the colon. -/
theorem beginsStatement_in (ending : StatementEnd) (tail more : List Char) :
    beginsStatement ending ('i' :: 'n' :: (tail ++ ':' :: more)) =
      (tail.head?.any Char.isAlpha &&
        (!"stanceof".toList.isPrefixOf tail || (tail.drop 8).head?.any Char.isAlpha)) := by
  cases tail with
  | nil => rfl
  | cons d tail =>
    rw [List.cons_append, beginsStatement, if_neg (by decide), if_neg (by decide), if_neg (by decide), if_neg (by decide),
      if_neg (by decide), if_neg (by decide), if_pos rfl, ← List.cons_append, isPrefixOf_colon (by decide)]
    cases letter : d.isAlpha with
    | false => simp [letter]
    | true =>
      cases begins : "stanceof".toList.isPrefixOf (d :: tail) with
      | false => simp [letter]
      | true =>
        have long : 8 ≤ (d :: tail).length := (List.isPrefixOf_iff_prefix.mp begins).length_le
        rw [drop_colon long]
        cases (d :: tail).drop 8 <;> simp [letter]

theorem beginsStatement_colon (ending : StatementEnd) (front more other : List Char) :
    beginsStatement ending (front ++ ':' :: other) = beginsStatement ending (front ++ ':' :: more) := by
  have head (front more : List Char) : (front ++ ':' :: more).head? = some (front.head?.getD ':') := by
    cases front <;> rfl
  cases front with
  | nil => rfl
  | cons c front =>
    by_cases letter : c = 'i'
    · subst letter
      cases front with
      | nil => rfl
      | cons d front =>
        by_cases goesOn : d = 'n'
        · subst goesOn
          simp only [List.cons_append, beginsStatement_in]
        · have begins (rest : List Char) : beginsStatement ending ('i' :: d :: rest) = true := by
            rw [beginsStatement]
            · simp
            · exact fun tail same => goesOn (List.cons.inj same).1
          simp only [List.cons_append, begins]
    · simp only [List.cons_append, beginsStatement, letter, if_false, head]

theorem SameUpToColon.any_beginsStatement {first second : Option (List Char)} (same : SameUpToColon more other first second)
    (ending : StatementEnd) : second.any (beginsStatement ending) = first.any (beginsStatement ending) := by
  cases same with
  | nothing | ended => rfl
  | front front => exact beginsStatement_colon ending front more other

theorem mayEnd_cons (ending : StatementEnd) (c : Char) (rest : List Char) : mayEnd ending (c :: rest) =
    if c = '\n' then (pastComments 0 rest).any (beginsStatement ending)
    else if c = '\x7d' then (rest.dropWhile isLineBlank).head? ≠ some ':' || ending = .expression
    else if isLineBlank c then mayEnd ending rest else false := by
  by_cases line : c = '\n'
  · subst line
    rw [mayEnd]
    cases pastComments 0 rest <;> rfl
  · rw [mayEnd]
    · simp only [line, if_false]
    · exact line

/-- Whether a statement may end in front of a colon does not depend on what is behind it. -/
theorem mayEnd_colon {ending : StatementEnd} (may : MayReplace more other) (lines : LinesEnd (front ++ ':' :: more))
    (lands : (triviaFrom offset 0 (front ++ ':' :: more)).2.rest = back ++ ':' :: more) :
    mayEnd ending (front ++ ':' :: other) = mayEnd ending (front ++ ':' :: more) := by
  induction front generalizing offset with
  | nil => rfl
  | cons c front same =>
    have lines' : LinesEnd (front ++ ':' :: more) := @LinesEnd.behind [c] _ lines
    have behind (blank : isLineBlank c = true) :
        (triviaFrom (offset + charWidth c) 0 (front ++ ':' :: more)).2.rest = back ++ ':' :: more := by
      rw [List.cons_append, triviaFrom, if_pos (isSeparator_of_isLineBlank blank)] at lands
      exact lands
    have head (front more : List Char) : (front ++ ':' :: more).head? = some (front.head?.getD ':') := by
      cases front <;> rfl
    simp only [List.cons_append, mayEnd_cons, dropWhile_colon (show isLineBlank ':' = false from rfl), head]
    split
    · next line =>
      exact (pastComments_colon may lines' (behind (by rw [line]; rfl))).any_beginsStatement ending
    · split
      · rfl
      · split
        · next blank => exact same lines' (behind blank)
        · rfl

/-- An omitted semicolon in front of a colon, if a token follows in front of it or the colon itself is one. -/
theorem readEnding_colon {ending : StatementEnd} {fresh : Bool} {last : List Char} (may : MayReplace more other)
    (lines : LinesEnd (front ++ ':' :: more))
    (found : readEnding ending offset fresh skip (front ++ ':' :: more) = some (trees, ⟨stop, back ++ ':' :: more⟩))
    (lands : (triviaFrom stop 0 (back ++ ':' :: more)).2.rest = last ++ ':' :: more) :
    readEnding ending offset fresh skip (front ++ ':' :: other) = some (trees, ⟨stop, back ++ ':' :: other⟩) := by
  have most := length_readEnding_le _ found
  simp only [List.length_append, List.length_cons] at most
  induction front generalizing offset fresh skip trees with
  | nil =>
    obtain rfl : skip = 0 := by
      simp only [List.length_nil] at most
      omega
    have none_ (more : List Char) : readEnding ending offset fresh 0 (':' :: more) = none := by
      simp [readEnding, mayEnd_cons, show isLineBlank ':' = false from rfl, show isSeparator ':' = false from rfl,
        show commentLength (':' :: more) = 0 from rfl]
    rw [List.nil_append, none_] at found
    cases found
  | cons c front same =>
    have later {offset skip : Nat} {fresh : Bool} {trees : List Tree}
        (found : readEnding ending offset fresh skip (front ++ ':' :: more) = some (trees, ⟨stop, back ++ ':' :: more⟩)) :
        readEnding ending offset fresh skip (front ++ ':' :: other) = some (trees, ⟨stop, back ++ ':' :: other⟩) := by
      refine same (@LinesEnd.behind [c] _ lines) found ?_
      have most := length_readEnding_le _ found
      simpa only [List.length_append, List.length_cons] using most
    cases skip with
    | succ skip => exact later found
    | zero =>
      have lands' : (triviaFrom offset 0 (c :: front ++ ':' :: more)).2.rest = last ++ ':' :: more := by
        rw [triviaFrom_of_readEnding _ found]
        exact lands
      have ends := @mayEnd_colon _ _ _ _ _ ending may lines lands'
      have fits := commentLength_le lands'
      have kept := commentLength_colon may fits
      simp only [List.cons_append] at ends kept fits
      simp only [List.cons_append, readEnding, ends, kept] at found ⊢
      split at found
      · next stops =>
        rw [if_pos stops]
        simp only [Option.some.injEq, Prod.mk.injEq, Cursor.mk.injEq] at found
        obtain ⟨rfl, rfl, eq⟩ := found
        have eq : c :: front = back := List.append_cancel_right eq
        rw [← eq]
        rfl
      · next goesOn =>
        rw [if_neg goesOn]
        split at found
        · next separator =>
          rw [if_pos separator]
          exact later found
        · next plain =>
          rw [if_neg plain]
          split at found
          · cases found
          · next skip comment =>
            have stretch (more : List Char) : (c :: (front ++ ':' :: more)).take (skip + 1) = c :: front.take skip := by
              rw [comment, List.length_cons] at fits
              rw [List.take_succ_cons, List.take_append_of_le_length (Nat.le_of_succ_le_succ fits)]
            split at found
            · cases found
            · next inner next_ inside =>
              simp only [Option.some.injEq, Prod.mk.injEq] at found
              obtain ⟨rfl, rfl⟩ := found
              simp only [later inside, stretch]

/-! ## Tokens -/

theorem readGlued_colon {kind : Kind} {terminal : Terminal} (spares : terminal.sparesColon = true)
    (found : readGlued kind terminal ⟨offset, front ++ ':' :: more⟩ = some (trees, ⟨stop, back ++ ':' :: more⟩)) :
    readGlued kind terminal ⟨offset, front ++ ':' :: other⟩ = some (trees, ⟨stop, back ++ ':' :: other⟩) := by
  unfold readGlued at found
  split at found
  · cases found
  · next some_ =>
    simp only [Option.some.injEq, Prod.mk.injEq, Cursor.advance, Cursor.mk.injEq] at found
    obtain ⟨rfl, rfl, left⟩ := found
    have size := congrArg List.length left
    simp only [List.length_drop, List.length_append, List.length_cons] at size
    have fits : terminal.length (front ++ ':' :: more) ≤ front.length := by omega
    have same := Terminal.length_colon spares some_ fits other
    rw [drop_colon fits] at left
    have left := List.append_cancel_right left
    unfold readGlued
    dsimp only
    rw [same]
    split
    · next none_ => exact absurd none_ some_
    · simp only [Cursor.advance, drop_colon fits, left, List.take_append_of_le_length fits]

theorem readLeaf_colon {kind : Kind} {terminal : Terminal} (may : MayReplace more other) (spares : terminal.sparesColon = true)
    (found : readLeaf kind terminal ⟨offset, front ++ ':' :: more⟩ = some (trees, ⟨stop, back ++ ':' :: more⟩)) :
    (∃ middle, (triviaFrom offset 0 (front ++ ':' :: more)).2.rest = middle ++ ':' :: more) ∧
      readLeaf kind terminal ⟨offset, front ++ ':' :: other⟩ = some (trees, ⟨stop, back ++ ':' :: other⟩) := by
  obtain ⟨gap, split, -⟩ := exists_gap offset 0 (front ++ ':' :: more)
  unfold readLeaf at found
  simp only [Cursor.trivia] at found
  split at found
  · cases found
  · next inner next_ glued =>
    simp only [Option.some.injEq, Prod.mk.injEq] at found
    obtain ⟨rfl, rfl⟩ := found
    have behind : ':' :: more <:+ (triviaFrom offset 0 (front ++ ':' :: more)).2.rest := by
      refine List.suffix_of_suffix_length_le ⟨front, rfl⟩ ⟨gap, split.symm⟩ ?_
      unfold readGlued at glued
      split at glued
      · cases glued
      · simp only [Option.some.injEq, Prod.mk.injEq, Cursor.advance, Cursor.mk.injEq] at glued
        have size := congrArg List.length glued.2.2
        simp only [List.length_drop, List.length_append, List.length_cons] at size ⊢
        omega
    obtain ⟨middle, lands⟩ := behind
    have kept := triviaFrom_colon may lands.symm
    refine ⟨⟨middle, lands.symm⟩, ?_⟩
    have here : (triviaFrom offset 0 (front ++ ':' :: more)).2 =
        ⟨(triviaFrom offset 0 (front ++ ':' :: more)).2.offset, middle ++ ':' :: more⟩ := by
      rw [lands]
    rw [here] at glued
    unfold readLeaf
    simp only [Cursor.trivia, kept, readGlued_colon spares glued]

/-! ## Replacements that close no comment -/

theorem blockCommentTailLength_append_cons (star : c ≠ '*') (slash : c ≠ '/') (front back : List Char) :
    blockCommentTailLength (front ++ c :: back) = none ↔
      blockCommentTailLength front = none ∧ blockCommentTailLength back = none := by
  induction front with
  | nil => simp [blockCommentTailLength_cons, star, blockCommentTailLength]
  | cons d front same =>
    have next : (front ++ c :: back).head? = some '/' ↔ front.head? = some '/' := by
      cases front <;> simp [slash]
    rw [List.cons_append, blockCommentTailLength_cons, blockCommentTailLength_cons]
    simp only [next]
    split
    · simp
    · simpa using same

theorem blockCommentTailLength_behind (none_ : blockCommentTailLength (front ++ back) = none) :
    blockCommentTailLength back = none := by
  induction front with
  | nil => exact none_
  | cons c front behind =>
    rw [List.cons_append, blockCommentTailLength_cons] at none_
    split at none_
    · cases none_
    · exact behind (Option.map_eq_none_iff.mp none_)

theorem blockCommentTailLength_front (none_ : blockCommentTailLength (front ++ back) = none) :
    blockCommentTailLength front = none := by
  induction front with
  | nil => rfl
  | cons c front before =>
    rw [List.cons_append, blockCommentTailLength_cons] at none_
    rw [blockCommentTailLength_cons]
    split at none_
    · cases none_
    · next open_ =>
      have stays : ¬ (c = '*' ∧ front.head? = some '/') := fun ⟨star, slash⟩ =>
        open_ ⟨star, by rw [List.head?_append, slash, Option.some_or]⟩
      rw [if_neg stays, before (Option.map_eq_none_iff.mp none_), Option.map_none]

/-- A text without the marks of comments may stand for any other, whatever is around it. -/
theorem mayReplace_of_plain {new : List Char} (solid : new ≠ []) (plain : ∀ c ∈ new, c ≠ '*' ∧ c ≠ '/')
    (front old back : List Char) : MayReplace (front ++ (old ++ back)) (front ++ (new ++ back)) := by
  have middle (before : List Char) (first : blockCommentTailLength before = none) (last : blockCommentTailLength back = none) :
      blockCommentTailLength (before ++ (new ++ back)) = none := by
    induction new generalizing before with
    | nil => exact absurd rfl solid
    | cons c new rest =>
      have own := plain c List.mem_cons_self
      refine (blockCommentTailLength_append_cons own.1 own.2 before (new ++ back)).mpr ⟨first, ?_⟩
      cases new with
      | nil => exact last
      | cons d new => exact rest nofun (fun e mem => plain e (List.mem_cons_of_mem c mem)) [] rfl
  intro before none_
  have shape (text : List Char) : before ++ ':' :: (front ++ (text ++ back)) = before ++ ':' :: front ++ (text ++ back) := by
    simp
  rw [shape] at none_ ⊢
  exact middle _ (blockCommentTailLength_front none_)
    (blockCommentTailLength_behind (blockCommentTailLength_behind none_))

end Scaffold.Syntax
