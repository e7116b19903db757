import Scaffold.Proofs.Text.BlankLines
import Scaffold.Proofs.Text.Lines

/-! # The layout that is taken with a range

A range that is widened to its lines takes layout only: the spaces and tabs in front of it where they begin its line, one
semicolon directly behind it, and the end of its line where nothing but spaces and tabs stands in front of that. The bytes
around a range settle what it takes. No line break is parted, and ranges that follow each other stay apart.
-/

namespace Scaffold.Text

variable {source : Bytes} {start stop offset first last closed spaced : Nat}

/-! ## Offsets on a line -/

/-- An offset begins the line that another one is on. -/
structure BeginsLine (source : Bytes) (offset first : Nat) : Prop where
  le : first ≤ offset
  begins : first = 0 ∨ source[first - 1]? = some lineFeed
  noFeed : NoFeed source first offset

/-- Spaces and tabs reach from an offset up to something else, or to the end of the text. -/
structure SpacesReach (source : Bytes) (offset spaced : Nat) : Prop where
  le : offset ≤ spaced
  indented : Indented source offset spaced
  ends : ∀ byte, source[spaced]? = some byte → isIndent byte = false

/-- A line ends at an offset: with the text, or with a line break, which reaches up to another offset. -/
inductive LineEndsAt (source : Bytes) (offset : Nat) : Nat → Prop
  | text (finished : offset = source.length) : LineEndsAt source offset offset
  | feed (feeds : source[offset]? = some lineFeed) : LineEndsAt source offset (offset + 1)
  | return_ (returns : source[offset]? = some 13) (feeds : source[offset + 1]? = some lineFeed) :
      LineEndsAt source offset (offset + 2)

/-- The end of a range, with the semicolon directly behind it if there is one. -/
inductive ClosesAt (source : Bytes) (stop : Nat) : Nat → Prop
  | plain (other : source[stop]? ≠ some 59) : ClosesAt source stop stop
  | semicolon (at_ : source[stop]? = some 59) : ClosesAt source stop (stop + 1)

/-- An offset lies between the two bytes of a line break. -/
def PartsBreak (source : Bytes) (offset : Nat) : Prop :=
  0 < offset ∧ source[offset - 1]? = some 13 ∧ source[offset]? = some lineFeed

theorem noFeed_lineStart (le : offset ≤ source.length) : NoFeed source (lineStart source offset) offset := by
  intro position after before
  rw [lineStart_eq le] at after
  obtain ⟨byte, at_, other⟩ := accepted_before le after before
  rw [at_]
  rintro ⟨⟩
  simp at other

theorem beginsLine_lineStart (le : offset ≤ source.length) : BeginsLine source offset (lineStart source offset) :=
  ⟨lineStart_le, lineStart_eq_zero_or le, noFeed_lineStart le⟩

theorem BeginsLine.unique {other : Nat} (begins : BeginsLine source offset first) (also : BeginsLine source offset other) :
    first = other := by
  have le {near far : Nat} (near_ : BeginsLine source offset near) (far_ : BeginsLine source offset far) : near ≤ far := by
    refine Nat.le_of_not_lt fun lt => ?_
    have inside := near_.le
    rcases near_.begins with zero | feed
    · omega
    · exact far_.noFeed (near - 1) (by omega) (by omega) feed
  exact Nat.le_antisymm (le begins also) (le also begins)

theorem isIndent_skipSpaces {byte : UInt8} (at_ : source[skipSpaces source offset]? = some byte) : isIndent byte = false := by
  rw [skipSpaces, ← List.getElem?_drop] at at_
  exact accepts_eq_false_of_getElem?_takeWhile at_

theorem spacesReach_skipSpaces (source : Bytes) (offset : Nat) : SpacesReach source offset (skipSpaces source offset) :=
  ⟨le_skipSpaces source offset, indent_skipSpaces source offset, fun _ => isIndent_skipSpaces⟩

theorem SpacesReach.unique {other : Nat} (reach : SpacesReach source offset spaced) (also : SpacesReach source offset other) :
    spaced = other := by
  have le {near far : Nat} (near_ : SpacesReach source offset near) (far_ : SpacesReach source offset far) : far ≤ near := by
    refine Nat.le_of_not_lt fun lt => ?_
    obtain ⟨byte, at_, indent⟩ := far_.indented near near_.le lt
    rw [near_.ends byte at_] at indent
    cases indent
  exact Nat.le_antisymm (le also reach) (le reach also)

theorem closesAt_pastSemicolon (source : Bytes) (stop : Nat) : ClosesAt source stop (pastSemicolon source stop) := by
  by_cases semicolon : source[stop]? = some 59
  · rw [pastSemicolon_of_getElem? semicolon]
    exact .semicolon semicolon
  · rcases pastSemicolon_spec source stop with same | ⟨-, at_⟩
    · rw [same]
      exact .plain semicolon
    · exact absurd at_ semicolon

theorem ClosesAt.eq_or (closes : ClosesAt source stop closed) :
    closed = stop ∨ closed = stop + 1 ∧ source[stop]? = some 59 := by
  cases closes with
  | plain => exact .inl rfl
  | semicolon at_ => exact .inr ⟨rfl, at_⟩

theorem ClosesAt.le (closes : ClosesAt source stop closed) : stop ≤ closed := by
  cases closes with
  | plain => exact Nat.le_refl stop
  | semicolon => exact Nat.le_succ stop

theorem ClosesAt.le_length (closes : ClosesAt source stop closed) (le : stop ≤ source.length) : closed ≤ source.length := by
  cases closes with
  | plain => exact le
  | semicolon at_ => exact (List.getElem?_eq_some_iff.mp at_).1

theorem ClosesAt.unique {other : Nat} (closes : ClosesAt source stop closed) (also : ClosesAt source stop other) :
    closed = other := by
  cases closes with
  | plain open_ =>
    cases also with
    | plain => rfl
    | semicolon at_ => exact absurd at_ open_
  | semicolon at_ =>
    cases also with
    | plain open_ => exact absurd at_ open_
    | semicolon => rfl

theorem slice_one {byte : UInt8} (at_ : source[offset]? = some byte) : slice source offset (offset + 1) = [byte] := by
  rw [slice_cons (Nat.lt_succ_self _) at_, slice_self]

theorem slice_two {byte next : UInt8} (at_ : source[offset]? = some byte) (behind : source[offset + 1]? = some next) :
    slice source offset (offset + 2) = [byte, next] := by
  rw [slice_cons (by omega) at_, slice_one behind]

theorem LineEndsAt.breaksAt (ends : LineEndsAt source spaced last) : BreaksAt source spaced last := by
  cases ends with
  | text => exact .none
  | feed feeds => exact .feed feeds
  | return_ returns feeds => exact .return_ returns feeds

theorem LineEndsAt.le (ends : LineEndsAt source spaced last) : spaced ≤ last := by
  cases ends with
  | text => exact Nat.le_refl _
  | feed => exact Nat.le_add_right _ 1
  | return_ => exact Nat.le_add_right _ 2

theorem LineEndsAt.last_le (ends : LineEndsAt source spaced last) : last ≤ source.length := by
  cases ends with
  | text finished => exact Nat.le_of_eq finished
  | feed feeds => exact (List.getElem?_eq_some_iff.mp feeds).1
  | return_ _ feeds => exact (List.getElem?_eq_some_iff.mp feeds).1

theorem LineEndsAt.unique {other : Nat} (ends : LineEndsAt source spaced last) (also : LineEndsAt source spaced other) :
    last = other := by
  have bound {byte : UInt8} (at_ : source[spaced]? = some byte) : spaced < source.length :=
    (List.getElem?_eq_some_iff.mp at_).1
  cases ends with
  | text finished =>
    cases also with
    | text => rfl
    | feed feeds => exact absurd (bound feeds) (by omega)
    | return_ returns => exact absurd (bound returns) (by omega)
  | feed feeds =>
    cases also with
    | text finished => exact absurd (bound feeds) (by omega)
    | feed => rfl
    | return_ returns => cases feeds.symm.trans returns
  | return_ returns =>
    cases also with
    | text finished => exact absurd (bound returns) (by omega)
    | feed feeds => cases feeds.symm.trans returns
    | return_ => rfl

/-- What ends a line reaches up to the end of the text, or behind a line feed. -/
theorem LineEndsAt.whole (ends : LineEndsAt source spaced last) :
    last = source.length ∨ source[last - 1]? = some lineFeed := by
  cases ends with
  | text finished => exact .inl finished
  | feed feeds => exact .inr feeds
  | return_ _ feeds => exact .inr feeds

/-! ## What is taken -/

/-- A range with the layout around it: the spaces and tabs in front of it where they begin its line, the semicolon behind
it, and the spaces, the tabs and the line break behind that where the line ends there. -/
structure TakesLayout (source : Bytes) (start stop first last : Nat) : Prop where
  first_le : first ≤ start
  le_last : stop ≤ last
  last_le : last ≤ source.length
  begins : first = start ∨ BeginsLine source start first
  front : Indented source first start
  owns : ∀ line, BeginsLine source start line → Indented source line start → first = line
  back : ∃ closed spaced, ClosesAt source stop closed ∧ SpacesReach source closed spaced ∧
    (LineEndsAt source spaced last ∨ last = closed ∧ ∀ other, ¬ LineEndsAt source spaced other)

theorem all_of_indented (indented : Indented source start stop) : (slice source start stop).all isIndent = true := by
  refine List.all_eq_true.mpr fun byte mem => ?_
  obtain ⟨position, after, before, at_⟩ := exists_of_mem_slice mem
  obtain ⟨other, same, indent⟩ := indented position after before
  rw [at_] at same
  cases same
  exact indent

/-- What is taken in front of a range. -/
theorem lineRange_front (le : start ≤ source.length) (stop : Nat) :
    ((lineRange source start stop).1 = start ∨ BeginsLine source start (lineRange source start stop).1) ∧
      Indented source (lineRange source start stop).1 start ∧
      ∀ line, BeginsLine source start line → Indented source line start → (lineRange source start stop).1 = line := by
  have front : (lineRange source start stop).1 =
      if (slice source (lineStart source start) start).all isIndent then lineStart source start else start := rfl
  rw [front]
  split
  · next indent =>
    have own := beginsLine_lineStart le
    exact ⟨.inr own, indented_of_all le indent, fun line begins _ => own.unique begins⟩
  · next other =>
    refine ⟨.inl rfl, .refl source start, fun line begins indented => ?_⟩
    obtain rfl := begins.unique (beginsLine_lineStart le)
    exact absurd (all_of_indented indented) other

/-- What is taken behind a range. -/
theorem lineRange_back (source : Bytes) (start stop : Nat) :
    ∃ spaced, SpacesReach source (pastSemicolon source stop) spaced ∧
      (LineEndsAt source spaced (lineRange source start stop).2 ∨
        (lineRange source start stop).2 = pastSemicolon source stop ∧ ∀ other, ¬ LineEndsAt source spaced other) := by
  have back : (lineRange source start stop).2 =
      let probe := skipSpaces source (pastSemicolon source stop)
      if slice source probe (probe + 2) = [13, 10] then probe + 2
      else if slice source probe (probe + 1) = [lineFeed] then probe + 1
      else if probe = source.length then probe
      else pastSemicolon source stop := rfl
  refine ⟨_, spacesReach_skipSpaces source _, ?_⟩
  rw [back]
  dsimp only
  split
  · next broken =>
    exact .inl (.return_ (getElem?_of_slice_eq broken (i := 0) rfl) (getElem?_of_slice_eq broken (i := 1) rfl))
  · next noReturn =>
    split
    · next broken => exact .inl (.feed (getElem?_of_slice_eq broken (i := 0) rfl))
    · next noFeed =>
      split
      · next finished => exact .inl (.text finished)
      · next unfinished =>
        refine .inr ⟨rfl, fun other ends => ?_⟩
        cases ends with
        | text finished => exact unfinished finished
        | feed feeds => exact noFeed (slice_one feeds)
        | return_ returns feeds => exact noReturn (slice_two returns feeds)

theorem takesLayout_lineRange (ordered : start ≤ stop) (le : stop ≤ source.length) :
    TakesLayout source start stop (lineRange source start stop).1 (lineRange source start stop).2 := by
  obtain ⟨begins, front, owns⟩ := lineRange_front (Nat.le_trans ordered le) stop
  obtain ⟨spaced, reach, back⟩ := lineRange_back source start stop
  have closes := closesAt_pastSemicolon source stop
  have past := closes.le_length le
  constructor
  case first_le =>
    rcases begins with same | begins
    · exact Nat.le_of_eq same
    · exact begins.le
  case le_last =>
    rcases back with ends | ⟨same, -⟩
    · exact Nat.le_trans closes.le (Nat.le_trans reach.le ends.le)
    · rw [same]
      exact closes.le
  case last_le =>
    rcases back with ends | ⟨same, -⟩
    · exact ends.last_le
    · rwa [same]
  case begins => exact begins
  case front => exact front
  case owns => exact owns
  case back => exact ⟨_, spaced, closes, reach, back⟩

/-- What is taken is settled by the bytes around the range. -/
theorem TakesLayout.unique {otherFirst otherLast : Nat} (takes : TakesLayout source start stop first last)
    (also : TakesLayout source start stop otherFirst otherLast) : first = otherFirst ∧ last = otherLast := by
  constructor
  · rcases takes.begins with same | begins
    · rcases also.begins with other | begins
      · rw [same, other]
      · exact takes.owns otherFirst begins also.front
    · exact (also.owns first begins takes.front).symm
  · obtain ⟨closed, spaced, closes, reach, ends⟩ := takes.back
    obtain ⟨otherClosed, otherSpaced, otherCloses, otherReach, otherEnds⟩ := also.back
    obtain rfl := closes.unique otherCloses
    obtain rfl := reach.unique otherReach
    rcases ends with ends | ⟨rfl, open_⟩
    · rcases otherEnds with otherEnds | ⟨-, open_⟩
      · exact ends.unique otherEnds
      · exact absurd ends (open_ last)
    · rcases otherEnds with otherEnds | ⟨rfl, -⟩
      · exact absurd otherEnds (open_ otherLast)
      · rfl

/-- Behind the semicolon, and in front of the range, white space is taken. -/
theorem widened_lineRange (ordered : start ≤ stop) (le : stop ≤ source.length) :
    Widened source start (pastSemicolon source stop) (lineRange source start stop).1 (lineRange source start stop).2 := by
  have takes := takesLayout_lineRange ordered le
  obtain ⟨spaced, reach, ends | ⟨same, -⟩⟩ := lineRange_back source start stop
  · exact ⟨takes.first_le, Nat.le_trans reach.le ends.le, takes.last_le, takes.front.blank,
      reach.indented.blank.append ends.breaksAt.blank⟩
  · rw [same]
    exact ⟨takes.first_le, Nat.le_refl _, same ▸ takes.last_le, takes.front.blank, .refl source _⟩

theorem ownLines_lineRange (ordered : start ≤ stop) (le : stop ≤ source.length) :
    OwnLines source start stop (lineRange source start stop).1 (lineRange source start stop).2 := by
  have takes := takesLayout_lineRange ordered le
  refine ⟨takes.first_le, takes.front, takes.begins.imp_right BeginsLine.begins, ?_⟩
  obtain ⟨closed, spaced, closes, reach, ends | ⟨same, -⟩⟩ := takes.back
  · exact ⟨closed, spaced, closes.eq_or, reach.le, reach.indented, ends.breaksAt⟩
  · rw [same]
    exact ⟨closed, closed, closes.eq_or, Nat.le_refl closed, .refl source closed, .none⟩

theorem TakesLayout.first_parts (takes : TakesLayout source start stop first last) (parts : PartsBreak source first) :
    PartsBreak source start := by
  obtain ⟨positive, returns, feeds⟩ := parts
  rcases takes.begins with same | begins
  · rw [← same]
    exact ⟨positive, returns, feeds⟩
  · rcases begins.begins with zero | feeds
    · omega
    · cases returns.symm.trans feeds

theorem TakesLayout.last_parts (takes : TakesLayout source start stop first last) (parts : PartsBreak source last) :
    PartsBreak source stop := by
  have ⟨_, returns, feeds⟩ := parts
  have inside : last < source.length := (List.getElem?_eq_some_iff.mp feeds).1
  obtain ⟨closed, spaced, closes, -, ends | ⟨rfl, -⟩⟩ := takes.back
  · rcases ends.whole with finished | fed
    · omega
    · cases returns.symm.trans fed
  · cases closes with
    | plain => exact parts
    | semicolon at_ => cases returns.symm.trans at_

/-- A range is widened by the layout that it owns and by nothing else. The widened range parts a line break only where the
range itself does. Where a range follows another that ends in something else than white space, and begins with something
else than white space or a semicolon, the two are apart and in order when they are widened. -/
theorem ranges_take_layout_only (source : Bytes) :
    (∀ start stop, start ≤ stop → stop ≤ source.length →
      ∃ first last, lineRange source start stop = (first, last) ∧ TakesLayout source start stop first last ∧
        (∀ otherFirst otherLast, TakesLayout source start stop otherFirst otherLast → first = otherFirst ∧ last = otherLast) ∧
        (PartsBreak source first → PartsBreak source start) ∧ (PartsBreak source last → PartsBreak source stop)) ∧
    ∀ start stop next nextStop, start < stop → stop ≤ next → next ≤ nextStop → nextStop ≤ source.length →
      Dark source (stop - 1) → Dark source next → source[next]? ≠ some 59 →
      (lineRange source start stop).2 ≤ (lineRange source next nextStop).1 := by
  constructor
  · intro start stop ordered le
    have takes := takesLayout_lineRange ordered le
    exact ⟨_, _, rfl, takes, fun _ _ => takes.unique, takes.first_parts, takes.last_parts⟩
  · intro start stop next nextStop nonempty follows ordered le ends begins other
    have front := ownLines_lineRange (Nat.le_of_lt nonempty) (show stop ≤ source.length by omega)
    have back := ownLines_lineRange ordered le
    exact front.apart back nonempty (.inl ends) begins other follows

/-- A call on a line of its own, and a name on the next one. -/
def calledSource : Bytes := encode "a\n  b(); \r\n  c\n"

theorem call_takes_its_line :
    (4 ≤ 7 ∧ 7 ≤ calledSource.length) ∧ TakesLayout calledSource 4 7 2 11 ∧ ¬ PartsBreak calledSource 11 ∧
      (Dark calledSource 6 ∧ Dark calledSource 13 ∧ calledSource[13]? ≠ some 59) ∧
      (lineRange calledSource 4 7).2 ≤ (lineRange calledSource 13 14).1 := by
  have inside : 4 ≤ 7 ∧ 7 ≤ calledSource.length := by decide
  have ends : Dark calledSource 6 := ⟨41, by decide, by decide⟩
  have begins : Dark calledSource 13 := ⟨99, by decide, by decide⟩
  have other : calledSource[13]? ≠ some 59 := by decide
  obtain ⟨own, apart⟩ := ranges_take_layout_only calledSource
  obtain ⟨first, last, same, takes, -, -, whole⟩ := own 4 7 inside.1 inside.2
  have widened : lineRange calledSource 4 7 = (2, 11) := by decide
  obtain ⟨rfl, rfl⟩ := Prod.mk.inj (widened.symm.trans same)
  refine ⟨inside, takes, fun parts => ?_, ⟨ends, begins, other⟩,
    apart 4 7 13 14 (by decide) (by decide) (by decide) (by decide) ends begins other⟩
  obtain ⟨-, opened, -⟩ := whole parts
  exact absurd opened (by decide)

end Scaffold.Text
