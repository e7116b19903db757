import Scaffold.Proofs.Text.Splice
import Scaffold.Proofs.Text.Widening

/-! # Lines that are taken with a range

A range that is removed with the lines that it owns takes spaces and tabs around it, one semicolon and one line break.
Ranges that follow each other do not take from each other, so none of their removals is dropped.
-/

namespace Scaffold.Text

variable {source : Bytes} {start stop : Nat}

/-- All bytes from `start` up to `stop` are there and are spaces and tabs. -/
def Indented (source : Bytes) (start stop : Nat) : Prop :=
  ∀ position, start ≤ position → position < stop → ∃ byte, source[position]? = some byte ∧ isIndent byte = true

/-- Nothing, or one line break. -/
inductive BreaksAt (source : Bytes) (start : Nat) : Nat → Prop
  | none : BreaksAt source start start
  | feed (feeds : source[start]? = some lineFeed) : BreaksAt source start (start + 1)
  | return_ (returns : source[start]? = some 13) (feeds : source[start + 1]? = some lineFeed) :
      BreaksAt source start (start + 2)

/-- What a range takes with it: the spaces and tabs that begin its line, a semicolon directly behind it, and the spaces
and tabs behind that with one line break. -/
structure OwnLines (source : Bytes) (start stop newStart newStop : Nat) : Prop where
  start_le : newStart ≤ start
  front : Indented source newStart start
  begins : newStart = start ∨ newStart = 0 ∨ source[newStart - 1]? = some lineFeed
  back : ∃ closed spaced, (closed = stop ∨ closed = stop + 1 ∧ source[stop]? = some 59) ∧ closed ≤ spaced ∧
    Indented source closed spaced ∧ BreaksAt source spaced newStop

theorem Indented.blank (indented : Indented source start stop) : Blank source start stop := by
  intro position after before
  obtain ⟨byte, at_, indent⟩ := indented position after before
  exact ⟨byte, at_, isBlankByte_of_isIndent indent⟩

theorem Indented.refl (source : Bytes) (offset : Nat) : Indented source offset offset := by
  intro position after before
  omega

theorem indented_of_all (le : stop ≤ source.length) (indent : (slice source start stop).all isIndent = true) :
    Indented source start stop := by
  intro position after before
  have at_ : (slice source start stop)[position - start]? = source[position]? := by
    rw [getElem?_slice, if_pos (by omega), show start + (position - start) = position by omega]
  have bound : position < source.length := by omega
  rw [List.getElem?_eq_getElem bound] at at_ ⊢
  exact ⟨_, rfl, List.all_eq_true.mp indent _ (List.mem_of_getElem? at_)⟩

theorem BreaksAt.blank {newStop : Nat} (breaks : BreaksAt source start newStop) : Blank source start newStop := by
  intro position after before
  cases breaks with
  | none => omega
  | feed feeds =>
    obtain rfl : position = start := by omega
    exact ⟨lineFeed, feeds, by decide⟩
  | return_ returns feeds =>
    rcases Nat.eq_or_lt_of_le after with rfl | later
    · exact ⟨13, returns, by decide⟩
    · obtain rfl : position = start + 1 := by omega
      exact ⟨lineFeed, feeds, by decide⟩

/-- A line break ends behind its line feed. -/
theorem BreaksAt.eq_of_feed {newStop position : Nat} (breaks : BreaksAt source start newStop) (after : start ≤ position)
    (before : position < newStop) (feeds : source[position]? = some lineFeed) : newStop = position + 1 := by
  cases breaks with
  | none => omega
  | feed => omega
  | return_ returns =>
    rcases Nat.eq_or_lt_of_le after with rfl | later
    · rw [returns] at feeds
      cases feeds
    · omega

theorem not_feed_of_isIndent {position : Nat} (indented : Indented source start stop) (after : start ≤ position)
    (before : position < stop) : source[position]? ≠ some lineFeed := by
  obtain ⟨byte, at_, indent⟩ := indented position after before
  rw [at_]
  rintro ⟨⟩
  cases indent

/-- A range ends in no white space, or it ends in front of something that is neither a space nor a tab, with which the
next one does not begin. -/
def EndsApart (source : Bytes) (stop next : Nat) : Prop :=
  Dark source (stop - 1) ∨ stop < next ∧ ∀ byte, source[stop]? = some byte → isIndent byte = false

/-- Where the next range begins neither with white space nor with a semicolon, two ranges do not take from each other. -/
theorem OwnLines.apart {newStart newStop first last newFirst newLast : Nat}
    (front : OwnLines source start stop newStart newStop) (back : OwnLines source first last newFirst newLast)
    (nonempty : start < stop) (ends : EndsApart source stop first) (begins : Dark source first)
    (other : source[first]? ≠ some 59) (le : stop ≤ first) : newStop ≤ newFirst := by
  obtain ⟨closed, spaced, semicolon, reach, spaces, breaks⟩ := front.back
  have past : closed ≤ first := by
    rcases semicolon with rfl | ⟨rfl, at_⟩
    · exact le
    · rcases Nat.eq_or_lt_of_le le with rfl | lt
      · exact absurd at_ other
      · exact lt
  have reached : newStop ≤ first := by
    have := begins.not_blank spaces.blank
    have := begins.not_blank breaks.blank
    omega
  have outside : newFirst = first ∨ stop ≤ newFirst ∧ source[stop - 1]? ≠ some lineFeed ∨ stop < newFirst := by
    rcases ends with ⟨byte, at_, plain⟩ | ⟨before, open_⟩
    · have := Dark.not_blank ⟨byte, at_, plain⟩ back.front.blank
      have other : source[stop - 1]? ≠ some lineFeed := by
        rw [at_]
        rintro ⟨⟩
        cases plain
      exact .inr (.inl ⟨by omega, other⟩)
    · rcases Nat.lt_or_ge stop newFirst with lt | ge
      · exact .inr (.inr lt)
      · obtain ⟨byte, at_, indent⟩ := back.front stop ge before
        rw [open_ byte at_] at indent
        cases indent
  rcases back.begins with same | zero | feeds
  · omega
  · omega
  · rcases Nat.lt_or_ge newFirst newStop with inside | ge
    · have different : newFirst = first ∨ stop < newFirst := by
        rcases outside with same | ⟨ge, other⟩ | lt
        · exact .inl same
        · rcases Nat.eq_or_lt_of_le ge with rfl | lt
          · exact absurd feeds other
          · exact .inr lt
        · exact .inr lt
      -- the line break in front of the second range would stand in what the first one takes
      have at_ : spaced ≤ newFirst - 1 := by
        apply Nat.le_of_not_lt
        intro lt
        rcases semicolon with rfl | ⟨rfl, semicolonAt⟩
        · exact not_feed_of_isIndent spaces (by omega) lt feeds
        · rcases Nat.eq_or_lt_of_le (show stop ≤ newFirst - 1 by omega) with same | after
          · rw [← same, semicolonAt] at feeds
            cases feeds
          · exact not_feed_of_isIndent spaces (by omega) lt feeds
      have := breaks.eq_of_feed at_ (by omega) feeds
      omega
    · exact ge

/-! ## Edits that follow each other -/

end Scaffold.Text
