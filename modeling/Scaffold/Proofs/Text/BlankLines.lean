import Mathlib.Data.List.Chain
import Scaffold.Proofs.Text.Splice
import Scaffold.Proofs.Text.Widening

/-! # Blank lines in an edited text

Edits that take whole lines, and edits that leave something on each line that they change, make no blank line of their
own. So two blank lines meet only where all the lines between them are taken. The text is followed from left to right, with
what is known of the line that is being written.
-/

namespace Scaffold.Text

variable {source bytes line : Bytes} {edits : List Edit} {cursor first stop : Nat}

/-! ## Lines -/

/-- The lines of a text, without their line feeds. -/
def textLines : Bytes → List Bytes
  | [] => []
  | byte :: rest =>
    if byte = lineFeed then [] :: textLines rest
    else match textLines rest with
      | [] => [[byte]]
      | line :: later => (byte :: line) :: later

def isBlankLine (line : Bytes) : Bool := line.all isBlankByte

/-- Whether no two lines of a text that follow each other are blank. -/
def BlankLinesApart (bytes : Bytes) : Prop :=
  (textLines bytes).IsChain fun line next => ¬ (isBlankLine line = true ∧ isBlankLine next = true)

/-- Whether the first line of a text is blank. -/
def beginsBlank (bytes : Bytes) : Bool := (textLines bytes).head?.any isBlankLine

instance (bytes : Bytes) : Decidable (BlankLinesApart bytes) := by
  unfold BlankLinesApart
  infer_instance

theorem textLines_of_noFeed (noFeed : lineFeed ∉ line) (some_ : line ≠ []) : textLines line = [line] := by
  induction line with
  | nil => exact absurd rfl some_
  | cons byte rest eq =>
    have other : byte ≠ lineFeed := fun same => noFeed (by simp [same])
    rw [textLines, if_neg other]
    cases rest with
    | nil => rfl
    | cons next later =>
      rw [eq (fun mem => noFeed (List.mem_cons_of_mem _ mem)) (List.cons_ne_nil _ _)]

theorem textLines_feed (noFeed : lineFeed ∉ line) (rest : Bytes) :
    textLines (line ++ lineFeed :: rest) = line :: textLines rest := by
  induction line with
  | nil => rfl
  | cons byte line eq =>
    have other : byte ≠ lineFeed := fun same => noFeed (by simp [same])
    rw [List.cons_append, textLines, if_neg other, eq fun mem => noFeed (List.mem_cons_of_mem _ mem)]

/-- No two lines that follow each other are blank, and the first one is not, if the line before it is. -/
def Calm (after : Bool) (lines : List Bytes) : Prop :=
  (after = true → ∀ line ∈ lines.head?, isBlankLine line = false) ∧
    lines.IsChain fun line next => ¬ (isBlankLine line = true ∧ isBlankLine next = true)

theorem calm_nil (after : Bool) : Calm after [] := ⟨fun _ => nofun, .nil⟩

theorem calm_cons_iff {after : Bool} {lines : List Bytes} :
    Calm after (line :: lines) ↔ (after = true → isBlankLine line = false) ∧ Calm (isBlankLine line) lines := by
  unfold Calm
  cases lines with
  | nil => simp
  | cons next later => simp [List.isChain_cons_cons]

/-- A blank line of a text with its line feed, from one offset up to another. -/
structure BlankLine (source : Bytes) (first stop : Nat) : Prop where
  begins : first = 0 ∨ source[first - 1]? = some lineFeed
  lt : first < stop
  blank : Blank source first stop
  single : ∀ position, first ≤ position → position + 1 < stop → source[position]? ≠ some lineFeed
  ends : source[stop - 1]? = some lineFeed ∨ stop = source.length

/-- No line feed stands from one offset up to another. -/
def NoFeed (source : Bytes) (start stop : Nat) : Prop :=
  ∀ position, start ≤ position → position < stop → source[position]? ≠ some lineFeed

/-- A byte that is not white space, and that no edit covers. -/
structure StaysInk (source : Bytes) (edits : List Edit) (position : Nat) : Prop where
  ink : ∃ byte, source[position]? = some byte ∧ isBlankByte byte = false
  stays : ¬ Covered edits position

/-- From an offset up to a blank line, or up to the start of the text, all lines are taken. -/
inductive Exposed (source : Bytes) (edits : List Edit) : Nat → Prop
  | start : Exposed source edits 0
  | blank {first stop : Nat} (line : BlankLine source first stop) : Exposed source edits stop
  | taken {edit : Edit} (mem : edit ∈ edits) (above : Exposed source edits edit.start) : Exposed source edits edit.stop

/-- An edit that takes whole lines. Where all lines above them are taken up to a blank one, no blank line is left behind
them. -/
structure TakesLines (source : Bytes) (edits : List Edit) (edit : Edit) : Prop where
  replacement : edit.replacement = []
  begins : edit.start = 0 ∨ source[edit.start - 1]? = some lineFeed
  ends : edit.stop = source.length ∨ source[edit.stop - 1]? = some lineFeed
  behind : Exposed source edits edit.start → ∀ stop, ¬ BlankLine source edit.stop stop

/-- Whether all lines of a text, the last one with them, have a byte that is not white space. The first one may have it in
front of the text. -/
def inksLines (ink : Bool) : Bytes → Bool
  | [] => ink
  | byte :: rest => if byte = lineFeed then ink && inksLines false rest else inksLines (ink || !isBlankByte byte) rest

/-- An edit that leaves something on each of the lines that it changes: beside it on a single line, or on each line that
it writes. -/
inductive LeavesInk (source : Bytes) (edits : List Edit) (edit : Edit) : Prop
  | before (single : lineFeed ∉ edit.replacement) {position : Nat} (lt : position < edit.start)
      (line : NoFeed source position edit.start) (ink : StaysInk source edits position)
  | behind (single : lineFeed ∉ edit.replacement) {position : Nat} (le : edit.stop ≤ position)
      (line : NoFeed source edit.stop position) (ink : StaysInk source edits position)
  | written (ink : inksLines false edit.replacement = true)
  | further (positive : 0 < edit.start) (ink : StaysInk source edits (edit.start - 1))
      (others : inksLines true edit.replacement = true)

/-! ## The line that is written -/

/-- What is known at a cursor of the bytes that are already written of a line, and of the line in front of it. -/
inductive Written (source : Bytes) (edits : List Edit) (cursor : Nat) (line : Bytes) (after : Bool) : Prop
  /-- The line is that of the source up to the cursor. -/
  | own {first : Nat} (begins : first = 0 ∨ source[first - 1]? = some lineFeed ∨ first = source.length)
      (le : first ≤ cursor) (eq : line = slice source first cursor) (noFeed : NoFeed source first cursor)
      (clear : ∀ position < first, NoFeed source position cursor → Covered edits position)
      (above : after = true → Exposed source edits first ∧ ∀ stop, ¬ BlankLine source first stop)
  | inked (noFeed : lineFeed ∉ line) (ink : isBlankLine line = false)
  /-- Something that stays is still to come. -/
  | due (noFeed : lineFeed ∉ line) {position : Nat} (le : cursor ≤ position) (ahead : NoFeed source cursor position)
      (ink : StaysInk source edits position) (fresh : 0 < cursor → ¬ StaysInk source edits (cursor - 1))

theorem slice_self (source : Bytes) (offset : Nat) : slice source offset offset = [] := by
  rw [slice, Nat.sub_self, List.take_zero]

theorem slice_succ {byte : UInt8} (le : first ≤ cursor) (at_ : source[cursor]? = some byte) :
    slice source first (cursor + 1) = slice source first cursor ++ [byte] := by
  have bound := (List.getElem?_eq_some_iff.mp at_).1
  rw [slice, slice, show cursor + 1 - first = cursor - first + 1 by omega, List.take_add_one, List.getElem?_drop,
    Nat.add_sub_cancel' le, at_]
  rfl

theorem slice_cons {byte : UInt8} (lt : cursor < stop) (at_ : source[cursor]? = some byte) :
    slice source cursor stop = byte :: slice source (cursor + 1) stop := by
  obtain ⟨bound, rfl⟩ := List.getElem?_eq_some_iff.mp at_
  rw [slice, slice, List.drop_eq_getElem_cons bound, show stop - cursor = stop - (cursor + 1) + 1 by omega,
    List.take_succ_cons]

theorem exists_of_mem_slice {byte : UInt8} (mem : byte ∈ slice source first stop) :
    ∃ position, first ≤ position ∧ position < stop ∧ source[position]? = some byte := by
  obtain ⟨i, at_⟩ := List.getElem?_of_mem mem
  rw [getElem?_slice] at at_
  split at at_
  · exact ⟨first + i, by omega, by omega, at_⟩
  · cases at_

theorem mem_slice {byte : UInt8} {position : Nat} (after : first ≤ position) (before : position < stop)
    (at_ : source[position]? = some byte) : byte ∈ slice source first stop := by
  apply List.mem_of_getElem? (i := position - first)
  rw [getElem?_slice, if_pos (by omega), Nat.add_sub_cancel' after, at_]

theorem noFeed_slice (noFeed : NoFeed source first stop) : lineFeed ∉ slice source first stop := by
  intro mem
  obtain ⟨position, after, before, at_⟩ := exists_of_mem_slice mem
  exact noFeed position after before at_

theorem isBlankLine_eq_false_iff : isBlankLine line = false ↔ ∃ byte ∈ line, isBlankByte byte = false := by
  simp [isBlankLine]

theorem blank_of_isBlankLine (le : stop ≤ source.length) (blank : isBlankLine (slice source first stop) = true) :
    Blank source first stop := blank_of_isBlankRange le blank

namespace Written

variable {after : Bool}

theorem noFeed (written : Written source edits cursor line after) : lineFeed ∉ line := by
  cases written with
  | own _ _ eq noFeed =>
    rw [eq]
    exact noFeed_slice noFeed
  | inked noFeed => exact noFeed
  | due noFeed => exact noFeed

/-- A line of the source that is written to its line feed. -/
theorem blankLine_of_own (begins : first = 0 ∨ source[first - 1]? = some lineFeed ∨ first = source.length) (le : first ≤ cursor)
    (noFeed : NoFeed source first cursor) (at_ : source[cursor]? = some lineFeed)
    (blank : isBlankLine (slice source first cursor) = true) : BlankLine source first (cursor + 1) := by
  have bound := (List.getElem?_eq_some_iff.mp at_).1
  refine ⟨?_, by omega, ?_, fun position after before => noFeed position after (by omega), .inl at_⟩
  · rcases begins with begins | begins | begins
    · exact .inl begins
    · exact .inr begins
    · omega
  · refine (blank_of_isBlankLine (Nat.le_of_lt bound) blank).append fun position after before => ?_
    obtain rfl : position = cursor := by omega
    exact ⟨_, at_, isBlankByte_lineFeed⟩

/-- After a byte that stays, the rest of the text is calm where it is calm from there on. -/
theorem keep (written : Written source edits cursor line after)
    (apart : ∀ first middle stop, BlankLine source first middle → ¬ BlankLine source middle stop) {byte : UInt8}
    (at_ : source[cursor]? = some byte) {rest : Bytes}
    (next : ∀ line after, Written source edits (cursor + 1) line after → Calm after (textLines (line ++ rest))) :
    Calm after (textLines (line ++ byte :: rest)) := by
  by_cases feed : byte = lineFeed
  · subst feed
    rw [textLines_feed written.noFeed, calm_cons_iff]
    have fresh (above : isBlankLine line = true →
        Exposed source edits (cursor + 1) ∧ ∀ stop, ¬ BlankLine source (cursor + 1) stop) :
        Calm (isBlankLine line) (textLines rest) := by
      refine next [] _ (@Written.own _ _ _ _ _ (cursor + 1) (.inr (.inl at_)) (Nat.le_refl _) (slice_self source _).symm
        ?_ ?_ above)
      · intro position after before
        omega
      · intro position lt free
        exact absurd at_ (free cursor (by omega) (by omega))
    cases written with
    | own begins le eq noFeed clear above =>
      have whole (blank : isBlankLine line = true) := blankLine_of_own begins le noFeed at_ (eq ▸ blank)
      refine ⟨fun blankAbove => ?_, fresh fun blank => ⟨.blank (whole blank), fun stop => apart _ _ stop (whole blank)⟩⟩
      exact Bool.eq_false_iff.mpr fun blank => (above blankAbove).2 _ (whole blank)
    | inked noFeed ink => exact ⟨fun _ => ink, fresh fun blank => absurd (ink.symm.trans blank) nofun⟩
    | due noFeed le ahead ink =>
      rcases Nat.eq_or_lt_of_le le with rfl | lt
      · obtain ⟨other, same, dark⟩ := ink.ink
        rw [at_] at same
        cases same
        cases dark
      · exact absurd at_ (ahead cursor (Nat.le_refl _) lt)
  · rw [List.append_cons]
    have noFeed : lineFeed ∉ line ++ [byte] := by simpa [written.noFeed] using fun same => feed same.symm
    have plain : source[cursor]? ≠ some lineFeed := by
      rw [at_]
      exact fun same => feed (Option.some.inj same)
    have inks (dark : isBlankByte byte = false) : Calm after (textLines (line ++ [byte] ++ rest)) :=
      next _ _ (.inked noFeed (isBlankLine_eq_false_iff.mpr ⟨byte, by simp, dark⟩))
    cases written with
    | own begins le eq free clear above =>
      refine next _ _ (.own begins (Nat.le_succ_of_le le) (by rw [eq, slice_succ le at_]) (fun position from_ before => ?_)
        (fun position lt free => clear position lt fun other from_ before => free other from_ (by omega)) above)
      rcases Nat.lt_or_ge position cursor with lt | ge
      · exact free position from_ lt
      · rwa [show position = cursor by omega]
    | inked _ ink =>
      obtain ⟨other, mem, dark⟩ := isBlankLine_eq_false_iff.mp ink
      exact next _ _ (.inked noFeed (isBlankLine_eq_false_iff.mpr ⟨other, List.mem_append_left _ mem, dark⟩))
    | due _ le ahead ink =>
      by_cases dark : isBlankByte byte = false
      · exact inks dark
      · have light : ¬ StaysInk source edits cursor := by
          rintro ⟨⟨other, same, dark'⟩, -⟩
          rw [at_] at same
          cases same
          exact dark dark'
        rcases Nat.eq_or_lt_of_le le with rfl | lt
        · exact absurd ink light
        · exact next _ _ (.due noFeed lt (fun other from_ before => ahead other (by omega) before) ink fun _ => light)

/-- The same for all bytes up to an offset. -/
theorem keepAll (written : Written source edits cursor line after)
    (apart : ∀ first middle stop, BlankLine source first middle → ¬ BlankLine source middle stop) (le : cursor ≤ stop)
    (inside : stop ≤ source.length) {rest : Bytes}
    (next : ∀ line after, Written source edits stop line after → Calm after (textLines (line ++ rest))) :
    Calm after (textLines (line ++ (slice source cursor stop ++ rest))) := by
  obtain ⟨count, rfl⟩ := Nat.exists_eq_add_of_le le
  induction count generalizing cursor line after with
  | zero =>
    rw [Nat.add_zero, slice_self, List.nil_append]
    exact next line after written
  | succ count calm =>
    have at_ := List.getElem?_eq_getElem (show cursor < source.length by omega)
    have shift : cursor + (count + 1) = cursor + 1 + count := by omega
    rw [slice_cons (show cursor < cursor + (count + 1) by omega) at_, List.cons_append]
    rw [shift] at next inside ⊢
    exact written.keep apart at_ fun line after written => calm written (Nat.le_add_right _ _) inside next

theorem finish (written : Written source edits source.length line after) : Calm after (textLines line) := by
  by_cases some_ : line = []
  · rw [some_]
    exact calm_nil after
  · rw [textLines_of_noFeed written.noFeed some_, calm_cons_iff]
    refine ⟨fun blankAbove => ?_, calm_nil _⟩
    cases written with
    | @own first begins le eq noFeed clear above =>
      subst eq
      have lt : first < source.length := by
        rcases Nat.eq_or_lt_of_le le with rfl | lt
        · exact absurd (slice_self source _) some_
        · exact lt
      refine Bool.eq_false_iff.mpr fun blank => (above blankAbove).2 source.length
        ⟨?_, lt, blank_of_isBlankLine (Nat.le_refl _) blank, fun position from_ before => noFeed position from_ (by omega), .inr rfl⟩
      rcases begins with begins | begins | begins
      · exact .inl begins
      · exact .inr begins
      · omega
    | inked _ ink => exact ink
    | due _ le _ ink =>
      obtain ⟨byte, at_, -⟩ := ink.ink
      have := (List.getElem?_eq_some_iff.mp at_).1
      omega

/-- Where something of the line stays, the line is not blank. -/
theorem inked_of_own (eq : line = slice source first cursor)
    (clear : ∀ position < first, NoFeed source position cursor → Covered edits position) {position : Nat} (lt : position < cursor)
    (near : NoFeed source position cursor) (ink : StaysInk source edits position) : isBlankLine line = false := by
  rcases Nat.lt_or_ge position first with outside | after
  · exact absurd (clear position outside near) ink.stays
  · obtain ⟨byte, at_, dark⟩ := ink.ink
    rw [eq]
    exact isBlankLine_eq_false_iff.mpr ⟨byte, mem_slice after lt at_, dark⟩

/-- Where something stays directly in front of the cursor, the line is not blank. -/
theorem inked_of_stays (written : Written source edits cursor line after) (positive : 0 < cursor)
    (ink : StaysInk source edits (cursor - 1)) : isBlankLine line = false := by
  cases written with
  | own _ _ eq _ clear =>
    refine inked_of_own eq clear (by omega) (fun position from_ before feed => ?_) ink
    obtain ⟨byte, at_, dark⟩ := ink.ink
    rw [show position = cursor - 1 by omega, at_] at feed
    cases feed
    cases dark
  | inked _ ink => exact ink
  | due _ _ _ _ fresh => exact absurd ink (fresh positive)

variable {edit : Edit}

/-- What is known of a line stays so where whole lines are taken. -/
theorem take (written : Written source edits edit.start line after) (mem : edit ∈ edits)
    (takes : TakesLines source edits edit) (ordered : edit.start ≤ edit.stop) :
    Written source edits edit.stop line after := by
  rcases Nat.eq_or_lt_of_le ordered with same | lt
  · rwa [← same]
  have front {position : Nat} (lt : position < edit.start) (free : NoFeed source position edit.stop) : False := by
    rcases takes.begins with begins | begins
    · omega
    · exact free (edit.start - 1) (by omega) (by omega) begins
  cases written with
  | @own first begins le eq noFeed clear above =>
    obtain rfl : first = edit.start := by
      rcases takes.begins with start | feed
      · omega
      · rcases Nat.eq_or_lt_of_le le with same | lt
        · exact same
        · exact absurd feed (noFeed _ (by omega) (by omega))
    refine @Written.own _ _ _ _ _ edit.stop ?_ (Nat.le_refl _) (by rw [eq, slice_self, slice_self])
      (fun position from_ before => by omega) (fun position before free => ?_)
      fun blankAbove => ⟨.taken mem (above blankAbove).1, takes.behind (above blankAbove).1⟩
    · rcases takes.ends with ends | ends
      · exact .inr (.inr ends)
      · exact .inr (.inl ends)
    · rcases Nat.lt_or_ge position edit.start with outside | from_
      · exact (front outside free).elim
      · exact ⟨edit, mem, from_, before⟩
  | inked noFeed ink => exact .inked noFeed ink
  | @due noFeed position le ahead ink fresh =>
    rcases Nat.lt_or_ge position edit.stop with inside | past
    · exact absurd ⟨edit, mem, le, inside⟩ ink.stays
    · rcases takes.ends with ends | ends
      · obtain ⟨byte, at_, -⟩ := ink.ink
        have := (List.getElem?_eq_some_iff.mp at_).1
        omega
      · exact absurd ends (ahead _ (by omega) (by omega))

/-- Behind an edit, what is due is still due. -/
theorem due_behind {position : Nat} (mem : edit ∈ edits) (ordered : edit.start ≤ edit.stop) (noFeed : lineFeed ∉ line)
    (le : edit.start ≤ position) (ahead : NoFeed source edit.start position) (ink : StaysInk source edits position)
    (fresh : 0 < edit.start → ¬ StaysInk source edits (edit.start - 1)) : Written source edits edit.stop line after := by
  have past : edit.stop ≤ position := Nat.not_lt.mp fun inside => ink.stays ⟨edit, mem, le, inside⟩
  refine .due noFeed past (fun other from_ before => ahead other (by omega) before) ink fun positive => ?_
  rcases Nat.eq_or_lt_of_le ordered with same | lt
  · rw [← same]
    exact fresh (by omega)
  · exact fun stays => stays.stays ⟨edit, mem, by omega, by omega⟩

theorem calm_of_inksLines {ink : Bool} {bytes rest : Bytes} (inks : inksLines ink bytes = true) (noFeed : lineFeed ∉ line)
    (own : ink = true → isBlankLine line = false)
    (next : ∀ line after, lineFeed ∉ line → isBlankLine line = false → Calm after (textLines (line ++ rest))) :
    Calm after (textLines (line ++ (bytes ++ rest))) := by
  induction bytes generalizing line after ink with
  | nil => exact next line after noFeed (own inks)
  | cons byte bytes calm =>
    rw [inksLines] at inks
    split at inks
    · next feed =>
      obtain ⟨here, later⟩ := (Bool.and_eq_true _ _).mp inks
      rw [feed, List.cons_append, textLines_feed noFeed, calm_cons_iff]
      exact ⟨fun _ => own here, calm later (List.not_mem_nil : lineFeed ∉ []) nofun⟩
    · next plain =>
      rw [List.cons_append, List.append_cons]
      refine calm inks (by simpa [noFeed] using fun same => plain same.symm) fun either => ?_
      rcases (Bool.or_eq_true _ _).mp either with here | dark
      · obtain ⟨other, mem, dark⟩ := isBlankLine_eq_false_iff.mp (own here)
        exact isBlankLine_eq_false_iff.mpr ⟨other, List.mem_append_left _ mem, dark⟩
      · exact isBlankLine_eq_false_iff.mpr ⟨byte, by simp, by simpa using dark⟩

/-- After an edit that leaves something on its lines, the rest of the text is calm where it is calm from there on. -/
theorem change (written : Written source edits edit.start line after) (mem : edit ∈ edits)
    (leaves : LeavesInk source edits edit) (ordered : edit.start ≤ edit.stop) {rest : Bytes}
    (next : ∀ line after, Written source edits edit.stop line after → Calm after (textLines (line ++ rest))) :
    Calm after (textLines (line ++ (edit.replacement ++ rest))) := by
  have single (free : lineFeed ∉ edit.replacement) : lineFeed ∉ line ++ edit.replacement := by
    simp [written.noFeed, free]
  have longer (ink : isBlankLine line = false) : isBlankLine (line ++ edit.replacement) = false := by
    obtain ⟨byte, mem, dark⟩ := isBlankLine_eq_false_iff.mp ink
    exact isBlankLine_eq_false_iff.mpr ⟨byte, List.mem_append_left _ mem, dark⟩
  have within (free : lineFeed ∉ edit.replacement)
      (there : Written source edits edit.stop (line ++ edit.replacement) after) :
      Calm after (textLines (line ++ (edit.replacement ++ rest))) := by
    rw [← List.append_assoc]
    exact next _ _ there
  have inked line after (noFeed : lineFeed ∉ line) (ink : isBlankLine line = false) :
      Calm after (textLines (line ++ rest)) := next line after (.inked noFeed ink)
  cases leaves with
  | written inks => exact calm_of_inksLines inks written.noFeed nofun inked
  | further positive ink inks =>
    exact calm_of_inksLines inks written.noFeed (fun _ => written.inked_of_stays positive ink) inked
  | before free lt near ink =>
    cases written with
    | own _ _ eq _ clear => exact within free (.inked (single free) (longer (inked_of_own eq clear lt near ink)))
    | inked _ ink => exact within free (.inked (single free) (longer ink))
    | due _ le ahead ink fresh => exact within free (due_behind mem ordered (single free) le ahead ink fresh)
  | behind free le near ink =>
    by_cases blank : isBlankLine (line ++ edit.replacement) = false
    · exact within free (.inked (single free) blank)
    · refine within free (.due (single free) le near ink fun positive stays => ?_)
      rcases Nat.eq_or_lt_of_le ordered with same | lt
      · rw [← same] at stays positive
        exact blank (longer (written.inked_of_stays positive stays))
      · exact stays.stays ⟨edit, mem, by omega, by omega⟩

end Written

/-! ## Blank lines of the source -/

theorem textLines_ne_nil (some_ : bytes ≠ []) : textLines bytes ≠ [] := by
  cases bytes with
  | nil => exact absurd rfl some_
  | cons byte rest =>
    rw [textLines]
    split
    · exact List.cons_ne_nil _ _
    · split <;> exact List.cons_ne_nil _ _

theorem textLines_append (front back : Bytes) :
    textLines (front ++ lineFeed :: back) = textLines (front ++ [lineFeed]) ++ textLines back := by
  induction front with
  | nil => rfl
  | cons byte front eq =>
    rw [List.cons_append, List.cons_append, textLines, textLines, eq]
    split
    · rfl
    · cases lines : textLines (front ++ [lineFeed]) with
      | nil => exact absurd lines (textLines_ne_nil (by simp))
      | cons line later => rfl

theorem textLines_split (begins : first = 0 ∨ source[first - 1]? = some lineFeed) :
    textLines source = textLines (source.take first) ++ textLines (source.drop first) := by
  rcases begins with rfl | feed
  · rfl
  · cases first with
    | zero => rfl
    | succ last =>
      rw [Nat.add_sub_cancel] at feed
      obtain ⟨bound, at_⟩ := List.getElem?_eq_some_iff.mp feed
      have whole : source = source.take last ++ lineFeed :: source.drop (last + 1) := by
        rw [← at_, ← List.drop_eq_getElem_cons bound, List.take_append_drop]
      have front : source.take (last + 1) = source.take last ++ [lineFeed] := by
        rw [List.take_add_one, List.getElem?_eq_getElem bound, at_]
        rfl
      rw [front, ← textLines_append, ← whole]

theorem BlankLine.textLines_drop (blank : BlankLine source first stop) :
    ∃ line, isBlankLine line = true ∧ textLines (source.drop first) = line :: textLines (source.drop stop) := by
  have le := blank.blank.stop_le blank.lt
  have whole (last : Nat) (after : first ≤ last) (before : last ≤ stop) :
      source.drop first = slice source first last ++ source.drop last := by
    have split := (List.take_append_drop (last - first) (source.drop first)).symm
    rwa [List.drop_drop, Nat.add_sub_cancel' after] at split
  have isBlank {last : Nat} (before : last ≤ stop) : isBlankLine (slice source first last) = true := by
    refine List.all_eq_true.mpr fun byte mem => ?_
    obtain ⟨position, after, lt, at_⟩ := exists_of_mem_slice mem
    obtain ⟨other, same, isBlank⟩ := blank.blank position after (by omega)
    rw [at_] at same
    cases same
    exact isBlank
  have noFeed {last : Nat} (before : last < stop) : lineFeed ∉ slice source first last :=
    noFeed_slice fun position after lt => blank.single position after (by omega)
  have lt := blank.lt
  by_cases feed : source[stop - 1]? = some lineFeed
  · obtain ⟨bound, at_⟩ := List.getElem?_eq_some_iff.mp feed
    refine ⟨slice source first (stop - 1), isBlank (by omega), ?_⟩
    rw [whole (stop - 1) (by omega) (by omega), List.drop_eq_getElem_cons bound, at_,
      textLines_feed (noFeed (by omega)), Nat.sub_add_cancel (by omega)]
  · have ends := blank.ends.resolve_left feed
    have free : lineFeed ∉ slice source first stop := noFeed_slice fun position after before => by
      rcases Nat.lt_or_ge (position + 1) stop with inner | last
      · exact blank.single position after inner
      · rwa [show position = stop - 1 by omega]
    refine ⟨slice source first stop, isBlank (Nat.le_refl _), ?_⟩
    rw [whole stop (by omega) (Nat.le_refl _), ends, List.drop_length, List.append_nil, ← ends,
      textLines_of_noFeed free]
    · rfl
    · obtain ⟨byte, at_, -⟩ := blank.blank first (Nat.le_refl _) lt
      exact List.ne_nil_of_mem (mem_slice (Nat.le_refl _) lt at_)

theorem BlankLinesApart.not_blank (apart : BlankLinesApart source) (middle : Nat) (blank : BlankLine source first middle) :
    ¬ BlankLine source middle stop := by
  intro next
  obtain ⟨line, isBlank, eq⟩ := blank.textLines_drop
  obtain ⟨line', isBlank', eq'⟩ := next.textLines_drop
  rw [BlankLinesApart, textLines_split blank.begins, eq, eq'] at apart
  exact (List.isChain_cons_cons.mp apart.right_of_append).1 ⟨isBlank, isBlank'⟩

theorem beginsBlank_of_blankLine (blank : BlankLine source 0 stop) : beginsBlank source = true := by
  obtain ⟨line, isBlank, eq⟩ := blank.textLines_drop
  rw [List.drop_zero] at eq
  rw [beginsBlank, eq]
  exact isBlank

/-! ## A text after its edits -/

/-- A text stays calm where its edits take whole lines, or leave something on each line that they change. -/
theorem calm_applyOrdered {all : List Edit} {after : Bool} (apart : BlankLinesApart source)
    (each : ∀ edit ∈ all, TakesLines source all edit ∨ LeavesInk source all edit) (sub : ∀ edit ∈ edits, edit ∈ all)
    (successive : Successive source.length cursor edits) (written : Written source all cursor line after) :
    Calm after (textLines (line ++ applyOrdered source cursor edits)) := by
  have runs (first middle stop : Nat) (blank : BlankLine source first middle) : ¬ BlankLine source middle stop :=
    apart.not_blank middle blank
  induction edits generalizing cursor line after with
  | nil =>
    have calm := @Written.keepAll _ _ _ _ _ _ written runs successive (Nat.le_refl _) [] fun line after written => by
      rw [List.append_nil]
      exact written.finish
    rwa [List.append_nil, slice, List.take_of_length_le (by simp)] at calm
  | cons edit later calm =>
    obtain ⟨le, ordered, rest⟩ := successive
    have mem := sub edit List.mem_cons_self
    have onward {line : Bytes} {after : Bool} (written : Written source all edit.stop line after) :
        Calm after (textLines (line ++ applyOrdered source edit.stop later)) :=
      calm (fun other mem => sub other (List.mem_cons_of_mem _ mem)) rest written
    rw [applyOrdered, if_neg (Nat.not_lt.mpr le), List.append_assoc]
    refine written.keepAll runs le (Nat.le_trans ordered rest.le) fun line after written => ?_
    rcases each edit mem with takes | leaves
    · rw [takes.replacement, List.nil_append]
      exact onward (written.take mem takes ordered)
    · exact written.change mem leaves ordered fun line after => onward

/-- Edits of these two forms leave blank lines apart, and make none at the start of a text. -/
theorem blankLines_applyEdits (fits : ∀ edit ∈ edits, edit.Fits source.length) (apart : BlankLinesApart source)
    (each : ∀ edit ∈ applied edits, TakesLines source (applied edits) edit ∨ LeavesInk source (applied edits) edit) :
    BlankLinesApart (applyEdits source edits) ∧
      (beginsBlank (applyEdits source edits) = true → beginsBlank source = true) := by
  have written : Written source (applied edits) 0 [] (!beginsBlank source) := by
    refine .own (.inl rfl) (Nat.le_refl _) (slice_self source 0).symm (fun position from_ before => by omega)
      (fun position before => by omega) fun plain => ⟨.start, fun stop blank => ?_⟩
    rw [beginsBlank_of_blankLine blank] at plain
    cases plain
  have calm := calm_applyOrdered apart each (fun edit => id) (applied_successive fits) written
  rw [List.nil_append, applied, applyOrdered_appliedFrom] at calm
  refine ⟨calm.2, fun blank => ?_⟩
  by_cases plain : beginsBlank source = true
  · exact plain
  · have first := calm.1 (by simpa using plain)
    rw [beginsBlank] at blank
    cases lines : (textLines (applyOrdered source 0 (edits.mergeSort Edit.before))).head? with
    | none =>
      rw [applyEdits, lines] at blank
      cases blank
    | some line =>
      rw [applyEdits, lines] at blank
      exact absurd (first line lines) (by simpa using blank)

end Scaffold.Text
