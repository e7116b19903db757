import Scaffold.Proofs.Text.Splice

/-! # Passages of a text

Stretches of a source that stand in another text one behind the other, each as it is. Edits leave the stretches
between them as they are, and a replacement may hold stretches of what it replaces. So what lies in such stretches
is found in the edited text, in its order.
-/

namespace Scaffold.Text

/-- From one offset up to another. -/
abbrev Stretch := Nat × Nat

variable {source text : Bytes} {stretch first second : Stretch} {stretches later outer : List Stretch}
variable {start stop cursor : Nat} {edits : List Edit}

/-- The bytes of a stretch. -/
def Stretch.bytes (source : Bytes) (stretch : Stretch) : Bytes := slice source stretch.1 stretch.2

/-- A stretch lies in another one. -/
def Stretch.Within (inner outer : Stretch) : Prop := outer.1 ≤ inner.1 ∧ inner.2 ≤ outer.2

instance (inner outer : Stretch) : Decidable (inner.Within outer) := inferInstanceAs (Decidable (_ ∧ _))

/-- Stretches between two offsets that follow each other. -/
def Ordered (start stop : Nat) : List Stretch → Prop
  | [] => start ≤ stop
  | stretch :: later => start ≤ stretch.1 ∧ stretch.1 ≤ stretch.2 ∧ Ordered stretch.2 stop later

/-- A text holds the bytes of some stretches, one behind the other. -/
inductive Holds (source : Bytes) : List Stretch → Bytes → Prop
  | nil (text : Bytes) : Holds source [] text
  | cons {stretch : Stretch} {later : List Stretch} {rest : Bytes} (gap : Bytes) (behind : Holds source later rest) :
      Holds source (stretch :: later) (gap ++ (stretch.bytes source ++ rest))

namespace Holds

theorem behind (holds : Holds source stretches text) (gap : Bytes) : Holds source stretches (gap ++ text) := by
  cases holds with
  | nil => exact .nil _
  | cons front behind =>
    rw [← List.append_assoc]
    exact .cons _ behind

theorem append {more : Bytes} (front : Holds source stretches text) (back : Holds source later more) :
    Holds source (stretches ++ later) (text ++ more) := by
  induction front with
  | nil text => exact back.behind text
  | cons gap _ holds =>
    rw [List.append_assoc, List.append_assoc]
    exact .cons gap holds

theorem inFront (holds : Holds source stretches text) (gap : Bytes) : Holds source stretches (text ++ gap) := by
  have both := holds.append (.nil gap)
  rwa [List.append_nil] at both

theorem single (source : Bytes) (stretch : Stretch) : Holds source [stretch] (stretch.bytes source) := by
  have own : Holds source [stretch] ([] ++ (stretch.bytes source ++ [])) := .cons [] (.nil [])
  rwa [List.nil_append, List.append_nil] at own

theorem isInfix (holds : Holds source [stretch] text) : stretch.bytes source <:+: text := by
  cases holds with
  | @cons _ _ rest gap behind => exact ⟨gap, rest, List.append_assoc _ _ _⟩

end Holds

namespace Ordered

theorem le (ordered : Ordered start stop stretches) : start ≤ stop := by
  induction stretches generalizing start with
  | nil => exact ordered
  | cons stretch later le =>
    have := le ordered.2.2
    have := ordered.1
    have := ordered.2.1
    omega

theorem bounds (ordered : Ordered start stop stretches) (mem : stretch ∈ stretches) :
    start ≤ stretch.1 ∧ stretch.1 ≤ stretch.2 ∧ stretch.2 ≤ stop := by
  induction stretches generalizing start with
  | nil => cases mem
  | cons head later bounds =>
    obtain ⟨front, own, rest⟩ := ordered
    rcases List.mem_cons.mp mem with rfl | mem
    · exact ⟨front, own, rest.le⟩
    · have := bounds rest mem
      omega

theorem mono (ordered : Ordered start stop stretches) {newStart newStop : Nat} (front : newStart ≤ start)
    (back : stop ≤ newStop) : Ordered newStart newStop stretches := by
  induction stretches generalizing start newStart with
  | nil => exact Nat.le_trans front (Nat.le_trans ordered back)
  | cons head later mono =>
    obtain ⟨begins, own, rest⟩ := ordered
    exact ⟨Nat.le_trans front begins, own, mono rest (Nat.le_refl _)⟩

theorem append {between : Nat} (front : Ordered start between stretches) (back : Ordered between stop later) :
    Ordered start stop (stretches ++ later) := by
  induction stretches generalizing start with
  | nil => exact back.mono front (Nat.le_refl _)
  | cons head rest append => exact ⟨front.1, front.2.1, append front.2.2⟩

theorem of_pairwise (apart : stretches.Pairwise fun first second => first.2 ≤ second.1)
    (each : ∀ stretch ∈ stretches, start ≤ stretch.1 ∧ stretch.1 ≤ stretch.2 ∧ stretch.2 ≤ stop) (le : start ≤ stop) :
    Ordered start stop stretches := by
  induction stretches generalizing start with
  | nil => exact le
  | cons head later ordered =>
    obtain ⟨behind, rest⟩ := List.pairwise_cons.mp apart
    have own := each head List.mem_cons_self
    refine ⟨own.1, own.2.1, ordered rest (fun stretch mem => ?_) own.2.2⟩
    exact ⟨behind stretch mem, (each stretch (List.mem_cons_of_mem _ mem)).2⟩

end Ordered

theorem slice_append_slice {between : Nat} (front : start ≤ between) (back : between ≤ stop) :
    slice source start between ++ slice source between stop = slice source start stop := by
  unfold slice
  rw [show stop - start = (between - start) + (stop - between) by omega, List.take_add, List.drop_drop,
    show start + (between - start) = between by omega]

/-- A part of a source holds the stretches in it. -/
theorem Ordered.holds (ordered : Ordered start stop stretches) : Holds source stretches (slice source start stop) := by
  induction stretches generalizing start with
  | nil => exact .nil _
  | cons head later holds =>
    obtain ⟨front, own, rest⟩ := ordered
    rw [← slice_append_slice front (Nat.le_trans own rest.le), ← slice_append_slice own rest.le]
    exact .cons _ (holds rest)

/-- Stretches that follow each other, and of which each lies in one of others that follow each other, are parted by
the first of those. -/
theorem Ordered.part (ordered : Ordered start stop stretches) (filled : ∀ stretch ∈ stretches, stretch.1 < stretch.2)
    (outerOrdered : Ordered start stop (first :: outer))
    (inside : ∀ stretch ∈ stretches, ∃ other ∈ first :: outer, stretch.Within other) :
    ∃ front back, stretches = front ++ back ∧ Ordered first.1 first.2 front ∧ Ordered first.2 stop back ∧
      ∀ stretch ∈ back, ∃ other ∈ outer, stretch.Within other := by
  obtain ⟨begins, own, rest⟩ := outerOrdered
  induction stretches generalizing start with
  | nil => exact ⟨[], [], rfl, own, rest.le, nofun⟩
  | cons head later part =>
    obtain ⟨after, nonempty, behind⟩ := ordered
    have lt := filled head List.mem_cons_self
    have laterFilled : ∀ stretch ∈ later, stretch.1 < stretch.2 :=
      fun stretch mem => filled stretch (List.mem_cons_of_mem _ mem)
    obtain ⟨other, otherMem, within⟩ := inside head List.mem_cons_self
    rcases List.mem_cons.mp otherMem with rfl | otherMem
    · have laterOrdered : Ordered start stop later := behind.mono (by omega) (Nat.le_refl _)
      obtain ⟨front, back, rfl, frontOrdered, backOrdered, backInside⟩ := part laterOrdered laterFilled
        (fun stretch mem => inside stretch (List.mem_cons_of_mem _ mem)) begins
      have frontAfter : Ordered head.2 other.2 front := by
        cases front with
        | nil => exact within.2
        | cons next front => exact ⟨behind.1, frontOrdered.2⟩
      exact ⟨head :: front, back, rfl, ⟨within.1, nonempty, frontAfter⟩, backOrdered, backInside⟩
    · -- behind a stretch that lies in a later one, all lie in later ones
      have begun : first.2 ≤ head.1 := Nat.le_trans (rest.bounds otherMem).1 within.1
      refine ⟨[], head :: later, rfl, own, ⟨begun, nonempty, behind⟩, fun stretch mem => ?_⟩
      have bounds : first.2 ≤ stretch.1 := by
        rcases List.mem_cons.mp mem with rfl | later
        · exact begun
        · have := (behind.bounds later).1
          omega
      obtain ⟨found, foundMem, foundWithin⟩ := inside stretch mem
      rcases List.mem_cons.mp foundMem with rfl | foundMem
      · have := filled stretch mem
        have := foundWithin.2
        omega
      · exact ⟨found, foundMem, foundWithin⟩

/-- A text that holds stretches holds what lies in them. -/
theorem Holds.refine (holds : Holds source outer text) (outerOrdered : Ordered start stop outer)
    (ordered : Ordered start stop stretches) (filled : ∀ stretch ∈ stretches, stretch.1 < stretch.2)
    (inside : ∀ stretch ∈ stretches, ∃ other ∈ outer, stretch.Within other) : Holds source stretches text := by
  induction holds generalizing start stretches with
  | nil text =>
    cases stretches with
    | nil => exact .nil _
    | cons head later =>
      obtain ⟨other, mem, -⟩ := inside head List.mem_cons_self
      cases mem
  | cons gap _ refines =>
    obtain ⟨front, back, rfl, frontOrdered, backOrdered, backInside⟩ := ordered.part filled outerOrdered inside
    refine Holds.behind (.append frontOrdered.holds ?_) gap
    exact refines outerOrdered.2.2 backOrdered (fun stretch mem => filled stretch (List.mem_append_right _ mem)) backInside

/-! ## Edited texts -/

/-- What is left by edits from an offset on: the stretches between them, and in each of them those that its
replacement holds. -/
def stretchesLeft (carried : Edit → List Stretch) (length : Nat) : Nat → List Edit → List Stretch
  | cursor, [] => [(cursor, length)]
  | cursor, edit :: later => (cursor, edit.start) :: (carried edit ++ stretchesLeft carried length edit.stop later)

variable {carried : Edit → List Stretch}

theorem ordered_stretchesLeft (successive : Successive source.length cursor edits)
    (each : ∀ edit ∈ edits, Ordered edit.start edit.stop (carried edit)) :
    Ordered cursor source.length (stretchesLeft carried source.length cursor edits) := by
  induction edits generalizing cursor with
  | nil => exact ⟨Nat.le_refl _, successive, Nat.le_refl _⟩
  | cons edit later ordered =>
    obtain ⟨before, -, rest⟩ := successive
    refine ⟨Nat.le_refl _, before, (each edit List.mem_cons_self).append ?_⟩
    exact ordered rest fun other mem => each other (List.mem_cons_of_mem _ mem)

/-- An edited text holds the stretches that are left. -/
theorem holds_applyOrdered (successive : Successive source.length cursor edits)
    (each : ∀ edit ∈ edits, Holds source (carried edit) edit.replacement) :
    Holds source (stretchesLeft carried source.length cursor edits) (applyOrdered source cursor edits) := by
  induction edits generalizing cursor with
  | nil =>
    have own : Stretch.bytes source (cursor, source.length) = source.drop cursor := by
      rw [Stretch.bytes, slice]
      exact List.take_of_length_le (by simp)
    rw [applyOrdered, stretchesLeft, ← own]
    exact .single _ _
  | cons edit later holds =>
    obtain ⟨before, ordered, rest⟩ := successive
    rw [applyOrdered, if_neg (Nat.not_lt.mpr before), List.append_assoc]
    have gap := Holds.single source (cursor, edit.start)
    refine gap.append (.append (each edit List.mem_cons_self) ?_)
    exact holds rest fun other mem => each other (List.mem_cons_of_mem _ mem)

/-- A stretch apart from all edits lies between two of them. -/
theorem exists_left_of_apart (successive : Successive source.length cursor edits)
    (begins : cursor ≤ stretch.1) (ends : stretch.2 ≤ source.length)
    (apart : ∀ edit ∈ edits, stretch.2 ≤ edit.start ∨ edit.stop ≤ stretch.1) :
    ∃ left ∈ stretchesLeft carried source.length cursor edits, stretch.Within left := by
  induction edits generalizing cursor with
  | nil => exact ⟨_, List.mem_cons_self, begins, ends⟩
  | cons edit later found =>
    obtain ⟨before, ordered, rest⟩ := successive
    rcases apart edit List.mem_cons_self with front | back
    · exact ⟨_, List.mem_cons_self, begins, front⟩
    · obtain ⟨left, mem, within⟩ := found rest back fun other mem => apart other (List.mem_cons_of_mem _ mem)
      exact ⟨left, List.mem_cons_of_mem _ (List.mem_append_right _ mem), within⟩

theorem mem_stretchesLeft_of_carried {edit : Edit} (mem : edit ∈ edits) (inner : stretch ∈ carried edit) :
    stretch ∈ stretchesLeft carried source.length cursor edits := by
  induction edits generalizing cursor with
  | nil => cases mem
  | cons head later found =>
    rcases List.mem_cons.mp mem with rfl | mem
    · exact List.mem_cons_of_mem _ (List.mem_append_left _ inner)
    · exact List.mem_cons_of_mem _ (List.mem_append_right _ (found mem))

end Scaffold.Text
