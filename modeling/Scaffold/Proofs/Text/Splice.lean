import Scaffold.Text.Edit

/-! # What becomes of the bytes of an edited text

Of a set of edits, those that do not begin inside an applied one are applied. Every byte of the output
then has an origin: it is kept from a position of the source that no applied edit covers, or it belongs
to a replacement. The kept positions are all those that are not covered, in their order.
-/

namespace Scaffold.Text

/-- The edits that are applied from `cursor` on. -/
def appliedFrom : Nat → List Edit → List Edit
  | _, [] => []
  | cursor, edit :: later =>
    if edit.start < cursor then appliedFrom cursor later else edit :: appliedFrom edit.stop later

/-- Edits that begin before the cursor are dropped. -/
theorem applyOrdered_appliedFrom (source : Bytes) (cursor : Nat) (edits : List Edit) :
    applyOrdered source cursor (appliedFrom cursor edits) = applyOrdered source cursor edits := by
  induction edits generalizing cursor with
  | nil => rfl
  | cons edit later eq =>
    rw [appliedFrom, applyOrdered]
    split
    · exact eq cursor
    · next after => rw [applyOrdered, if_neg after, eq]

/-- The edits of a set that are applied, from left to right. -/
def applied (edits : List Edit) : List Edit := appliedFrom 0 (edits.mergeSort Edit.before)

/-- Whether a position lies in the range of an edit. -/
def Edit.Covers (edit : Edit) (position : Nat) : Prop := edit.start ≤ position ∧ position < edit.stop

/-- Whether a position lies in the range of one of several edits. -/
def Covered (edits : List Edit) (position : Nat) : Prop := ∃ edit ∈ edits, edit.Covers position

instance (edit : Edit) (position : Nat) : Decidable (edit.Covers position) :=
  inferInstanceAs (Decidable (_ ∧ _))

instance (edits : List Edit) (position : Nat) : Decidable (Covered edits position) :=
  inferInstanceAs (Decidable (∃ edit ∈ edits, _))

/-- The range of an edit is one of a text of this length. -/
def Edit.Fits (length : Nat) (edit : Edit) : Prop := edit.start ≤ edit.stop ∧ edit.stop ≤ length

/-- Edits that follow each other from `cursor` up to `length`. -/
def Successive (length : Nat) : Nat → List Edit → Prop
  | cursor, [] => cursor ≤ length
  | cursor, edit :: later => cursor ≤ edit.start ∧ edit.start ≤ edit.stop ∧ Successive length edit.stop later

theorem Successive.le {length cursor : Nat} {edits : List Edit} (successive : Successive length cursor edits) :
    cursor ≤ length := by
  induction edits generalizing cursor with
  | nil => exact successive
  | cons edit later le =>
    obtain ⟨before, ordered, rest⟩ := successive
    have := le rest
    omega

/-- An edit of a succession lies between its ends. -/
theorem Successive.bounds {length cursor : Nat} {edits : List Edit} (successive : Successive length cursor edits)
    {edit : Edit} (mem : edit ∈ edits) : cursor ≤ edit.start ∧ edit.start ≤ edit.stop ∧ edit.stop ≤ length := by
  induction edits generalizing cursor with
  | nil => cases mem
  | cons head later bounds =>
    obtain ⟨before, ordered, rest⟩ := successive
    cases mem with
    | head => exact ⟨before, ordered, rest.le⟩
    | tail _ mem =>
      have := bounds rest mem
      omega

theorem appliedFrom_sublist (cursor : Nat) (edits : List Edit) : (appliedFrom cursor edits).Sublist edits := by
  induction edits generalizing cursor with
  | nil => exact .slnil
  | cons edit later sublist =>
    unfold appliedFrom
    split
    · exact (sublist cursor).cons edit
    · exact (sublist edit.stop).cons_cons edit

theorem mem_mergeSort_iff {edits : List Edit} {edit : Edit} : edit ∈ edits.mergeSort Edit.before ↔ edit ∈ edits :=
  (List.mergeSort_perm edits Edit.before).mem_iff

theorem mem_of_mem_applied {edits : List Edit} {edit : Edit} (mem : edit ∈ applied edits) : edit ∈ edits :=
  mem_mergeSort_iff.mp ((appliedFrom_sublist 0 _).subset mem)

theorem appliedFrom_successive {length cursor : Nat} {edits : List Edit} (le : cursor ≤ length)
    (fits : ∀ edit ∈ edits, edit.Fits length) : Successive length cursor (appliedFrom cursor edits) := by
  induction edits generalizing cursor with
  | nil => exact le
  | cons edit later successive =>
    have later_fits : ∀ other ∈ later, other.Fits length := fun other mem => fits other (List.mem_cons_of_mem _ mem)
    unfold appliedFrom
    split
    · exact successive le later_fits
    · obtain ⟨ordered, inside⟩ := fits edit List.mem_cons_self
      exact ⟨by omega, ordered, successive inside later_fits⟩

theorem applied_successive {length : Nat} {edits : List Edit} (fits : ∀ edit ∈ edits, edit.Fits length) :
    Successive length 0 (applied edits) :=
  appliedFrom_successive (Nat.zero_le _) fun edit mem =>
    fits edit (mem_mergeSort_iff.mp mem)

/-- Two edits of a succession are one, or one ends before the other begins. -/
theorem Successive.apart {length cursor : Nat} {edits : List Edit} (successive : Successive length cursor edits)
    {first second : Edit} (memFirst : first ∈ edits) (memSecond : second ∈ edits) :
    first = second ∨ first.stop ≤ second.start ∨ second.stop ≤ first.start := by
  induction edits generalizing cursor with
  | nil => cases memFirst
  | cons edit later apart =>
    obtain ⟨before, ordered, rest⟩ := successive
    cases memFirst with
    | head =>
      cases memSecond with
      | head => exact .inl rfl
      | tail _ mem => exact .inr (.inl (rest.bounds mem).1)
    | tail _ memFirst =>
      cases memSecond with
      | head => exact .inr (.inr (rest.bounds memFirst).1)
      | tail _ memSecond => exact apart rest memFirst memSecond

/-! ## Edits that are dropped -/

theorem Edit.before_trans {first second third : Edit} (earlier : first.before second = true)
    (later : second.before third = true) : first.before third = true := by
  simp only [Edit.before, Bool.or_eq_true, decide_eq_true_eq, Bool.and_eq_true] at *
  omega

theorem Edit.before_total (first second : Edit) : (first.before second || second.before first) = true := by
  simp only [Edit.before, Bool.or_eq_true, decide_eq_true_eq, Bool.and_eq_true]
  omega

/-- Edits are applied in their order. -/
theorem sorted_mergeSort (edits : List Edit) : (edits.mergeSort Edit.before).Pairwise fun first second => first.before second = true :=
  @List.pairwise_mergeSort _ Edit.before (fun _ _ _ => Edit.before_trans) Edit.before_total edits

theorem Edit.start_le_of_before {first second : Edit} (before : first.before second = true) :
    first.start ≤ second.start := by
  simp only [Edit.before, Bool.or_eq_true, decide_eq_true_eq, Bool.and_eq_true] at before
  omega

private theorem mem_appliedFrom_or_begins_inside (cursor : Nat) {edits : List Edit}
    (sorted : edits.Pairwise fun first second => first.before second = true) {edit : Edit} (mem : edit ∈ edits) :
    edit ∈ appliedFrom cursor edits ∨ edit.start < cursor ∨
      ∃ other ∈ appliedFrom cursor edits, other.start ≤ edit.start ∧ edit.start < other.stop := by
  induction edits generalizing cursor with
  | nil => cases mem
  | cons head later inside =>
    obtain ⟨first, rest⟩ := List.pairwise_cons.mp sorted
    unfold appliedFrom
    split
    · next before =>
      cases mem with
      | head => exact .inr (.inl before)
      | tail _ mem => exact inside cursor rest mem
    · next after =>
      cases mem with
      | head => exact .inl List.mem_cons_self
      | tail _ mem =>
        rcases inside head.stop rest mem with kept | before | ⟨other, kept, begins⟩
        · exact .inl (List.mem_cons_of_mem _ kept)
        · exact .inr (.inr ⟨head, List.mem_cons_self, Edit.start_le_of_before (first edit mem), before⟩)
        · exact .inr (.inr ⟨other, List.mem_cons_of_mem _ kept, begins⟩)

/-- An edit that is dropped begins inside one that is applied. -/
theorem mem_applied_or_begins_inside {edits : List Edit} {edit : Edit} (mem : edit ∈ edits) :
    edit ∈ applied edits ∨ ∃ other ∈ applied edits, other.start ≤ edit.start ∧ edit.start < other.stop := by
  rcases mem_appliedFrom_or_begins_inside 0 (sorted_mergeSort edits) (mem_mergeSort_iff.mpr mem) with kept | before | inside
  · exact .inl kept
  · omega
  · exact .inr inside

/-- An edit of at least one byte is dropped exactly when it begins inside another one that is applied. -/
theorem mem_applied_iff {length : Nat} {edits : List Edit} (fits : ∀ edit ∈ edits, edit.Fits length) {edit : Edit}
    (mem : edit ∈ edits) (nonempty : edit.start < edit.stop) :
    edit ∈ applied edits ↔
      ¬ ∃ other ∈ applied edits, other ≠ edit ∧ other.start ≤ edit.start ∧ edit.start < other.stop := by
  constructor
  · rintro kept ⟨other, keptOther, differs, begins, inside⟩
    rcases (applied_successive fits).apart kept keptOther with same | before | after
    · exact differs same.symm
    · omega
    · omega
  · intro clear
    rcases mem_applied_or_begins_inside mem with kept | ⟨other, kept, begins⟩
    · exact kept
    · by_cases same : other = edit
      · exact same ▸ kept
      · exact absurd ⟨other, kept, same, begins⟩ clear

/-! ## Where the bytes of the output come from -/

/-- The origin of a byte of an output: a position of the source, or a replacement. -/
inductive Origin where
  | kept (position : Nat)
  | inserted (byte : UInt8)
  deriving DecidableEq, Repr

namespace Origin

def byte (source : Bytes) : Origin → UInt8
  | kept position => source[position]?.getD 0
  | inserted byte => byte

def position? : Origin → Option Nat
  | kept position => some position
  | inserted _ => none

end Origin

/-- The positions from `start` up to `stop`, as origins. -/
def keptRange (start stop : Nat) : List Origin := (List.range' start (stop - start)).map .kept

/-- The origins of the bytes from `cursor` on, when all the edits are applied. -/
def originsFrom (length : Nat) : Nat → List Edit → List Origin
  | cursor, [] => keptRange cursor length
  | cursor, edit :: later =>
    keptRange cursor edit.start ++ edit.replacement.map .inserted ++ originsFrom length edit.stop later

/-- The origins of the bytes of an edited text. -/
def origins (length : Nat) (edits : List Edit) : List Origin := originsFrom length 0 (applied edits)

theorem slice_eq_map_keptRange (source : Bytes) {start stop : Nat} (le : stop ≤ source.length) :
    slice source start stop = (keptRange start stop).map (Origin.byte source) := by
  apply List.ext_getElem?
  intro i
  simp only [slice, keptRange, List.getElem?_take, List.getElem?_drop, List.getElem?_map]
  split
  · next lt =>
    rw [List.getElem?_range' lt]
    have bound : start + i < source.length := by omega
    simp [Origin.byte, List.getElem?_eq_getElem bound]
  · next ge => simp [Nat.not_lt.mp ge]

private theorem applyOrdered_eq_map_origins {source : Bytes} {cursor : Nat} {edits : List Edit}
    (le : cursor ≤ source.length) (fits : ∀ edit ∈ edits, edit.Fits source.length) :
    applyOrdered source cursor edits =
      (originsFrom source.length cursor (appliedFrom cursor edits)).map (Origin.byte source) := by
  induction edits generalizing cursor with
  | nil =>
    have tail : source.drop cursor = slice source cursor source.length := by
      rw [slice, List.take_of_length_le (by simp)]
    rw [applyOrdered, tail, slice_eq_map_keptRange source (Nat.le_refl _)]
    rfl
  | cons edit later eq =>
    have later_fits : ∀ other ∈ later, other.Fits source.length :=
      fun other mem => fits other (List.mem_cons_of_mem _ mem)
    obtain ⟨ordered, inside⟩ := fits edit List.mem_cons_self
    unfold applyOrdered appliedFrom
    split
    · exact eq le later_fits
    · rw [eq inside later_fits, slice_eq_map_keptRange source (by omega)]
      have own : edit.replacement = (edit.replacement.map Origin.inserted).map (Origin.byte source) := by
        simp [Function.comp_def, Origin.byte]
      simp only [originsFrom, List.map_append]
      rw [← own]

/-- Every byte of the output has its origin. -/
theorem applyEdits_eq_map_origins {source : Bytes} {edits : List Edit}
    (fits : ∀ edit ∈ edits, edit.Fits source.length) :
    applyEdits source edits = (origins source.length edits).map (Origin.byte source) :=
  applyOrdered_eq_map_origins (Nat.zero_le _) fun edit mem =>
    fits edit (mem_mergeSort_iff.mp mem)

theorem filterMap_position?_keptRange (start stop : Nat) :
    (keptRange start stop).filterMap Origin.position? = List.range' start (stop - start) := by
  rw [keptRange, List.filterMap_map]
  exact List.filterMap_some

theorem filterMap_position?_inserted (bytes : Bytes) :
    (bytes.map Origin.inserted).filterMap Origin.position? = [] := by
  simp [List.filterMap_map, Function.comp_def, Origin.position?]

private theorem range'_split {start middle stop : Nat} (first : start ≤ middle) (second : middle ≤ stop) :
    List.range' start (stop - start) =
      List.range' start (middle - start) ++ List.range' middle (stop - middle) := by
  have joined := List.range'_append_1 (s := start) (m := middle - start) (n := stop - middle)
  rw [show start + (middle - start) = middle by omega,
    show middle - start + (stop - middle) = stop - start by omega] at joined
  exact joined.symm

private theorem positions_originsFrom {length cursor : Nat} {edits : List Edit}
    (successive : Successive length cursor edits) :
    (originsFrom length cursor edits).filterMap Origin.position? =
      (List.range' cursor (length - cursor)).filter fun position => ¬ Covered edits position := by
  induction edits generalizing cursor with
  | nil =>
    rw [originsFrom, filterMap_position?_keptRange, List.filter_eq_self.mpr]
    simp [Covered]
  | cons edit later eq =>
    obtain ⟨before, ordered, rest⟩ := successive
    have le := rest.le
    rw [range'_split before (show edit.start ≤ length by omega), range'_split ordered le]
    simp only [originsFrom, List.filterMap_append, List.filter_append, filterMap_position?_keptRange,
      filterMap_position?_inserted, List.append_nil]
    have front : (List.range' cursor (edit.start - cursor)).filter
        (fun position => ¬ Covered (edit :: later) position) = List.range' cursor (edit.start - cursor) := by
      apply List.filter_eq_self.mpr
      intro position mem
      obtain ⟨_, _⟩ := List.mem_range'_1.mp mem
      apply decide_eq_true
      rintro ⟨other, member, begins, ends⟩
      cases member with
      | head => omega
      | tail _ member =>
        have := (rest.bounds member).1
        omega
    have covered : (List.range' edit.start (edit.stop - edit.start)).filter
        (fun position => ¬ Covered (edit :: later) position) = [] := by
      apply List.filter_eq_nil_iff.mpr
      intro position mem
      obtain ⟨_, _⟩ := List.mem_range'_1.mp mem
      have : Covered (edit :: later) position := ⟨edit, List.mem_cons_self, by omega, by omega⟩
      simp [this]
    have back : (List.range' edit.stop (length - edit.stop)).filter
        (fun position => ¬ Covered (edit :: later) position) =
        (List.range' edit.stop (length - edit.stop)).filter fun position => ¬ Covered later position := by
      apply List.filter_congr
      intro position mem
      obtain ⟨_, _⟩ := List.mem_range'_1.mp mem
      refine decide_eq_decide.mpr (not_congr ?_)
      constructor
      · rintro ⟨other, member, begins, ends⟩
        cases member with
        | head => omega
        | tail _ member => exact ⟨other, member, begins, ends⟩
      · rintro ⟨other, member, range⟩
        exact ⟨other, List.mem_cons_of_mem _ member, range⟩
    rw [front, covered, back, eq rest, List.nil_append]

/-- The positions that are kept are those that no applied edit covers. -/
theorem positions_origins {length : Nat} {edits : List Edit} (fits : ∀ edit ∈ edits, edit.Fits length) :
    (origins length edits).filterMap Origin.position? =
      (List.range length).filter fun position => ¬ Covered (applied edits) position := by
  rw [origins, positions_originsFrom (applied_successive fits), Nat.sub_zero, List.range_eq_range']

private theorem inserted_notMem_keptRange {start stop : Nat} {byte : UInt8} :
    Origin.inserted byte ∉ keptRange start stop := by
  simp [keptRange]

theorem kept_mem_originsFrom_iff {length cursor : Nat} {edits : List Edit}
    (successive : Successive length cursor edits) {position : Nat} :
    .kept position ∈ originsFrom length cursor edits ↔
      (cursor ≤ position ∧ position < length) ∧ ¬ Covered edits position := by
  have iff : .kept position ∈ originsFrom length cursor edits ↔
      position ∈ (originsFrom length cursor edits).filterMap Origin.position? := by
    rw [List.mem_filterMap]
    constructor
    · intro mem
      exact ⟨_, mem, rfl⟩
    · rintro ⟨origin, mem, same⟩
      cases origin with
      | kept other =>
        cases same
        exact mem
      | inserted byte => cases same
  have le := successive.le
  rw [iff, positions_originsFrom successive, List.mem_filter, List.mem_range'_1,
    show cursor + (length - cursor) = length by omega]
  simp

theorem inserted_mem_originsFrom_iff {length cursor : Nat} {edits : List Edit} {byte : UInt8} :
    .inserted byte ∈ originsFrom length cursor edits ↔ ∃ edit ∈ edits, byte ∈ edit.replacement := by
  induction edits generalizing cursor with
  | nil => simp [originsFrom, inserted_notMem_keptRange]
  | cons edit later iff => simp [originsFrom, inserted_notMem_keptRange, iff]

theorem kept_mem_origins_iff {length : Nat} {edits : List Edit} (fits : ∀ edit ∈ edits, edit.Fits length)
    {position : Nat} :
    .kept position ∈ origins length edits ↔ position < length ∧ ¬ Covered (applied edits) position := by
  rw [origins, kept_mem_originsFrom_iff (applied_successive fits)]
  simp

/-- At a position that no edit covers, the edits part into those before it and those behind it. -/
private theorem Successive.part {length cursor position : Nat} {edits : List Edit}
    (successive : Successive length cursor edits) (after : cursor ≤ position) (inside : position < length)
    (free : ¬ Covered edits position) :
    ∃ before behind, edits = before ++ behind ∧ Successive position cursor before ∧
      Successive length (position + 1) behind ∧
      originsFrom length cursor edits =
        originsFrom position cursor before ++ .kept position :: originsFrom length (position + 1) behind := by
  induction edits generalizing cursor with
  | nil =>
    refine ⟨[], [], rfl, after, inside, ?_⟩
    simp only [originsFrom, keptRange]
    rw [range'_split after (Nat.le_of_lt inside), List.map_append,
      show length - position = (length - (position + 1)) + 1 by omega, List.range'_succ, List.map_cons]
  | cons edit later part =>
    obtain ⟨before, ordered, rest⟩ := successive
    have laterFree : ¬ Covered later position := by
      rintro ⟨other, mem, covers⟩
      exact free ⟨other, List.mem_cons_of_mem _ mem, covers⟩
    by_cases ends : edit.stop ≤ position
    · obtain ⟨front, behind, rfl, frontSuccessive, behindSuccessive, split⟩ := part rest ends laterFree
      exact ⟨edit :: front, behind, rfl, ⟨before, ordered, frontSuccessive⟩, behindSuccessive, by
        rw [originsFrom, split, originsFrom, List.append_assoc, List.append_assoc, List.append_assoc]⟩
    · have begins : position < edit.start := by
        rcases Nat.lt_or_ge position edit.start with lt | ge
        · exact lt
        · exact absurd ⟨edit, List.mem_cons_self, ge, by omega⟩ free
      refine ⟨[], edit :: later, rfl, after, ⟨begins, ordered, rest⟩, ?_⟩
      simp only [originsFrom, keptRange]
      rw [range'_split after (Nat.le_of_lt begins), List.map_append,
        show edit.start - position = (edit.start - (position + 1)) + 1 by omega, List.range'_succ, List.map_cons]
      simp only [List.append_assoc, List.cons_append]

/-- Between two bytes that are kept stand the bytes that are kept from between them, and the replacements
of the edits applied between them. -/
theorem origins_between {length first second : Nat} {edits : List Edit} (fits : ∀ edit ∈ edits, edit.Fits length)
    (lt : first < second) (inside : second < length) (freeFirst : ¬ Covered (applied edits) first)
    (freeSecond : ¬ Covered (applied edits) second) :
    ∃ front middle back,
      origins length edits = front ++ .kept first :: (middle ++ .kept second :: back) ∧
        (∀ position, .kept position ∈ middle ↔
          (first < position ∧ position < second) ∧ ¬ Covered (applied edits) position) ∧
        ∀ byte, .inserted byte ∈ middle ↔
          ∃ edit ∈ applied edits, (first < edit.start ∧ edit.stop ≤ second) ∧ byte ∈ edit.replacement := by
  obtain ⟨before, behind, split, beforeSuccessive, behindSuccessive, eq⟩ :=
    (applied_successive fits).part (Nat.zero_le _) (by omega) freeFirst
  have behindFree : ¬ Covered behind second := by
    rintro ⟨edit, mem, covers⟩
    exact freeSecond ⟨edit, by simp [split, mem], covers⟩
  obtain ⟨between, back, rfl, betweenSuccessive, backSuccessive, eqBehind⟩ :=
    behindSuccessive.part lt inside behindFree
  have mem_between {edit : Edit} (mem : edit ∈ applied edits) :
      edit ∈ between ∨ edit.stop ≤ first ∨ second < edit.start := by
    rw [split, List.mem_append, List.mem_append] at mem
    rcases mem with mem | mem | mem
    · exact .inr (.inl (beforeSuccessive.bounds mem).2.2)
    · exact .inl mem
    · exact .inr (.inr (backSuccessive.bounds mem).1)
  have mem_applied {edit : Edit} (mem : edit ∈ between) : edit ∈ applied edits := by simp [split, mem]
  refine ⟨_, originsFrom second (first + 1) between, _, by rw [origins, eq, eqBehind], ?_, ?_⟩
  · intro position
    rw [kept_mem_originsFrom_iff betweenSuccessive]
    refine and_congr_right fun range => not_congr ⟨?_, ?_⟩
    · rintro ⟨edit, mem, covers⟩
      exact ⟨edit, mem_applied mem, covers⟩
    · rintro ⟨edit, mem, begins, ends⟩
      rcases mem_between mem with mem | before | behind
      · exact ⟨edit, mem, begins, ends⟩
      · omega
      · omega
  · intro byte
    rw [inserted_mem_originsFrom_iff]
    constructor
    · rintro ⟨edit, mem, inserted⟩
      have bounds := betweenSuccessive.bounds mem
      exact ⟨edit, mem_applied mem, ⟨by omega, bounds.2.2⟩, inserted⟩
    · rintro ⟨edit, mem, ⟨begins, ends⟩, inserted⟩
      have bounds := (applied_successive fits).bounds mem
      rcases mem_between mem with mem | before | behind
      · exact ⟨edit, mem, inserted⟩
      · omega
      · omega

/-- A succession parts at each of its edits. -/
theorem Successive.around {length cursor : Nat} {before behind : List Edit} {edit : Edit}
    (successive : Successive length cursor (before ++ edit :: behind)) :
    Successive edit.start cursor before ∧ Successive length edit.stop behind ∧
      originsFrom length cursor (before ++ edit :: behind) =
        originsFrom edit.start cursor before ++ edit.replacement.map .inserted ++ originsFrom length edit.stop behind := by
  induction before generalizing cursor with
  | nil =>
    obtain ⟨le, -, rest⟩ := successive
    exact ⟨le, rest, rfl⟩
  | cons head later around =>
    obtain ⟨le, ordered, rest⟩ := successive
    obtain ⟨front, back, eq⟩ := around rest
    refine ⟨⟨le, ordered, front⟩, back, ?_⟩
    simp only [List.cons_append, originsFrom, eq, List.append_assoc]

/-- Before an applied edit stands what is kept of the text in front of it, and behind it what is kept of the rest. -/
theorem exists_origins_around {length : Nat} {edits : List Edit} (fits : ∀ edit ∈ edits, edit.Fits length) {edit : Edit}
    (taken : edit ∈ applied edits) :
    ∃ front back, origins length edits = front ++ edit.replacement.map .inserted ++ back ∧
      (∀ position, .kept position ∈ front ↔ .kept position ∈ origins length edits ∧ position < edit.start) ∧
        ∀ position, .kept position ∈ back ↔ .kept position ∈ origins length edits ∧ edit.stop ≤ position := by
  obtain ⟨before, behind, split⟩ := List.append_of_mem taken
  have successive := applied_successive fits
  have bounds := successive.bounds taken
  rw [split] at successive
  obtain ⟨front, back, eq⟩ := successive.around
  have covered (position : Nat) : Covered (applied edits) position ↔
      Covered before position ∨ edit.Covers position ∨ Covered behind position := by
    simp only [split, Covered, List.mem_append, List.mem_cons]
    constructor
    · rintro ⟨other, mem | rfl | mem, covers⟩
      · exact .inl ⟨other, mem, covers⟩
      · exact .inr (.inl covers)
      · exact .inr (.inr ⟨other, mem, covers⟩)
    · rintro (⟨other, mem, covers⟩ | covers | ⟨other, mem, covers⟩)
      · exact ⟨other, .inl mem, covers⟩
      · exact ⟨edit, .inr (.inl rfl), covers⟩
      · exact ⟨other, .inr (.inr mem), covers⟩
  have within {position : Nat} (covers : Covered before position) : position < edit.start := by
    obtain ⟨other, mem, begins, ends⟩ := covers
    have := front.bounds mem
    omega
  have beyond {position : Nat} (covers : Covered behind position) : edit.stop ≤ position := by
    obtain ⟨other, mem, begins, ends⟩ := covers
    have := back.bounds mem
    omega
  refine ⟨_, _, by rw [origins, split, eq], fun position => ?_, fun position => ?_⟩
  · rw [kept_mem_originsFrom_iff front, kept_mem_origins_iff fits, covered]
    constructor
    · rintro ⟨⟨-, lt⟩, free⟩
      refine ⟨⟨by omega, ?_⟩, lt⟩
      rintro (covers | covers | covers)
      · exact free covers
      · have := covers.1
        omega
      · have := beyond covers
        omega
    · rintro ⟨⟨-, free⟩, lt⟩
      exact ⟨⟨Nat.zero_le _, lt⟩, fun covers => free (.inl covers)⟩
  · rw [kept_mem_originsFrom_iff back, kept_mem_origins_iff fits, covered]
    constructor
    · rintro ⟨⟨le, lt⟩, free⟩
      refine ⟨⟨lt, ?_⟩, le⟩
      rintro (covers | covers | covers)
      · have := within covers
        omega
      · have := covers.2
        omega
      · exact free covers
    · rintro ⟨⟨lt, free⟩, le⟩
      exact ⟨⟨le, lt⟩, fun covers => free (.inr (.inr covers))⟩

/-! ## Edits that only remove -/

/-- The bytes at some positions of a source. -/
def bytesAt (source : Bytes) (positions : List Nat) : Bytes := positions.map fun position => source[position]?.getD 0

/-- The positions that edits leave. -/
def positionsLeft (length : Nat) (edits : List Edit) : List Nat :=
  (List.range length).filter fun position => ¬ Covered (applied edits) position

theorem mem_positionsLeft_iff {length position : Nat} {edits : List Edit} :
    position ∈ positionsLeft length edits ↔ position < length ∧ ¬ Covered (applied edits) position := by
  simp [positionsLeft]

private theorem map_byte_of_kept {source : Bytes} {output : List Origin} (kept : ∀ byte, .inserted byte ∉ output) :
    output.map (Origin.byte source) = bytesAt source (output.filterMap Origin.position?) := by
  induction output with
  | nil => rfl
  | cons origin later eq =>
    have rest := eq fun byte mem => kept byte (List.mem_cons_of_mem _ mem)
    cases origin with
    | kept position => exact congrArg (_ :: ·) rest
    | inserted byte => exact absurd List.mem_cons_self (kept byte)

/-- Where edits only remove, the output consists of the bytes that are left. -/
theorem applyEdits_eq_bytesAt {source : Bytes} {edits : List Edit} (fits : ∀ edit ∈ edits, edit.Fits source.length)
    (removals : ∀ edit ∈ edits, edit.replacement = []) :
    applyEdits source edits = bytesAt source (positionsLeft source.length edits) := by
  rw [applyEdits_eq_map_origins fits, map_byte_of_kept, positions_origins fits, positionsLeft]
  intro byte mem
  obtain ⟨edit, taken, inserted⟩ := inserted_mem_originsFrom_iff.mp mem
  rw [removals edit (mem_of_mem_applied taken)] at inserted
  cases inserted

end Scaffold.Text
