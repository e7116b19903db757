import Mathlib.Data.List.Nodup
import Mathlib.Data.List.Pairwise
import Mathlib.Tactic.ByContra
import Scaffold.Proofs.Text.Splice

/-! # Which edits are applied

The edits of a list are ranked by their start, of two with one start the longer first, and of two with one range the one
that is listed first. A scan takes each of them that does not begin inside the last one taken. What it takes is replaced and
everything between is kept, so edits of different ranges may be listed in any order. Of edits that lie apart one is lost
only if it inserts at the start of another one: the longer one comes first, and the insertion then begins inside it.
-/

namespace Scaffold.Text

variable {source output : Bytes} {edits later : List Edit} {cursor : Nat}

/-! ## The ranking -/

/-- An edit with its place in a list. -/
abbrev Placed := Edit × Nat

/-- The order in which the edits of a list are tried. -/
def Placed.Precedes (first second : Placed) : Prop :=
  first.1.start < second.1.start ∨ first.1.start = second.1.start ∧
    (second.1.stop < first.1.stop ∨ first.1.stop = second.1.stop ∧ first.2 < second.2)

/-- The edits of a list in the order in which they are tried. -/
def ranked (edits : List Edit) : List Placed := edits.zipIdx.mergeSort (List.zipIdxLE Edit.before)

theorem ranked_perm (edits : List Edit) : (ranked edits).Perm edits.zipIdx := List.mergeSort_perm _ _

theorem map_fst_ranked (edits : List Edit) : (ranked edits).map Prod.fst = edits.mergeSort Edit.before :=
  List.mergeSort_zipIdx

theorem mem_ranked_iff {placed : Placed} : placed ∈ ranked edits ↔ edits[placed.2]? = some placed.1 := by
  rw [(ranked_perm edits).mem_iff, List.mem_zipIdx_iff_getElem?]

theorem nodup_zipIdx (edits : List Edit) : edits.zipIdx.Nodup := by
  apply List.Nodup.of_map Prod.snd
  rw [List.zipIdx_map_snd]
  exact List.nodup_range'

theorem precedes_ranked (edits : List Edit) : (ranked edits).Pairwise Placed.Precedes := by
  have sorted : (ranked edits).Pairwise fun first second => List.zipIdxLE Edit.before first second = true :=
    List.pairwise_mergeSort (@List.zipIdxLE_trans _ Edit.before fun _ _ _ => Edit.before_trans)
      (List.zipIdxLE_total Edit.before_total) _
  have distinct : (ranked edits).Nodup := (ranked_perm edits).nodup_iff.mpr (nodup_zipIdx edits)
  refine (sorted.and distinct).imp_of_mem fun {first second} firstMem secondMem ⟨le, differ⟩ => ?_
  have other : first.2 ≠ second.2 := fun same => by
    have own := mem_ranked_iff.mp firstMem
    rw [same, mem_ranked_iff.mp secondMem] at own
    exact differ (Prod.ext (Option.some.inj own).symm same)
  simp only [List.zipIdxLE, Edit.before] at le
  unfold Placed.Precedes
  grind

/-! ## The scan -/

/-- The edits that are taken from `cursor` on, with their places. -/
def selectedFrom : Nat → List Placed → List Placed
  | _, [] => []
  | cursor, placed :: later =>
    if placed.1.start < cursor then selectedFrom cursor later else placed :: selectedFrom placed.1.stop later

/-- The edits of a list that are taken, with their places. -/
def selected (edits : List Edit) : List Placed := selectedFrom 0 (ranked edits)

theorem selectedFrom_sublist (cursor : Nat) (placed : List Placed) : (selectedFrom cursor placed).Sublist placed := by
  induction placed generalizing cursor with
  | nil => exact .slnil
  | cons head later sublist =>
    unfold selectedFrom
    split
    · exact (sublist cursor).cons head
    · exact (sublist head.1.stop).cons_cons head

/-- The edits that are taken are those that are applied. -/
theorem map_selectedFrom (cursor : Nat) (placed : List Placed) :
    (selectedFrom cursor placed).map Prod.fst = appliedFrom cursor (placed.map Prod.fst) := by
  induction placed generalizing cursor with
  | nil => rfl
  | cons head later eq =>
    rw [selectedFrom, List.map_cons, appliedFrom]
    split
    · exact eq cursor
    · rw [List.map_cons, eq]

theorem map_selected (edits : List Edit) : (selected edits).map Prod.fst = applied edits := by
  rw [selected, map_selectedFrom, map_fst_ranked, applied]

theorem selected_sublist (edits : List Edit) : (selected edits).Sublist (ranked edits) := selectedFrom_sublist 0 _

/-- An edit that is not taken begins in front of the cursor, or inside one that was taken before it. -/
theorem mem_selectedFrom_or (cursor : Nat) {placed : List Placed} (sorted : placed.Pairwise Placed.Precedes) {item : Placed}
    (mem : item ∈ placed) :
    item ∈ selectedFrom cursor placed ∨ item.1.start < cursor ∨
      ∃ other ∈ selectedFrom cursor placed, other.Precedes item ∧ item.1.start < other.1.stop := by
  induction placed generalizing cursor with
  | nil => cases mem
  | cons head later inside =>
    obtain ⟨first, rest⟩ := List.pairwise_cons.mp sorted
    unfold selectedFrom
    split
    · next before =>
      rcases List.mem_cons.mp mem with rfl | mem
      · exact .inr (.inl before)
      · exact inside cursor rest mem
    · rcases List.mem_cons.mp mem with rfl | mem
      · exact .inl List.mem_cons_self
      · rcases inside head.1.stop rest mem with taken | before | ⟨other, taken, begins⟩
        · exact .inl (List.mem_cons_of_mem _ taken)
        · exact .inr (.inr ⟨head, List.mem_cons_self, first item mem, before⟩)
        · exact .inr (.inr ⟨other, List.mem_cons_of_mem _ taken, begins⟩)

theorem mem_selected_or {item : Placed} (mem : item ∈ ranked edits) : item ∈ selected edits ∨
    ∃ other ∈ selected edits, other.Precedes item ∧ item.1.start < other.1.stop := by
  rcases mem_selectedFrom_or 0 (precedes_ranked edits) mem with taken | before | inside
  · exact .inl taken
  · omega
  · exact .inr inside

/-- Of two edits that are taken, the first ends before the second begins. -/
theorem selected_apart (fits : ∀ edit ∈ edits, edit.Fits source.length) :
    (selected edits).Pairwise fun first second => first.1.stop ≤ second.1.start := by
  have following {length cursor : Nat} {chosen : List Edit} (successive : Successive length cursor chosen) :
      chosen.Pairwise fun first second => first.stop ≤ second.start := by
    induction chosen generalizing cursor with
    | nil => exact .nil
    | cons head later apart =>
      obtain ⟨-, -, rest⟩ := successive
      exact List.pairwise_cons.mpr ⟨fun other mem => (rest.bounds mem).1, apart rest⟩
  have apart := following (applied_successive fits)
  rwa [← map_selected, List.pairwise_map] at apart

/-- Of two edits that are taken, the one that is tried first ends before the other begins. -/
theorem stop_le_of_precedes (fits : ∀ edit ∈ edits, edit.Fits source.length) {first second : Placed}
    (firstMem : first ∈ selected edits) (secondMem : second ∈ selected edits) (before : first.Precedes second) :
    first.1.stop ≤ second.1.start := by
  have sorted := (precedes_ranked edits).sublist (selected_sublist edits)
  obtain ⟨i, iLt, rfl⟩ := List.getElem_of_mem firstMem
  obtain ⟨j, jLt, rfl⟩ := List.getElem_of_mem secondMem
  rcases Nat.lt_trichotomy i j with lt | rfl | gt
  · exact List.pairwise_iff_getElem.mp (selected_apart fits) i j iLt jLt lt
  · unfold Placed.Precedes at before
    omega
  · have after := List.pairwise_iff_getElem.mp sorted j i jLt iLt gt
    unfold Placed.Precedes at before after
    omega

/-! ## Replaced ranges -/

/-- A text in which the ranges of edits, which follow each other, are replaced, and all other bytes stay. The first byte of
both texts is that at offset `cursor`. -/
inductive Spliced : Nat → List Edit → Bytes → Bytes → Prop
  | rest (cursor : Nat) (kept : Bytes) : Spliced cursor [] kept kept
  | replace {cursor : Nat} {edit : Edit} {later : List Edit} {kept taken source output : Bytes}
      (start_eq : edit.start = cursor + kept.length) (stop_eq : edit.stop = edit.start + taken.length)
      (behind : Spliced edit.stop later source output) :
      Spliced cursor (edit :: later) (kept ++ (taken ++ source)) (kept ++ (edit.replacement ++ output))

/-- Every replacement stands in the text. -/
theorem Spliced.isInfix (spliced : Spliced cursor edits source output) {edit : Edit} (mem : edit ∈ edits) :
    edit.replacement <:+: output := by
  induction spliced with
  | rest => cases mem
  | @replace _ head _ kept _ _ output _ _ _ found =>
    rcases List.mem_cons.mp mem with rfl | mem
    · exact ⟨kept, output, List.append_assoc _ _ _⟩
    · rw [← List.append_assoc]
      exact (found mem).trans (List.suffix_append _ _).isInfix

theorem spliced_applyOrdered (successive : Successive source.length cursor edits) :
    Spliced cursor edits (source.drop cursor) (applyOrdered source cursor edits) := by
  induction edits generalizing cursor with
  | nil => exact .rest cursor _
  | cons edit later spliced =>
    obtain ⟨before, ordered, rest⟩ := successive
    have le := rest.le
    have parts : source.drop cursor = slice source cursor edit.start ++
        (slice source edit.start edit.stop ++ source.drop edit.stop) := by
      have taken : source.drop edit.start = slice source edit.start edit.stop ++ source.drop edit.stop := by
        rw [slice, ← Nat.add_sub_cancel' ordered, Nat.add_sub_cancel_left, ← List.drop_drop, List.take_append_drop]
      have kept : source.drop cursor = slice source cursor edit.start ++ source.drop edit.start := by
        rw [slice, ← Nat.add_sub_cancel' before, Nat.add_sub_cancel_left, ← List.drop_drop, List.take_append_drop]
      rw [kept, taken]
    rw [applyOrdered, if_neg (Nat.not_lt.mpr before), parts, List.append_assoc]
    refine .replace ?_ ?_ (spliced rest)
    · rw [slice, List.length_take, List.length_drop]
      omega
    · rw [slice, List.length_take, List.length_drop]
      omega

/-- An edited text is the source with the ranges of the edits that are taken replaced. -/
theorem spliced_selected (fits : ∀ edit ∈ edits, edit.Fits source.length) :
    Spliced 0 ((selected edits).map Prod.fst) source (applyEdits source edits) := by
  have spliced := spliced_applyOrdered (applied_successive fits)
  rw [applied, applyOrdered_appliedFrom, List.drop_zero] at spliced
  rwa [map_selected]

/-! ## Any order -/

/-- Two edits are of different ranges. -/
def Edit.Differ (first second : Edit) : Prop := first.start ≠ second.start ∨ first.stop ≠ second.stop

instance : Std.Symm Edit.Differ := ⟨fun _ _ => Or.imp Ne.symm Ne.symm⟩

instance (first second : Edit) : Decidable (first.Differ second) := inferInstanceAs (Decidable (_ ∨ _))

/-- Edits of different ranges are tried in the same order, however they are listed. -/
theorem mergeSort_eq_of_perm {others : List Edit} (perm : others.Perm edits) (distinct : edits.Pairwise Edit.Differ) :
    others.mergeSort Edit.before = edits.mergeSort Edit.before := by
  refine List.Perm.eq_of_pairwise ?_ (sorted_mergeSort others) (sorted_mergeSort edits)
    ((List.mergeSort_perm others _).trans (perm.trans (List.mergeSort_perm edits _).symm))
  intro first second firstMem secondMem le ge
  have firstMem := perm.mem_iff.mp (mem_mergeSort_iff.mp firstMem)
  have secondMem := mem_mergeSort_iff.mp secondMem
  by_contra differ
  have ranges : first.Differ second := distinct.forall firstMem secondMem differ
  simp only [Edit.before, Bool.or_eq_true, decide_eq_true_eq, Bool.and_eq_true] at le ge
  rcases ranges with start | stop <;> omega

/-- The edits of a list that are applied are a part of all in their order: of two that are taken the first ends before the
second begins, exactly their ranges are replaced, and each of the others begins inside one that comes before it. Edits of
different ranges may be listed in any order. -/
theorem edits_are_selected (fits : ∀ edit ∈ edits, edit.Fits source.length) :
    (∃ sorted chosen : List Placed, sorted.Perm edits.zipIdx ∧ sorted.Pairwise Placed.Precedes ∧ chosen.Sublist sorted ∧
      (chosen.Pairwise fun first second => first.1.stop ≤ second.1.start) ∧
      Spliced 0 (chosen.map Prod.fst) source (applyEdits source edits) ∧
      ∀ item ∈ sorted, item ∉ chosen → ∃ other ∈ chosen, other.Precedes item ∧ other.1.start ≤ item.1.start ∧
        item.1.start < other.1.stop) ∧
    (edits.Pairwise Edit.Differ → ∀ others : List Edit, others.Perm edits → applyEdits source others = applyEdits source edits) := by
  refine ⟨⟨ranked edits, selected edits, ranked_perm edits, precedes_ranked edits, selected_sublist edits,
    selected_apart fits, spliced_selected fits, fun item mem missed => ?_⟩, fun distinct others perm => ?_⟩
  · rcases mem_selected_or mem with taken | ⟨other, taken, before, inside⟩
    · exact absurd taken missed
    · have le : other.1.start ≤ item.1.start := by
        rcases before with lt | ⟨same, -⟩ <;> omega
      exact ⟨other, taken, before, le, inside⟩
  · rw [applyEdits, applyEdits, mergeSort_eq_of_perm perm distinct]

instance (length : Nat) (edit : Edit) : Decidable (edit.Fits length) := inferInstanceAs (Decidable (_ ∧ _))

/-- Three edits of the ten digits, of which the last one listed lies in the second one. -/
def digitEdits : List Edit := [⟨6, 8, encode "X"⟩, .removal 1 5, ⟨2, 3, encode "Y"⟩]

theorem digit_edits_are_selected :
    (∀ edit ∈ digitEdits, edit.Fits (encode "0123456789").length) ∧
      digitEdits.Pairwise Edit.Differ ∧
      applyEdits (encode "0123456789") digitEdits.reverse = applyEdits (encode "0123456789") digitEdits ∧
      ∃ chosen : List Placed, Spliced 0 (chosen.map Prod.fst) (encode "0123456789") (applyEdits (encode "0123456789") digitEdits) := by
  have fits : ∀ edit ∈ digitEdits, edit.Fits (encode "0123456789").length := by decide
  have distinct : digitEdits.Pairwise Edit.Differ := by decide
  obtain ⟨⟨sorted, chosen, -, -, -, -, spliced, -⟩, anyOrder⟩ := edits_are_selected fits
  exact ⟨fits, distinct, anyOrder distinct _ (List.reverse_perm _), chosen, spliced⟩

/-! ## Edits that lie apart -/

/-- One of two edits ends no later than the other begins. -/
def Edit.Apart (first second : Edit) : Prop := first.stop ≤ second.start ∨ second.stop ≤ first.start

instance (first second : Edit) : Decidable (first.Apart second) := inferInstanceAs (Decidable (_ ∨ _))

/-- An edit inserts at the start of a range that another one replaces. -/
def InsertsBefore (edits : List Edit) (edit : Edit) : Prop :=
  edit.start = edit.stop ∧ ∃ other ∈ edits, other.start = edit.start ∧ other.start < other.stop

theorem apart_of_ranked (apart : edits.Pairwise Edit.Apart) {first second : Placed} (firstMem : first ∈ ranked edits)
    (secondMem : second ∈ ranked edits) (before : first.Precedes second) : first.1.Apart second.1 := by
  have pairs : edits.zipIdx.Pairwise fun first second => first.1.Apart second.1 := by
    rw [← List.pairwise_map, List.zipIdx_map_fst]
    exact apart
  have : Std.Symm fun first second : Placed => first.1.Apart second.1 := ⟨fun _ _ => Or.symm⟩
  refine pairs.forall ((ranked_perm edits).mem_iff.mp firstMem) ((ranked_perm edits).mem_iff.mp secondMem) ?_
  rintro rfl
  unfold Placed.Precedes at before
  omega

/-- An edit that is not taken inserts at the start of one that is. -/
theorem exists_of_not_mem_selected (fits : ∀ edit ∈ edits, edit.Fits source.length) (apart : edits.Pairwise Edit.Apart)
    {item : Placed} (mem : item ∈ ranked edits) (missed : item ∉ selected edits) :
    item.1.start = item.1.stop ∧ ∃ other ∈ selected edits, other.1.start = item.1.start ∧ other.1.start < other.1.stop := by
  rcases mem_selected_or mem with taken | ⟨other, taken, before, inside⟩
  · exact absurd taken missed
  · have own := (fits item.1 (List.mem_of_getElem? (mem_ranked_iff.mp mem))).1
    have le : other.1.start ≤ item.1.start := by
      rcases before with lt | ⟨same, -⟩ <;> omega
    have sides := apart_of_ranked apart ((selected_sublist edits).subset taken) mem before
    unfold Edit.Apart at sides
    exact ⟨by omega, other, taken, by omega, by omega⟩

/-- Of edits that lie apart, in whatever order they are listed, exactly those are applied that do not insert at the start of
a range that another one replaces. Their ranges are replaced and every other byte is kept. -/
theorem apart_edits_are_applied (fits : ∀ edit ∈ edits, edit.Fits source.length) (apart : edits.Pairwise Edit.Apart) :
    ∃ chosen : List Placed, chosen.Pairwise Placed.Precedes ∧
      (∀ item : Placed, item ∈ chosen ↔ edits[item.2]? = some item.1 ∧ ¬ InsertsBefore edits item.1) ∧
      Spliced 0 (chosen.map Prod.fst) source (applyEdits source edits) := by
  refine ⟨selected edits, (precedes_ranked edits).sublist (selected_sublist edits), fun item => ⟨fun taken => ?_, ?_⟩,
    spliced_selected fits⟩
  · have mem := (selected_sublist edits).subset taken
    refine ⟨mem_ranked_iff.mp mem, ?_⟩
    rintro ⟨empty, edit, editMem, same, nonempty⟩
    obtain ⟨place, at_⟩ := List.getElem?_of_mem editMem
    have otherMem : (edit, place) ∈ ranked edits := mem_ranked_iff.mpr at_
    -- the longer one is taken, and it comes first
    have otherTaken : (edit, place) ∈ selected edits := by
      by_contra missed
      have same : edit.start = edit.stop := (exists_of_not_mem_selected fits apart otherMem missed).1
      omega
    have longer : item.1.stop < edit.stop := by omega
    have : edit.stop ≤ item.1.start := stop_le_of_precedes fits otherTaken taken (.inr ⟨same, .inl longer⟩)
    omega
  · rintro ⟨at_, free⟩
    by_contra missed
    have mem : item ∈ ranked edits := mem_ranked_iff.mpr at_
    obtain ⟨empty, other, taken, same, nonempty⟩ := exists_of_not_mem_selected fits apart mem missed
    have listed := List.mem_of_getElem? (mem_ranked_iff.mp ((selected_sublist edits).subset taken))
    exact free ⟨empty, other.1, listed, same, nonempty⟩

instance (edits : List Edit) (edit : Edit) : Decidable (InsertsBefore edits edit) :=
  inferInstanceAs (Decidable (_ ∧ ∃ other ∈ edits, _))

/-- A byte is removed, and two texts are inserted behind it. -/
def abuttingEdits : List Edit := [⟨1, 1, encode "x"⟩, .removal 0 1, ⟨1, 1, encode "y"⟩]

theorem insertions_behind_are_applied :
    (∀ edit ∈ abuttingEdits, edit.Fits (encode "ab").length) ∧ abuttingEdits.Pairwise Edit.Apart ∧
      ∃ chosen : List Placed, (∀ item : Placed, item ∈ chosen ↔ abuttingEdits[item.2]? = some item.1) ∧
        Spliced 0 (chosen.map Prod.fst) (encode "ab") (encode "xyb") := by
  have fits : ∀ edit ∈ abuttingEdits, edit.Fits (encode "ab").length := by decide
  have apart : abuttingEdits.Pairwise Edit.Apart := by decide
  have free : ∀ edit ∈ abuttingEdits, ¬ InsertsBefore abuttingEdits edit := by decide
  obtain ⟨chosen, -, taken, spliced⟩ := apart_edits_are_applied fits apart
  have sorted : abuttingEdits.mergeSort Edit.before = [.removal 0 1, ⟨1, 1, encode "x"⟩, ⟨1, 1, encode "y"⟩] := by
    simp [abuttingEdits, List.mergeSort, List.MergeSort.Internal.splitInTwo, Edit.before, Edit.removal]
  have output : applyEdits (encode "ab") abuttingEdits = encode "xyb" := by
    rw [applyEdits, sorted]
    decide
  rw [output] at spliced
  exact ⟨fits, apart, chosen, fun item => (taken item).trans (and_iff_left_of_imp fun at_ => free _ (List.mem_of_getElem? at_)),
    spliced⟩

/-- A byte is removed, and a text is inserted in front of it. -/
def frontingEdits : List Edit := [.removal 0 1, ⟨0, 0, encode "x"⟩]

/-- An insertion at the start of a range that is removed is lost, though the two lie apart. -/
theorem insertion_is_lost :
    (∀ edit ∈ frontingEdits, edit.Fits (encode "ab").length) ∧ frontingEdits.Pairwise Edit.Apart ∧
      applyEdits (encode "ab") frontingEdits = encode "b" ∧
      ¬ ∃ chosen : List Edit, chosen.Perm frontingEdits ∧
        Spliced 0 chosen (encode "ab") (applyEdits (encode "ab") frontingEdits) := by
  have sorted : frontingEdits.mergeSort Edit.before = frontingEdits := by
    simp [frontingEdits, List.mergeSort, List.MergeSort.Internal.splitInTwo, Edit.before, Edit.removal]
  have output : applyEdits (encode "ab") frontingEdits = encode "b" := by
    rw [applyEdits, sorted]
    decide
  refine ⟨by decide, by decide, output, ?_⟩
  rintro ⟨chosen, perm, spliced⟩
  rw [output] at spliced
  have inserted : encode "x" <:+: encode "b" := spliced.isInfix (perm.mem_iff.mpr (List.mem_of_getElem? (i := 1) rfl))
  exact absurd inserted (by decide)

end Scaffold.Text
