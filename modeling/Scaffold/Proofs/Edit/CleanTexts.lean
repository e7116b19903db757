import Scaffold.Proofs.Edit.Reappearing
import Scaffold.Proofs.Text.Sweeping

/-! # The texts that a clean-up leaves

A clean text has no two commas with white space only between them, no comma like that behind an opening bracket, and no two
blank lines one after the other. Each pass of a clean-up takes one of the three away in one run and brings none of the
others back, so it leaves a clean text, and a clean text is left as it is.
-/

namespace Scaffold.Edit

open Scaffold.Text Pattern

variable {opening closing b : UInt8} {gap : UInt8 → Bool} {follows goesOn : Bytes → Prop}
variable {pattern : Pattern UInt8} {replacement : Bytes → Bytes} {before : Option UInt8}
variable {text front output taken rest : Bytes}

/-! ## Bytes with a run between them -/

/-- A text begins with a run of some bytes and one that closes it, and goes on behind that in some way. -/
def Runs (gap : UInt8 → Bool) (closing : UInt8) (goesOn : Bytes → Prop) (text : Bytes) : Prop :=
  ∃ run rest, text = run ++ closing :: rest ∧ (∀ b ∈ run, gap b = true) ∧ goesOn rest

/-- A byte stands somewhere in a text in front of something of some kind. -/
def StandsBefore (opening : UInt8) (follows : Bytes → Prop) (text : Bytes) : Prop :=
  ∃ front rest, text = front ++ opening :: rest ∧ follows rest

/-- A comma with white space only in front of it. -/
def ReachesComma : Bytes → Prop := Runs isBlankByte 44 fun _ => True

/-- The rest of a line, with its line feed, is spaces and tabs. -/
def EndsBlank : Bytes → Prop := Runs isIndent lineFeed fun _ => True

/-- Two commas with white space only between them. -/
def HasCommaPair : Bytes → Prop := StandsBefore 44 ReachesComma

/-- An opening bracket and a comma with white space only between them. -/
def HasLeadingComma : Bytes → Prop := StandsBefore 91 ReachesComma

/-- A line feed and, behind it, two lines of spaces and tabs with their line feeds. -/
def HasBlankLines : Bytes → Prop := StandsBefore lineFeed (Runs isIndent lineFeed EndsBlank)

/-- None of what a clean-up takes away. -/
structure IsClean (text : Bytes) : Prop where
  commas : ¬ HasCommaPair text
  leading : ¬ HasLeadingComma text
  lines : ¬ HasBlankLines text

theorem runs_cons_iff : Runs gap closing goesOn (b :: text) ↔
    b = closing ∧ goesOn text ∨ gap b = true ∧ Runs gap closing goesOn text := by
  constructor
  · rintro ⟨run, rest, split, each, own⟩
    cases run with
    | nil =>
      obtain ⟨rfl, rfl⟩ := List.cons.inj split
      exact .inl ⟨rfl, own⟩
    | cons c run =>
      obtain ⟨rfl, rfl⟩ := List.cons.inj split
      obtain ⟨first, others⟩ := List.forall_mem_cons.mp each
      exact .inr ⟨first, run, rest, rfl, others, own⟩
  · rintro (⟨rfl, own⟩ | ⟨first, run, rest, rfl, each, own⟩)
    · exact ⟨[], text, rfl, nofun, own⟩
    · exact ⟨b :: run, rest, rfl, List.forall_mem_cons.mpr ⟨first, each⟩, own⟩

/-- A run goes on over what belongs to it. -/
theorem Runs.prepend (runs : Runs gap closing goesOn text) (each : ∀ b ∈ front, gap b = true) :
    Runs gap closing goesOn (front ++ text) := by
  obtain ⟨run, rest, rfl, others, own⟩ := runs
  exact ⟨front ++ run, rest, (List.append_assoc _ _ _).symm, List.forall_mem_append.mpr ⟨each, others⟩, own⟩

theorem Runs.of_prepend (runs : Runs gap closing goesOn (front ++ text)) (other : closing ∉ front) :
    Runs gap closing goesOn text := by
  induction front with
  | nil => exact runs
  | cons c front shorter =>
    rcases runs_cons_iff.mp runs with ⟨rfl, -⟩ | ⟨-, runs⟩
    · exact absurd List.mem_cons_self other
    · exact shorter runs (List.not_mem_of_not_mem_cons other)

theorem standsBefore_cons_iff : StandsBefore opening follows (b :: text) ↔
    b = opening ∧ follows text ∨ StandsBefore opening follows text := by
  constructor
  · rintro ⟨front, rest, split, own⟩
    cases front with
    | nil =>
      obtain ⟨rfl, rfl⟩ := List.cons.inj split
      exact .inl ⟨rfl, own⟩
    | cons c front =>
      obtain ⟨rfl, rfl⟩ := List.cons.inj split
      exact .inr ⟨front, rest, rfl, own⟩
  · rintro (⟨rfl, own⟩ | ⟨front, rest, rfl, own⟩)
    · exact ⟨[], text, rfl, own⟩
    · exact ⟨b :: front, rest, rfl, own⟩

theorem not_standsBefore_nil : ¬ StandsBefore opening follows [] := by
  rintro ⟨front, rest, split, -⟩
  cases front <;> cases split

theorem StandsBefore.prepend (stands : StandsBefore opening follows text) (front : Bytes) :
    StandsBefore opening follows (front ++ text) := by
  obtain ⟨before, rest, rfl, own⟩ := stands
  exact ⟨front ++ before, rest, (List.append_assoc _ _ _).symm, own⟩

theorem StandsBefore.of_prepend (stands : StandsBefore opening follows (front ++ text)) (other : opening ∉ front) :
    StandsBefore opening follows text := by
  induction front with
  | nil => exact stands
  | cons c front shorter =>
    rcases standsBefore_cons_iff.mp stands with ⟨rfl, -⟩ | stands
    · exact absurd List.mem_cons_self other
    · exact shorter stands (List.not_mem_of_not_mem_cons other)

/-! ## Where the patterns match -/

/-- A pattern matches at a byte with something of some kind behind it, and nowhere else. -/
def Finds (pattern : Pattern UInt8) (opening : UInt8) (follows : Bytes → Prop) : Prop :=
  ∀ before b rest, pattern.ends ⟨before, b :: rest⟩ ≠ [] ↔ b = opening ∧ follows rest

theorem finds_seq_byte {second : Pattern UInt8}
    (behind : ∀ before rest, second.ends ⟨before, rest⟩ ≠ [] ↔ follows rest) :
    Finds (seq (byte opening) second) opening follows := by
  intro before b rest
  by_cases same : b = opening
  · subst same
    simp [ends, byte, ← behind (some b) rest]
  · simp [ends, byte, same]

theorem ends_seq_many_ne_nil_iff {second : Pattern UInt8}
    (behind : ∀ before rest, second.ends ⟨before, rest⟩ ≠ [] ↔ goesOn rest) (before : Option UInt8) (rest : Bytes) :
    (seq (many gap) (seq (byte closing) second)).ends ⟨before, rest⟩ ≠ [] ↔ Runs gap closing goesOn rest := by
  rw [ends_seq_ne_nil_iff]
  constructor
  · rintro ⟨run, later, rfl, each, closes⟩
    obtain ⟨closed, others, rfl, one, some_⟩ := ends_seq_ne_nil_iff.mp closes
    obtain ⟨c, rfl, same⟩ := matches_one_iff.mp one
    obtain rfl := of_decide_eq_true same
    exact ⟨run, others, rfl, matches_many_iff.mp each, (behind _ _).mp some_⟩
  · rintro ⟨run, others, rfl, each, own⟩
    have one : (byte closing).Matches (run.getLast?.or before) [closing] others :=
      matches_one_iff.mpr ⟨closing, rfl, decide_eq_true rfl⟩
    have closes := ends_seq_ne_nil_iff.mpr ⟨[closing], others, rfl, one, (behind _ _).mpr own⟩
    exact ⟨run, _, rfl, matches_many_iff.mpr each, closes⟩

theorem ends_star_ne_nil_iff (body : Pattern UInt8) (before : Option UInt8) (rest : Bytes) :
    (star body).ends ⟨before, rest⟩ ≠ [] ↔ True := iff_true_intro (ends_star_ne_nil body _)

theorem finds_orphanCommas : Finds orphanCommas 44 ReachesComma := by
  refine finds_seq_byte fun before rest => ?_
  have assoc : (seqs [seq (many isBlankByte) (byte 44), star (seq (many isBlankByte) (byte 44))]).ends ⟨before, rest⟩ =
      (seq (many isBlankByte) (seq (byte 44) (star (seq (many isBlankByte) (byte 44))))).ends ⟨before, rest⟩ :=
    List.flatMap_assoc
  rw [assoc]
  exact ends_seq_many_ne_nil_iff (ends_star_ne_nil_iff _) before rest

theorem finds_leadingComma : Finds leadingComma 91 ReachesComma := by
  refine finds_seq_byte fun before rest => ?_
  have closed : (seqs [many isBlankByte, byte 44]).ends ⟨before, rest⟩ =
      (seq (many isBlankByte) (seq (byte 44) nothing)).ends ⟨before, rest⟩ := by
    simp [seqs, ends]
  rw [closed]
  exact ends_seq_many_ne_nil_iff (fun _ _ => by simp [ends]) before rest

theorem finds_blankLines : Finds blankLines lineFeed (Runs isIndent lineFeed EndsBlank) :=
  finds_seq_byte <| ends_seq_many_ne_nil_iff <| ends_seq_many_ne_nil_iff <| ends_star_ne_nil_iff _

/-- Where nothing stands that a pattern finds, it matches nowhere. -/
theorem Finds.quiet_iff (finds : Finds pattern opening follows) :
    pattern.Quiet text [] ↔ ¬ StandsBefore opening follows text := by
  induction text with
  | nil => exact ⟨fun _ => not_standsBefore_nil, fun _ => quiet_nil _ _⟩
  | cons b text same =>
    rw [quiet_cons_iff, same, standsBefore_cons_iff, not_or, List.append_nil]
    refine and_congr_left fun _ => ⟨fun none_ own => ?_, fun free before => ?_⟩
    · exact (finds none b text).mpr own (none_ none)
    · exact Classical.not_not.mp (mt (finds before b text).mp free)

/-! ## One run of a pass -/

/-- A run in what a pass makes of a text stood in the text, if that holds for each match that is replaced. -/
theorem Runs.of_swept (runs : Runs gap closing goesOn output) (swept : Swept pattern replacement before text output)
    (inner : ∀ before text output, Swept pattern replacement before text output → goesOn output → goesOn text)
    (replaced : ∀ taken rest output, pattern.Takes taken → (Runs gap closing goesOn output → Runs gap closing goesOn rest) →
      Runs gap closing goesOn (replacement taken ++ output) → Runs gap closing goesOn (taken ++ rest)) :
    Runs gap closing goesOn text := by
  induction swept with
  | nil => exact runs
  | keep _ later kept =>
    rw [runs_cons_iff] at runs ⊢
    exact runs.imp (And.imp_right (inner _ _ _ later)) (And.imp_right kept)
  | replace prefers _ kept => exact replaced _ _ _ prefers.takes kept runs

/-- What stands in the output of a pass behind a byte that no replacement holds stood behind it in the text. -/
theorem StandsBefore.of_swept (stands : StandsBefore opening follows output)
    (swept : Swept pattern replacement before text output)
    (inner : ∀ before text output, Swept pattern replacement before text output → follows output → follows text)
    (other : ∀ taken, pattern.Takes taken → opening ∉ replacement taken) : StandsBefore opening follows text := by
  induction swept with
  | nil => exact stands
  | keep _ later kept =>
    rw [standsBefore_cons_iff] at stands ⊢
    exact stands.imp (And.imp_right (inner _ _ _ later)) kept
  | replace prefers _ kept => exact (kept (stands.of_prepend (other _ prefers.takes))).prepend _

/-- A pass leaves what it finds nowhere, unless the text had another fault: what is still found was there behind a byte
that is kept, so it would have been matched, or a replacement brought it about. -/
theorem Finds.fault_of_swept (fault : Bytes → Prop) (finds : Finds pattern opening follows)
    (swept : Swept pattern replacement before text output)
    (inner : ∀ before text output, Swept pattern replacement before text output → follows output → follows text)
    (grows : ∀ front text, fault text → fault (front ++ text))
    (replaced : ∀ before taken rest output, pattern.Prefers before taken rest →
      Swept pattern replacement (taken.getLast?.or before) rest output →
      StandsBefore opening follows (replacement taken ++ output) →
      StandsBefore opening follows output ∨ fault (taken ++ rest))
    (stands : StandsBefore opening follows output) : fault text := by
  induction swept with
  | nil => exact absurd stands not_standsBefore_nil
  | @keep before b rest output none_ later faulty =>
    rcases standsBefore_cons_iff.mp stands with ⟨same, own⟩ | stands
    · exact absurd none_ ((finds before b rest).mpr ⟨same, inner _ _ _ later own⟩)
    · exact grows [b] rest (faulty stands)
  | @replace before taken rest output prefers later faulty =>
    rcases replaced _ _ _ _ prefers later stands with stands | found
    · exact grows taken rest (faulty stands)
    · exact found

/-- Behind a repetition of runs with their ends stands no further one. -/
theorem not_runs_of_prefers_star (prefers : (star (seq (many gap) (byte closing))).Prefers before taken rest) :
    ¬ Runs gap closing (fun _ => True) rest := by
  rintro ⟨run, others, rfl, each, -⟩
  refine prefers.not_matches_of_star (List.append_cons _ _ _) (by simp) (matches_seq_iff.mpr ⟨run, [closing], rfl, ?_, ?_⟩)
  · exact matches_many_iff.mpr each
  · exact matches_one_iff.mpr ⟨closing, rfl, decide_eq_true rfl⟩

theorem takes_byte (takes : (byte b).Takes taken) : taken = [b] := by
  obtain ⟨c, rfl, same⟩ := takes
  rw [of_decide_eq_true same]

/-! ## Several commas -/

theorem swept_squeezeCommas (source : Bytes) : Swept orphanCommas (fun _ => [44]) none source (squeezeCommas source) :=
  swept_replaceAll matchLength?_seq_one_ne_zero source

theorem not_reachesComma_of_prefers (prefers : orphanCommas.Prefers before taken rest) : ¬ ReachesComma rest := by
  obtain ⟨_, _, -, -, prefers⟩ := prefers.of_seq
  obtain ⟨_, _, -, -, prefers⟩ := prefers.of_seq
  exact not_runs_of_prefers_star prefers

theorem reachesComma_of_squeezed (swept : Swept orphanCommas (fun _ => [44]) before text output)
    (reaches : ReachesComma output) : ReachesComma text := by
  refine Runs.of_swept reaches swept (fun _ _ _ _ => id) fun taken rest _ takes _ _ => ?_
  obtain ⟨_, more, rfl, comma, -⟩ := takes
  rw [takes_byte comma]
  exact ⟨[], more ++ rest, rfl, nofun, trivial⟩

theorem not_hasCommaPair_squeezeCommas (source : Bytes) : ¬ HasCommaPair (squeezeCommas source) := by
  refine finds_orphanCommas.fault_of_swept (fun _ => False) (swept_squeezeCommas source)
    (fun _ _ _ => reachesComma_of_squeezed) (fun _ _ => id) fun _ _ _ _ prefers later stands => ?_
  rcases standsBefore_cons_iff.mp stands with ⟨-, reaches⟩ | stands
  · exact absurd (reachesComma_of_squeezed later reaches) (not_reachesComma_of_prefers prefers)
  · exact .inl stands

/-! ## Commas behind an opening bracket -/

theorem swept_dropLeadingCommas (source : Bytes) : Swept leadingComma List.dropLast none source (dropLeadingCommas source) :=
  swept_replaceAll matchLength?_seq_one_ne_zero source

theorem takes_leadingComma (takes : leadingComma.Takes taken) :
    ∃ blanks, taken = 91 :: (blanks ++ [44]) ∧ taken.dropLast = 91 :: blanks ∧ ∀ b ∈ blanks, isBlankByte b = true := by
  obtain ⟨_, _, rfl, bracket, blanks, _, rfl, blank, comma⟩ := takes
  obtain rfl := takes_byte bracket
  obtain rfl := takes_byte comma
  exact ⟨blanks, rfl, by rw [← List.append_assoc, List.dropLast_concat]; rfl, blank⟩

theorem notMem_of_blank {bytes : Bytes} (blank : ∀ b ∈ bytes, isBlankByte b = true) (dark : isBlankByte b = false) :
    b ∉ bytes := fun mem => Bool.false_ne_true (dark.symm.trans (blank b mem))

section Led

variable (swept : Swept leadingComma List.dropLast before text output)
include swept

theorem reachesComma_of_led (reaches : ReachesComma output) : ReachesComma text := by
  refine Runs.of_swept reaches swept (fun _ _ _ _ => id) fun taken rest output takes _ runs => ?_
  obtain ⟨blanks, rfl, same, -⟩ := takes_leadingComma takes
  rw [same] at runs
  rcases runs_cons_iff.mp runs with ⟨comma, -⟩ | ⟨blank, -⟩
  · cases comma
  · cases blank

theorem hasCommaPair_of_led (pair : HasCommaPair output) : HasCommaPair text := by
  refine StandsBefore.of_swept pair swept (fun _ _ _ => reachesComma_of_led) fun taken takes => ?_
  obtain ⟨blanks, -, same, blank⟩ := takes_leadingComma takes
  rw [same]
  exact List.not_mem_cons_of_ne_of_not_mem (by decide) (notMem_of_blank blank rfl)

/-- A comma that is still behind an opening bracket stood behind another one. -/
theorem hasCommaPair_of_hasLeadingComma (leading : HasLeadingComma output) : HasCommaPair text := by
  refine finds_leadingComma.fault_of_swept HasCommaPair swept (fun _ _ _ => reachesComma_of_led)
    (fun _ _ pair => pair.prepend _) (fun _ taken rest output prefers later stands => ?_) leading
  obtain ⟨blanks, rfl, same, blank⟩ := takes_leadingComma prefers.takes
  rw [same] at stands
  rcases standsBefore_cons_iff.mp stands with ⟨-, reaches⟩ | stands
  · have behind := reachesComma_of_led later (reaches.of_prepend (notMem_of_blank blank rfl))
    exact .inr ⟨91 :: blanks, rest, by simp, behind⟩
  · exact .inl (stands.of_prepend (notMem_of_blank blank rfl))

end Led

/-! ## Blank lines -/

theorem swept_squeezeLines (source : Bytes) :
    Swept blankLines (fun _ => [lineFeed, lineFeed]) none source (squeezeLines source) :=
  swept_replaceAll matchLength?_seq_one_ne_zero source

theorem not_endsBlank_of_prefers (prefers : blankLines.Prefers before taken rest) : ¬ EndsBlank rest := by
  obtain ⟨_, _, -, -, prefers⟩ := prefers.of_seq
  obtain ⟨_, _, -, -, prefers⟩ := prefers.of_seq
  obtain ⟨_, _, -, -, prefers⟩ := prefers.of_seq
  obtain ⟨_, _, -, -, prefers⟩ := prefers.of_seq
  obtain ⟨_, _, -, -, prefers⟩ := prefers.of_seq
  exact not_runs_of_prefers_star prefers

/-- Blank lines that are squeezed begin with a line feed and two lines of spaces and tabs. -/
theorem takes_blankLines (takes : blankLines.Takes taken) :
    ∃ others, taken = lineFeed :: others ∧ Runs isIndent lineFeed EndsBlank others := by
  obtain ⟨_, _, rfl, feed, spaces, _, rfl, indent, _, _, rfl, next, more, _, rfl, further, _, others, rfl, last, -⟩ := takes
  obtain rfl := takes_byte feed
  obtain rfl := takes_byte next
  obtain rfl := takes_byte last
  exact ⟨_, rfl, spaces, _, rfl, indent, more, others, rfl, further, trivial⟩

section Lined

variable (swept : Swept blankLines (fun _ => [lineFeed, lineFeed]) before text output)
include swept

theorem reachesComma_of_lined (reaches : ReachesComma output) : ReachesComma text := by
  refine Runs.of_swept reaches swept (fun _ _ _ _ => id) fun taken rest output takes kept runs => ?_
  have breaks : ∀ b ∈ [lineFeed, lineFeed], isBlankByte b = true :=
    List.forall_mem_cons.mpr ⟨rfl, List.forall_mem_singleton.mpr rfl⟩
  have blank : ∀ b ∈ taken, isBlankByte b = true := (loosened_of_takes takes).forall_mem breaks fun _ => id
  exact (kept (runs.of_prepend (by decide))).prepend blank

theorem endsBlank_of_lined (ends : EndsBlank output) : EndsBlank text := by
  refine Runs.of_swept ends swept (fun _ _ _ _ => id) fun taken rest output takes _ _ => ?_
  obtain ⟨others, rfl, -⟩ := takes_blankLines takes
  exact ⟨[], others ++ rest, rfl, nofun, trivial⟩

theorem linesBlank_of_lined (runs : Runs isIndent lineFeed EndsBlank output) : Runs isIndent lineFeed EndsBlank text := by
  refine runs.of_swept swept (fun _ _ _ => endsBlank_of_lined) fun taken rest output takes _ _ => ?_
  obtain ⟨others, rfl, line, more, rfl, indent, -⟩ := takes_blankLines takes
  exact ⟨[], _, rfl, nofun, line, more ++ rest, List.append_assoc _ _ _, indent, trivial⟩

theorem hasCommaPair_of_lined (pair : HasCommaPair output) : HasCommaPair text :=
  StandsBefore.of_swept pair swept (fun _ _ _ => reachesComma_of_lined) fun _ _ => by decide

theorem hasLeadingComma_of_lined (leading : HasLeadingComma output) : HasLeadingComma text :=
  StandsBefore.of_swept leading swept (fun _ _ _ => reachesComma_of_lined) fun _ _ => by decide

end Lined

theorem not_hasBlankLines_squeezeLines (source : Bytes) : ¬ HasBlankLines (squeezeLines source) := by
  refine finds_blankLines.fault_of_swept (fun _ => False) (swept_squeezeLines source)
    (fun _ _ _ => linesBlank_of_lined) (fun _ _ => id) fun _ _ _ output prefers later stands => ?_
  have free : ¬ EndsBlank output := mt (endsBlank_of_lined later) (not_endsBlank_of_prefers prefers)
  rcases standsBefore_cons_iff.mp stands with ⟨-, lines⟩ | stands
  · rcases runs_cons_iff.mp lines with ⟨-, ends⟩ | ⟨indent, -⟩
    · exact absurd ends free
    · cases indent
  · rcases standsBefore_cons_iff.mp stands with ⟨-, line, more, rfl, indent, -⟩ | stands
    · exact absurd ⟨line, more, rfl, indent, trivial⟩ free
    · exact .inl stands

/-! ## All passes -/

theorem isClean_cleanUp (source : Bytes) : IsClean (cleanUp source) := by
  have single := not_hasCommaPair_squeezeCommas source
  have led := swept_dropLeadingCommas (squeezeCommas source)
  have lined := swept_squeezeLines (dropLeadingCommas (squeezeCommas source))
  constructor
  case commas => exact fun pair => single (hasCommaPair_of_led led (hasCommaPair_of_lined lined pair))
  case leading => exact fun leading => single (hasCommaPair_of_hasLeadingComma led (hasLeadingComma_of_lined lined leading))
  case lines => exact not_hasBlankLines_squeezeLines _

theorem IsClean.cleanUp_eq (clean : IsClean text) : cleanUp text = text := by
  have commas : squeezeCommas text = text := replaceAll_of_quiet _ (finds_orphanCommas.quiet_iff.mpr clean.commas)
  have leading : dropLeadingCommas text = text := replaceAll_of_quiet _ (finds_leadingComma.quiet_iff.mpr clean.leading)
  have lines : squeezeLines text = text := replaceAll_of_quiet _ (finds_blankLines.quiet_iff.mpr clean.lines)
  rw [cleanUp, commas, leading, lines]

/-- A clean-up leaves a clean text, which a second one leaves as it is. It drops commas and white space only, and nothing of
a text that is clean. -/
theorem clean_up_reaches_normal_form (source : Bytes) :
    IsClean (cleanUp source) ∧ cleanUp (cleanUp source) = cleanUp source ∧ (cleanUp source = source ↔ IsClean source) ∧
      Thinned (fun b => isFilling b = true) source (cleanUp source) := by
  have clean := isClean_cleanUp source
  refine ⟨clean, clean.cleanUp_eq, ⟨fun same => ?_, IsClean.cleanUp_eq⟩, thinned_cleanUp source⟩
  rwa [same] at clean

example : cleanUp (encode "[ , a,\n, b\n \n\t\nc]") = encode "[  a, b\n\nc]" := by decide

end Scaffold.Edit
