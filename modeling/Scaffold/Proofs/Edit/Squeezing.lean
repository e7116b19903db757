import Scaffold.Proofs.Edit.ImportShapes
import Scaffold.Proofs.Text.Boundaries

/-! # Imports in a text whose blank lines are squeezed

Of each run of blank lines one is left. That takes white space out in front of line feeds only, and white space may be put
in there again: what imports a name afterwards did so before.
-/

namespace Scaffold.Edit

open Scaffold.Text Pattern

/-- A text with white space put in, each time in front of a line feed. -/
inductive Loosened : Bytes → Bytes → Prop
  | nil : Loosened [] []
  | keep (b : UInt8) {tight loose : Bytes} (rest : Loosened tight loose) : Loosened (b :: tight) (b :: loose)
  | fill {b : UInt8} {tight loose : Bytes} (blank : isBlankByte b = true) (rest : Loosened (lineFeed :: tight) loose) :
      Loosened (lineFeed :: tight) (b :: loose)

namespace Loosened

variable {tight loose front back more text : Bytes} {accepts : UInt8 → Bool}

theorem append (first : Loosened tight loose) (second : Loosened back more) : Loosened (tight ++ back) (loose ++ more) := by
  induction first with
  | nil => exact second
  | keep b _ rest => exact .keep b rest
  | fill blank _ rest => exact .fill blank rest

theorem split (loosened : Loosened (front ++ back) text) :
    ∃ first second, text = first ++ second ∧ Loosened front first ∧ Loosened back second := by
  generalize whole : front ++ back = tight at loosened
  induction loosened generalizing front with
  | nil =>
    obtain ⟨rfl, rfl⟩ := List.append_eq_nil_iff.mp whole
    exact ⟨[], [], rfl, .nil, .nil⟩
  | keep b rest parts =>
    cases front with
    | nil =>
      obtain rfl : back = _ := whole
      exact ⟨[], _, rfl, .nil, .keep b rest⟩
    | cons c front =>
      obtain ⟨rfl, eq⟩ := List.cons.inj whole
      obtain ⟨first, second, rfl, own, others⟩ := parts eq
      exact ⟨c :: first, second, rfl, .keep c own, others⟩
  | @fill b _ _ blank rest parts =>
    cases front with
    | nil =>
      obtain rfl : back = _ := whole
      exact ⟨[], _, rfl, .nil, .fill blank rest⟩
    | cons c front =>
      obtain ⟨rfl, -⟩ := List.cons.inj whole
      obtain ⟨first, second, rfl, own, others⟩ := parts whole
      exact ⟨b :: first, second, rfl, .fill blank own, others⟩

/-- Without a line feed there is nothing to put white space in front of. -/
theorem eq_of_not_mem (loosened : Loosened tight loose) (noFeed : lineFeed ∉ tight) : loose = tight := by
  induction loosened with
  | nil => rfl
  | keep b _ same => rw [same (List.not_mem_of_not_mem_cons noFeed)]
  | fill => exact absurd List.mem_cons_self noFeed

/-- What has no line feed in it is left. -/
theorem split_of_not_mem (loosened : Loosened (front ++ back) text) (noFeed : lineFeed ∉ front) :
    ∃ second, text = front ++ second ∧ Loosened back second := by
  obtain ⟨first, second, rfl, own, others⟩ := loosened.split
  exact ⟨second, by rw [own.eq_of_not_mem noFeed], others⟩

theorem forall_mem {holds : UInt8 → Prop} (loosened : Loosened tight loose) (each : ∀ b ∈ tight, holds b)
    (blanks : ∀ b, isBlankByte b = true → holds b) : ∀ b ∈ loose, holds b := by
  induction loosened with
  | nil => exact nofun
  | keep b _ others =>
    obtain ⟨own, later⟩ := List.forall_mem_cons.mp each
    exact List.forall_mem_cons.mpr ⟨own, others later⟩
  | fill blank _ others => exact List.forall_mem_cons.mpr ⟨blanks _ blank, others each⟩

theorem ne_nil (loosened : Loosened tight loose) (some_ : tight ≠ []) : loose ≠ [] := by
  cases loosened with
  | nil => exact some_
  | keep => exact List.cons_ne_nil _ _
  | fill => exact List.cons_ne_nil _ _

/-- The last byte is one that was there. -/
theorem getLast?_eq (loosened : Loosened tight loose) : loose.getLast? = tight.getLast? := by
  induction loosened with
  | nil => rfl
  | keep b _ same => rw [List.getLast?_cons, List.getLast?_cons, same]
  | @fill b tight loose _ rest same =>
    obtain ⟨c, others, rfl⟩ := List.exists_cons_of_ne_nil (rest.ne_nil (List.cons_ne_nil _ _))
    rw [List.getLast?_cons_cons, same]

/-- The first byte was there, or is a blank. -/
theorem head?_any (loosened : Loosened tight loose) (first : tight.head?.any accepts = false)
    (blanks : ∀ b, isBlankByte b = true → accepts b = false) : loose.head?.any accepts = false := by
  cases loosened with
  | nil => rfl
  | keep => exact first
  | fill blank => exact blanks _ blank

theorem isGap (loosened : Loosened tight loose) (gap : IsGap tight) : IsGap loose :=
  ⟨loosened.ne_nil gap.1, loosened.forall_mem gap.2 fun _ blank => blank⟩

theorem thinned (loosened : Loosened tight loose) : Thinned (fun b => isBlankByte b = true) loose tight := by
  induction loosened with
  | nil => exact .nil
  | keep b _ rest => exact .keep b rest
  | fill blank _ rest => exact .drop blank rest

end Loosened

variable {name tight loose text : Bytes} {shape : Shape}

theorem not_isQuote_of_isBlankByte {b : UInt8} (blank : isBlankByte b = true) : isQuote b = false := by
  cases quote : isQuote b with
  | false => rfl
  | true =>
    simp only [isQuote, Bool.or_eq_true, decide_eq_true_eq] at quote
    rcases quote with rfl | rfl <;> cases blank

theorem not_isNameByte_of_isBlankByte {b : UInt8} (blank : isBlankByte b = true) : isNameByte b = false := by
  simp only [isBlankByte, Bool.or_eq_true, Bool.and_eq_true, decide_eq_true_eq] at blank
  simp only [isNameByte, isWordByte, Bool.or_eq_false_iff, Bool.and_eq_false_iff, decide_eq_false_iff_not]
  grind

theorem isNotBrace_of_isBlankByte {b : UInt8} (blank : isBlankByte b = true) : isNotBrace b = true := by
  rw [isNotBrace, decide_eq_true_eq]
  rintro rfl
  cases blank

theorem lineFeed_not_mem_of_isQuote {b : UInt8} (quote : isQuote b = true) : lineFeed ∉ [b] := by
  rw [List.mem_singleton]
  rintro rfl
  cases quote

theorem Loosened.isQuoted (loosened : Loosened tight loose) (quoted : IsQuoted tight) : IsQuoted loose := by
  obtain ⟨opening, inner, closing, rfl, opens, closes, some_, plain⟩ := quoted
  rw [← List.singleton_append] at loosened
  obtain ⟨_, rfl, others⟩ := loosened.split_of_not_mem (lineFeed_not_mem_of_isQuote opens)
  obtain ⟨middle, _, rfl, between, last⟩ := others.split
  obtain rfl := last.eq_of_not_mem (lineFeed_not_mem_of_isQuote closes)
  exact ⟨opening, middle, closing, rfl, opens, closes, between.ne_nil some_,
    between.forall_mem plain fun _ => not_isQuote_of_isBlankByte⟩

/-- White space in front of line feeds leaves an import of a name one. -/
theorem Imports.loosen (imports : Imports name shape tight) (noFeed : lineFeed ∉ name) (loosened : Loosened tight loose) :
    Imports name shape loose := by
  have import_ : lineFeed ∉ encode "import" := by decide
  have from_ : lineFeed ∉ encode "from" := by decide
  cases imports with
  | default gap behind last quoted =>
    obtain ⟨_, rfl, behindWord⟩ := loosened.split_of_not_mem import_
    obtain ⟨_, _, rfl, first, behindGap⟩ := behindWord.split
    obtain ⟨_, rfl, behindName⟩ := behindGap.split_of_not_mem noFeed
    obtain ⟨_, _, rfl, second, behindSecond⟩ := behindName.split
    obtain ⟨_, rfl, behindFrom⟩ := behindSecond.split_of_not_mem from_
    obtain ⟨_, _, rfl, third, source⟩ := behindFrom.split
    exact .default (first.isGap gap) (second.isGap behind) (third.isGap last) (source.isQuoted quoted)
  | @braced _ front back _ _ _ gap inFront begins ends inside behind last quoted =>
    have opening : lineFeed ∉ ([123] : Bytes) := by decide
    have closing : lineFeed ∉ ([125] : Bytes) := by decide
    rw [← List.singleton_append, ← List.singleton_append (x := 125)] at loosened
    obtain ⟨_, rfl, behindWord⟩ := loosened.split_of_not_mem import_
    obtain ⟨_, _, rfl, first, behindGap⟩ := behindWord.split
    obtain ⟨_, rfl, behindOpening⟩ := behindGap.split_of_not_mem opening
    obtain ⟨_, _, rfl, before, behindFront⟩ := behindOpening.split
    obtain ⟨_, rfl, behindName⟩ := behindFront.split_of_not_mem noFeed
    obtain ⟨more, _, rfl, after, behindBack⟩ := behindName.split
    obtain ⟨_, rfl, behindClosing⟩ := behindBack.split_of_not_mem closing
    obtain ⟨_, _, rfl, second, behindSecond⟩ := behindClosing.split
    obtain ⟨_, rfl, behindFrom⟩ := behindSecond.split_of_not_mem from_
    obtain ⟨_, _, rfl, third, source⟩ := behindFrom.split
    have continued : (more ++ [125]).head?.any isNameByte = false :=
      (after.append (.keep 125 .nil)).head?_any ends fun _ => not_isNameByte_of_isBlankByte
    have unbraced {tight loose : Bytes} (loosened : Loosened tight loose) (each : ∀ b ∈ tight, isNotBrace b = true) :
        ∀ b ∈ loose, isNotBrace b = true := loosened.forall_mem each fun _ => isNotBrace_of_isBlankByte
    exact .braced (first.forall_mem gap fun _ blank => blank) (unbraced before inFront) (by rwa [before.getLast?_eq])
      continued (unbraced after inside) (second.forall_mem behind fun _ blank => blank) (third.isGap last)
      (source.isQuoted quoted)
  | @effect _ opening closing between opens closes =>
    rw [← List.singleton_append] at loosened
    obtain ⟨_, rfl, behindWord⟩ := loosened.split_of_not_mem import_
    obtain ⟨_, _, rfl, gap, behindGap⟩ := behindWord.split
    obtain ⟨_, rfl, behindOpening⟩ := behindGap.split_of_not_mem (lineFeed_not_mem_of_isQuote opens)
    obtain ⟨_, rfl, last⟩ := behindOpening.split_of_not_mem noFeed
    obtain rfl := last.eq_of_not_mem (lineFeed_not_mem_of_isQuote closes)
    exact .effect (gap.isGap between) opens closes

/-- Between the first line feed and the last one of blank lines there is white space. -/
theorem loosened_of_takes {taken : Bytes} (takes : blankLines.Takes taken) : Loosened [lineFeed, lineFeed] taken := by
  have fills (spaces : Bytes) (blank : ∀ b ∈ spaces, isBlankByte b = true) :
      Loosened [lineFeed, lineFeed] (lineFeed :: (spaces ++ [lineFeed])) := by
    refine .keep lineFeed ?_
    induction spaces with
    | nil => exact .keep lineFeed .nil
    | cons b spaces filled =>
      obtain ⟨own, others⟩ := List.forall_mem_cons.mp blank
      exact .fill own (filled others)
  have indents {bytes : Bytes} (each : ∀ b ∈ bytes, isIndent b = true) : ∀ b ∈ bytes, isBlankByte b = true :=
    fun b mem => isBlankByte_of_isIndent (each b mem)
  have feed : isBlankByte lineFeed = true := rfl
  simp only [blankLines, seqs, byte, Takes, decide_eq_true_eq, exists_eq_right] at takes
  obtain ⟨_, _, rfl, rfl, spaces, _, rfl, indent, _, _, rfl, rfl, more, _, rfl, further, _, _, rfl, rfl, parts, rfl, each⟩ := takes
  have front : ∀ b ∈ spaces ++ lineFeed :: more, isBlankByte b = true :=
    List.forall_mem_append.mpr ⟨indents indent, List.forall_mem_cons.mpr ⟨feed, indents further⟩⟩
  rcases List.eq_nil_or_concat parts with rfl | ⟨parts, last, rfl⟩
  · have filled := fills (spaces ++ lineFeed :: more) front
    simpa using filled
  · rw [List.concat_eq_append] at each ⊢
    have part {bytes : Bytes} (mem : bytes ∈ parts ++ [last]) :
        ∃ inner, bytes = inner ++ [lineFeed] ∧ ∀ b ∈ inner, isBlankByte b = true := by
      obtain ⟨inner, _, rfl, indent, rfl⟩ := each bytes mem
      exact ⟨inner, rfl, indents indent⟩
    obtain ⟨inner, rfl, blank⟩ := part (List.mem_append_right _ List.mem_cons_self)
    have middle : ∀ b ∈ parts.flatten, isBlankByte b = true := by
      intro b mem
      obtain ⟨bytes, inParts, mem⟩ := List.mem_flatten.mp mem
      obtain ⟨own, rfl, blank⟩ := part (List.mem_append_left _ inParts)
      exact (List.forall_mem_append.mpr ⟨blank, List.forall_mem_singleton.mpr feed⟩) b mem
    have filled := fills (spaces ++ lineFeed :: more ++ lineFeed :: (parts.flatten ++ inner)) <|
      List.forall_mem_append.mpr ⟨front, List.forall_mem_cons.mpr ⟨feed, List.forall_mem_append.mpr ⟨middle, blank⟩⟩⟩
    simpa using filled

/-- Of a run of blank lines one is left. -/
theorem loosened_squeezeLines (source : Bytes) : Loosened (squeezeLines source) source :=
  @related_replaceFrom UInt8 (fun source output => Loosened output source) blankLines (fun _ => [lineFeed, lineFeed])
    .nil (fun b => .keep b .nil) (fun _ _ _ _ front back => front.append back) (fun _ => loosened_of_takes) _ none 0 source

/-- No character is cut when lines are squeezed. -/
theorem isEncoded_squeezeLines {source : Bytes} (encoded : IsEncoded source) : IsEncoded (squeezeLines source) :=
  encoded.thinned (loosened_squeezeLines source).thinned fun _ => toNat_lt_of_isBlankByte

/-- An import of a name stands in a text. -/
def HasImport (name : Bytes) (shape : Shape) (text : Bytes) : Prop :=
  ∃ front own rest, text = front ++ (own ++ rest) ∧ Imports name shape own

theorem quiet_iff_not_hasImport : (shape.pattern name).Quiet text [] ↔ ¬ HasImport name shape text := by
  constructor
  · rintro quiet ⟨front, own, rest, rfl, imports⟩
    obtain ⟨later, rfl⟩ := imports.eq_append
    have here := quiet front 105 (encode "mport" ++ later ++ rest) rfl none
    rw [List.append_nil] at here
    exact (ends_pattern_eq_nil_iff shape).mp here _ rest rfl imports
  · rintro free front b back rfl before
    refine (ends_pattern_eq_nil_iff shape).mpr fun own rest split imports => free ⟨front, own, rest, ?_, imports⟩
    rw [← split, List.append_nil]

/-- A text with no import of a name is left. -/
theorem removeAll_of_not_hasImport (free : ¬ HasImport name shape text) : (shape.pattern name).removeAll text = text :=
  replaceAll_of_quiet _ (quiet_iff_not_hasImport.mpr free)

/-- Squeezing blank lines makes no import of a name. -/
theorem HasImport.of_squeezeLines (noFeed : lineFeed ∉ name) (has : HasImport name shape (squeezeLines text)) :
    HasImport name shape text := by
  obtain ⟨front, own, rest, split, imports⟩ := has
  have loosened := loosened_squeezeLines text
  rw [split] at loosened
  obtain ⟨first, _, rfl, -, others⟩ := loosened.split
  obtain ⟨middle, last, rfl, inner, -⟩ := others.split
  exact ⟨first, middle, last, rfl, imports.loosen noFeed inner⟩

end Scaffold.Edit
