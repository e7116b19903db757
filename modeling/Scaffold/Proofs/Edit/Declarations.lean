import Mathlib.Tactic.ByContra
import Scaffold.Proofs.Edit.Squeezing
import Scaffold.Proofs.Text.Words
import Scaffold.Syntax.Terminal

/-! # Import declarations in the three shapes

A declaration brings in a name as the default, brings in names in braces, or loads a module only. A pattern of a name
matches one from its beginning to its end, and only where it is of the shape of the pattern and brings in the name. No match
begins within it.
-/

namespace Scaffold.Edit

open Scaffold.Text Scaffold.Syntax Pattern

/-- White space, perhaps none. -/
structure Space where
  bytes : Bytes
  blank : ∀ b ∈ bytes, isBlankByte b = true

/-- White space between two words. -/
structure Gap extends Space where
  some_ : bytes ≠ []

structure Identifier where
  name : String
  some_ : name.toList ≠ []
  whole : ∀ c ∈ name.toList, isNameBreak c = false

/-- What stands between the braces of an import: identifiers, white space and commas. -/
structure Bindings where
  text : List Char
  plain : ∀ c ∈ text, isNameBreak c = true → isSeparator c = true ∨ c = ','

/-- A module between quotes. -/
structure ModuleName where
  quote : UInt8
  quotes : isQuote quote = true
  bytes : Bytes
  some_ : bytes ≠ []
  plain : ∀ b ∈ bytes, isBlankByte b = false ∧ isQuote b = false ∧ b ≠ 123

def ModuleName.text (source : ModuleName) : Bytes := source.quote :: (source.bytes ++ [source.quote])

/-- An import declaration, up to its module. -/
inductive Import where
  | default (first : Gap) (name : Identifier) (second third : Gap) (source : ModuleName)
  | braced (first : Space) (bindings : Bindings) (second : Space) (third : Gap) (source : ModuleName)
  | effect (gap : Gap) (source : ModuleName)

/-- A whole identifier of a text: no character in front of it or behind it belongs to it. -/
def IsIdentifierOf (text name : List Char) : Prop :=
  ∃ front back, text = front ++ (name ++ back) ∧ front.getLast?.all isNameBreak = true ∧ back.head?.all isNameBreak = true

instance (text name : List Char) : Decidable (IsIdentifierOf text name) :=
  decidable_of_iff (∃ index < text.length + 1,
      text = text.take index ++ (name ++ text.drop (index + name.length)) ∧
        (text.take index).getLast?.all isNameBreak = true ∧
        (text.drop (index + name.length)).head?.all isNameBreak = true) <| by
    constructor
    · rintro ⟨index, -, split, begins, ends⟩
      exact ⟨_, _, split, begins, ends⟩
    · rintro ⟨front, back, rfl, begins, ends⟩
      have parts : (front ++ (name ++ back)).drop (front.length + name.length) = back := by
        rw [← List.append_assoc, ← List.length_append, List.drop_left]
      refine ⟨front.length, Nat.lt_succ_of_le (List.prefix_append front _).length_le, ?_⟩
      rw [List.take_left, parts]
      exact ⟨rfl, begins, ends⟩

/-- A character of ASCII that goes on with a name. -/
def isNameChar (c : Char) : Bool := c.toNat < 0x80 && isNameByte c.toNat.toUInt8

namespace Import

def shape : Import → Shape
  | default .. => .default
  | braced .. => .braced
  | effect .. => .effect

def text : Import → Bytes
  | default first name second third source =>
    encode "import" ++ (first.bytes ++ (encode name.name ++ (second.bytes ++ (encode "from" ++ (third.bytes ++ source.text)))))
  | braced first bindings second third source =>
    encode "import" ++ (first.bytes ++ (123 :: (encodeChars bindings.text ++ (125 :: (second.bytes ++
      (encode "from" ++ (third.bytes ++ source.text)))))))
  | effect gap source => encode "import" ++ (gap.bytes ++ source.text)

/-- Whether a declaration brings in a name, or loads the module of that name. -/
def Brings (own : Identifier) : Import → Prop
  | default _ name _ _ _ => name.name = own.name
  | braced _ bindings _ _ _ => IsIdentifierOf bindings.text own.name.toList
  | effect _ source => source.bytes = encode own.name

instance (own : Identifier) (declaration : Import) : Decidable (declaration.Brings own) :=
  match declaration with
  | default _ name _ _ _ => inferInstanceAs (Decidable (name.name = own.name))
  | braced _ bindings _ _ _ => inferInstanceAs (Decidable (IsIdentifierOf bindings.text own.name.toList))
  | effect _ source => inferInstanceAs (Decidable (source.bytes = encode own.name))

/-- Where no character of ASCII goes on with a name, none does. -/
def Sharp (own : Identifier) : Import → Prop
  | braced _ bindings _ _ _ => ∀ front back, bindings.text = front ++ (own.name.toList ++ back) →
      front.getLast?.any isNameChar = false → back.head?.any isNameChar = false →
      front.getLast?.all isNameBreak = true ∧ back.head?.all isNameBreak = true
  | _ => True

end Import

/-! ## Bytes of names -/

/-- A byte that stands for itself ends a name, where it is white space, a quote or a brace. -/
theorem isNameBreak_of_toNat_eq {c : Char} {b : UInt8} (same : c.toNat = b.toNat)
    (special : isBlankByte b = true ∨ isQuote b = true ∨ b = 123 ∨ b = 125) : isNameBreak c = true := by
  obtain rfl : c = Char.ofNat b.toNat := by rw [← same, Char.ofNat_toNat]
  clear same
  simp only [isBlankByte, isQuote, Bool.or_eq_true, Bool.and_eq_true, decide_eq_true_eq, UInt8.le_iff_toNat_le,
    ← UInt8.toNat_inj] at special
  simp only [UInt8.reduceToNat] at special
  rcases special with (⟨least, most⟩ | eq) | (eq | eq) | eq | eq
  · have : b.toNat = 9 ∨ b.toNat = 10 ∨ b.toNat = 11 ∨ b.toNat = 12 ∨ b.toNat = 13 := by omega
    rcases this with eq | eq | eq | eq | eq <;> rw [eq] <;> decide
  all_goals rw [eq]; decide

/-- A byte that is neither white space nor a quote nor a brace. -/
def IsInner (b : UInt8) : Prop := isBlankByte b = false ∧ isQuote b = false ∧ b ≠ 123 ∧ b ≠ 125

theorem not_isInner_iff {b : UInt8} :
    ¬ IsInner b ↔ isBlankByte b = true ∨ isQuote b = true ∨ b = 123 ∨ b = 125 := by
  simp only [IsInner, not_and_or, Bool.not_eq_false, ne_eq, not_not]

theorem toNat_lt_of_not_isInner {b : UInt8} (special : ¬ IsInner b) : b.toNat < 0x80 := by
  rw [not_isInner_iff] at special
  simp only [isBlankByte, isQuote, Bool.or_eq_true, Bool.and_eq_true, decide_eq_true_eq, UInt8.le_iff_toNat_le,
    ← UInt8.toNat_inj, UInt8.reduceToNat] at special
  omega

theorem Identifier.isInner (own : Identifier) : ∀ b ∈ encode own.name, IsInner b := by
  intro b mem
  by_contra special
  obtain ⟨c, inName, same⟩ := exists_mem_of_mem_encodeChars mem (toNat_lt_of_not_isInner special)
  have breaks := isNameBreak_of_toNat_eq same (not_isInner_iff.mp special)
  rw [own.whole c inName] at breaks
  cases breaks

/-- In the braces there is white space, but neither a quote nor a brace. -/
theorem Bindings.plain_bytes (bindings : Bindings) : ∀ b ∈ encodeChars bindings.text, isQuote b = false ∧ b ≠ 123 ∧ b ≠ 125 := by
  intro b mem
  by_contra marks
  simp only [not_and_or, Bool.not_eq_false, ne_eq, not_not] at marks
  obtain ⟨c, inText, same⟩ := exists_mem_of_mem_encodeChars mem (toNat_lt_of_not_isInner (not_isInner_iff.mpr (.inr marks)))
  have breaks := isNameBreak_of_toNat_eq same (.inr marks)
  obtain rfl : c = Char.ofNat b.toNat := by rw [← same, Char.ofNat_toNat]
  have either := bindings.plain _ inText breaks
  simp only [isQuote, Bool.or_eq_true, decide_eq_true_eq] at marks
  rcases marks with (rfl | rfl) | rfl | rfl <;> revert either <;> decide

theorem Identifier.exists_cons (own : Identifier) :
    ∃ b rest, encode own.name = b :: rest ∧ IsInner b := by
  obtain ⟨c, others, eq⟩ := List.exists_cons_of_ne_nil own.some_
  obtain ⟨b, more, bytes, -⟩ := encodeChar_eq_cons c
  have whole : encode own.name = b :: (more ++ encodeChars others) := by
    rw [encode, eq, encodeChars_cons, bytes, List.cons_append]
  exact ⟨b, _, whole, own.isInner b (by rw [whole]; exact List.mem_cons_self)⟩

theorem Identifier.eq_of_encode {own other : Identifier} (same : encode own.name = encode other.name) : own.name = other.name :=
  String.toList_inj.mp (encodeChars_inj same)

/-- Two texts that begin with runs of accepted elements begin with the same one. -/
theorem eq_of_runs {α : Type} {accepts : α → Bool} {first second rest more : List α} (same : first ++ rest = second ++ more)
    (own : ∀ x ∈ first, accepts x = true) (other : ∀ x ∈ second, accepts x = true)
    (ends : rest.head?.any accepts = false) (closes : more.head?.any accepts = false) : first = second ∧ rest = more := by
  induction first generalizing second with
  | nil =>
    cases second with
    | nil => exact ⟨rfl, same⟩
    | cons x second =>
      obtain rfl : rest = x :: (second ++ more) := same
      rw [List.head?_cons, Option.any_some, other x List.mem_cons_self] at ends
      cases ends
  | cons x first later =>
    cases second with
    | nil =>
      obtain rfl : x :: (first ++ rest) = more := same
      rw [List.head?_cons, Option.any_some, own x List.mem_cons_self] at closes
      cases closes
    | cons y second =>
      obtain ⟨rfl, behind⟩ := List.cons.inj same
      obtain ⟨rfl, eq⟩ := later behind (fun x mem => own x (List.mem_cons_of_mem _ mem))
        fun x mem => other x (List.mem_cons_of_mem _ mem)
      exact ⟨rfl, eq⟩

/-! ## Where a match begins -/

/-- The shape of an import is that of the first byte behind its word and white space. -/
def shapeOf (b : UInt8) : Shape := if b = 123 then .braced else if isQuote b then .effect else .default

/-- How an import goes on behind its word. -/
structure Leads (shape : Shape) (bytes gap : Bytes) (b : UInt8) (rest : Bytes) : Prop where
  split : bytes = encode "import" ++ (gap ++ b :: rest)
  blank : ∀ c ∈ gap, isBlankByte c = true
  dark : isBlankByte b = false
  some_ : gap ≠ [] ∨ b = 123
  eq : shapeOf b = shape

variable {own : Identifier} {shape : Shape} {taken rest : Bytes}

theorem shapeOf_of_isInner {b : UInt8} (inner : IsInner b) : shapeOf b = .default := by
  rw [shapeOf, if_neg inner.2.2.1, inner.2.1]
  rfl

theorem shapeOf_of_isQuote {b : UInt8} (quote : isQuote b = true) : shapeOf b = .effect := by
  have other : b ≠ 123 := by
    rintro rfl
    cases quote
  rw [shapeOf, if_neg other, if_pos quote]

theorem isBlankByte_of_isQuote {b : UInt8} (quote : isQuote b = true) : isBlankByte b = false := by
  cases blank : isBlankByte b with
  | false => rfl
  | true =>
    rw [not_isQuote_of_isBlankByte blank] at quote
    cases quote

theorem Imports.leads (imports : Imports (encode own.name) shape taken) : ∃ gap b rest, Leads shape taken gap b rest := by
  cases imports with
  | default gap =>
    obtain ⟨b, rest, eq, inner⟩ := own.exists_cons
    exact ⟨_, b, _, by rw [eq]; rfl, gap.2, inner.1, .inl gap.1, shapeOf_of_isInner inner⟩
  | braced gap => exact ⟨_, 123, _, rfl, gap, rfl, .inr rfl, rfl⟩
  | effect gap opens => exact ⟨_, _, _, rfl, gap.2, isBlankByte_of_isQuote opens, .inl gap.1, shapeOf_of_isQuote opens⟩

theorem Import.leads (declaration : Import) : ∃ gap b rest, Leads declaration.shape declaration.text gap b rest := by
  cases declaration with
  | default first name =>
    obtain ⟨b, rest, eq, inner⟩ := name.exists_cons
    exact ⟨_, b, _, by rw [text, eq]; rfl, first.blank, inner.1, .inl first.some_, shapeOf_of_isInner inner⟩
  | braced first => exact ⟨_, 123, _, rfl, first.blank, rfl, .inr rfl, rfl⟩
  | effect gap source =>
    exact ⟨_, _, _, rfl, gap.blank, isBlankByte_of_isQuote source.quotes, .inl gap.some_, shapeOf_of_isQuote source.quotes⟩

/-! ## What a match takes -/

theorem isNameByte_of_mem_encodeChar {c : Char} {b : UInt8} (mem : b ∈ encodeChar c) : isNameByte b = isNameChar c := by
  have large (least : 0x80 ≤ b.toNat) : isNameByte b = false := by
    cases named : isNameByte b with
    | false => rfl
    | true =>
      simp only [isNameByte, isWordByte, Bool.or_eq_true, Bool.and_eq_true, decide_eq_true_eq, UInt8.le_iff_toNat_le,
        ← UInt8.toNat_inj, UInt8.reduceToNat] at named
      omega
  rw [isNameChar]
  rcases mem_encodeChar mem with same | ⟨least, least'⟩
  · by_cases small : c.toNat < 0x80
    · rw [decide_eq_true small, Bool.true_and, ← same]
      exact congrArg isNameByte (UInt8.ofNat_toNat).symm
    · rw [decide_eq_false small, Bool.false_and, large (by omega)]
  · rw [decide_eq_false (Nat.not_lt.mpr least), Bool.false_and, large least']

theorem head?_encodeChars_any (text : List Char) : (encodeChars text).head?.any isNameByte = text.head?.any isNameChar := by
  cases text with
  | nil => rfl
  | cons c text =>
    obtain ⟨b, others, eq, -⟩ := encodeChar_eq_cons c
    rw [encodeChars_cons, eq]
    exact isNameByte_of_mem_encodeChar (by rw [eq]; exact List.mem_cons_self)

theorem getLast?_encodeChars_any (text : List Char) :
    (encodeChars text).getLast?.any isNameByte = text.getLast?.any isNameChar := by
  rcases List.eq_nil_or_concat text with rfl | ⟨front, c, rfl⟩
  · rfl
  · obtain ⟨b, others, eq, -⟩ := encodeChar_eq_cons c
    obtain ⟨last, found⟩ := Option.ne_none_iff_exists'.mp (mt List.getLast?_eq_none_iff.mp (eq ▸ List.cons_ne_nil b others))
    rw [List.concat_eq_append, encodeChars_append, encodeChars_singleton, List.getLast?_append, found, Option.some_or,
      List.getLast?_concat]
    exact isNameByte_of_mem_encodeChar (List.mem_of_getLast? found)

theorem not_isNameChar_of_isNameBreak {c : Char} (breaks : isNameBreak c = true) : isNameChar c = false := by
  have each : ∀ code < 0x80, isNameByte code.toUInt8 = true → isNameBreak (Char.ofNat code) = false := by decide +kernel
  cases named : isNameChar c with
  | false => rfl
  | true =>
    rw [isNameChar, Bool.and_eq_true, decide_eq_true_eq] at named
    have whole := each c.toNat named.1 named.2
    rw [Char.ofNat_toNat, breaks] at whole
    cases whole

/-- Among characters of ASCII, a name is bounded as the pattern has it. -/
theorem Import.sharp_of_ascii {declaration : Import} (own : Identifier)
    (ascii : ∀ first bindings second third source, declaration = braced first bindings second third source →
      ∀ c ∈ bindings.text, c.toNat < 0x7F) : declaration.Sharp own := by
  have each : ∀ code < 0x7F, isNameByte code.toUInt8 = true ∨ isNameBreak (Char.ofNat code) = true := by decide +kernel
  cases declaration with
  | default => exact trivial
  | effect => exact trivial
  | braced first bindings second third source =>
    have bounds {c : Char} (mem : c ∈ bindings.text) (other : isNameChar c = false) : isNameBreak c = true := by
      have small := ascii first bindings second third source rfl c mem
      rw [isNameChar, decide_eq_true (show c.toNat < 0x80 by omega), Bool.true_and] at other
      have breaks := (each c.toNat small).resolve_left (by rw [other]; exact Bool.false_ne_true)
      rwa [Char.ofNat_toNat] at breaks
    intro front back eq begins ends
    rw [eq] at bounds
    constructor
    · cases last : front.getLast? with
      | none => rfl
      | some c =>
        rw [last] at begins
        exact bounds (List.mem_append_left _ (List.mem_of_getLast? last)) begins
    · cases head : back.head? with
      | none => rfl
      | some c =>
        rw [head] at ends
        exact bounds (List.mem_append_right _ (List.mem_append_right _ (List.mem_of_mem_head? head))) ends

theorem ModuleName.isQuoted (source : ModuleName) : IsQuoted source.text :=
  ⟨_, _, _, rfl, source.quotes, source.quotes, source.some_, fun b mem => (source.plain b mem).2.1⟩

/-- A declaration is an import of each name that it brings in. -/
theorem Import.imports_of_brings {declaration : Import} (brings : declaration.Brings own) :
    Imports (encode own.name) declaration.shape declaration.text := by
  cases declaration with
  | default first name second third source =>
    rw [← show name.name = own.name from brings]
    exact .default ⟨first.some_, first.blank⟩ ⟨second.some_, second.blank⟩ ⟨third.some_, third.blank⟩ source.isQuoted
  | braced first bindings second third source =>
    obtain ⟨front, back, eq, begins, ends⟩ := brings
    have outside {text : List Char} (part : ∀ c ∈ text, c ∈ bindings.text) : ∀ b ∈ encodeChars text, isNotBrace b = true := by
      intro b mem
      obtain ⟨c, inPart, mem⟩ := List.mem_flatMap.mp mem
      rw [isNotBrace, decide_eq_true_eq]
      exact (bindings.plain_bytes b (List.mem_flatMap.mpr ⟨c, part c inPart, mem⟩)).2.2
    have unnamed {last : Option Char} (all : last.all isNameBreak = true) : last.any isNameChar = false := by
      cases last with
      | none => rfl
      | some c => exact not_isNameChar_of_isNameBreak all
    have parts : encodeChars bindings.text = encodeChars front ++ (encode own.name ++ encodeChars back) := by
      rw [eq, encodeChars_append, encodeChars_append]
      rfl
    rw [text, parts, List.append_assoc, List.append_assoc]
    refine .braced first.blank (outside fun c mem => ?_) ?_ ?_ (outside fun c mem => ?_) second.blank
      ⟨third.some_, third.blank⟩ source.isQuoted
    · rw [eq]
      exact List.mem_append_left _ mem
    · rw [getLast?_encodeChars_any]
      exact unnamed begins
    · have first := head?_encodeChars_any back
      rw [unnamed ends] at first
      cases bytes : encodeChars back with
      | nil => decide
      | cons b others =>
        rw [bytes] at first
        exact first
    · rw [eq]
      exact List.mem_append_right _ (List.mem_append_right _ mem)
  | effect gap source =>
    rw [text, ModuleName.text, show source.bytes = encode own.name from brings]
    exact .effect ⟨gap.some_, gap.blank⟩ source.quotes source.quotes

variable {declaration : Import} {more : Bytes}

/-- Behind the word and white space, the first byte is that of one shape only. -/
theorem Import.shape_eq (imports : Imports (encode own.name) shape taken) (same : declaration.text ++ rest = taken ++ more) :
    shape = declaration.shape := by
  obtain ⟨gap, b, later, leads⟩ := imports.leads
  obtain ⟨gap', b', later', leads'⟩ := declaration.leads
  rw [leads.split, leads'.split] at same
  simp only [List.append_assoc, List.cons_append] at same
  have behind := (eq_of_runs (List.append_cancel_left same) leads'.blank leads.blank leads'.dark leads.dark).2
  rw [← leads.eq, ← leads'.eq, (List.cons.inj behind).1]

theorem not_any_of_isQuote {b : UInt8} (quote : isQuote b = true) (tail : Bytes) :
    (b :: tail).head?.any (fun b => !isQuote b) = false := by
  rw [List.head?_cons, Option.any_some, quote]
  rfl

/-- A quoted module ends with its second quote. -/
theorem ModuleName.eq_text {source : ModuleName} {bytes : Bytes} (quoted : IsQuoted bytes)
    (same : source.text ++ rest = bytes ++ more) : bytes = source.text := by
  obtain ⟨opening, inner, closing, rfl, -, closes, -, plain⟩ := quoted
  simp only [text, List.cons_append, List.append_assoc, List.nil_append] at same
  obtain ⟨rfl, behind⟩ := List.cons.inj same
  obtain ⟨rfl, rest⟩ := @eq_of_runs _ (fun b => !isQuote b) _ _ _ _ behind
    (fun b mem => by rw [(source.plain b mem).2.1]; rfl) (fun b mem => by rw [plain b mem]; rfl)
    (not_any_of_isQuote source.quotes _) (not_any_of_isQuote closes _)
  rw [text, (List.cons.inj rest).1]

/-- Behind the keyword for the module, white space and the module are those of the declaration. -/
theorem eq_of_from {third : Gap} {source : ModuleName} {last bytes : Bytes} (gap : IsGap last) (quoted : IsQuoted bytes)
    (same : encode "from" ++ (third.bytes ++ (source.text ++ rest)) = encode "from" ++ (last ++ (bytes ++ more))) :
    last = third.bytes ∧ bytes = source.text := by
  have dark : isBlankByte source.quote = false := isBlankByte_of_isQuote source.quotes
  have closes : (bytes ++ more).head?.any isBlankByte = false := by
    obtain ⟨opening, inner, closing, rfl, opens, -⟩ := quoted
    exact isBlankByte_of_isQuote opens
  obtain ⟨rfl, behind⟩ := eq_of_runs (List.append_cancel_left same) third.blank gap.2 dark closes
  exact ⟨rfl, ModuleName.eq_text quoted behind⟩

theorem from_not_blank (rest : Bytes) : (encode "from" ++ rest).head?.any isBlankByte = false := rfl

theorem Identifier.not_blank (own : Identifier) (rest : Bytes) : (encode own.name ++ rest).head?.any isBlankByte = false := by
  obtain ⟨b, others, eq, inner⟩ := own.exists_cons
  rw [eq]
  exact inner.1

theorem Gap.not_dark (gap : Gap) (rest : Bytes) : (gap.bytes ++ rest).head?.any (fun b => !isBlankByte b) = false := by
  obtain ⟨b, others, eq⟩ := List.exists_cons_of_ne_nil gap.some_
  rw [eq, List.cons_append, List.head?_cons, Option.any_some, gap.blank b (by rw [eq]; exact List.mem_cons_self)]
  rfl

theorem IsGap.not_dark {bytes : Bytes} (gap : IsGap bytes) (rest : Bytes) :
    (bytes ++ rest).head?.any (fun b => !isBlankByte b) = false :=
  Gap.not_dark ⟨⟨bytes, gap.2⟩, gap.1⟩ rest

theorem Identifier.dark (own : Identifier) : ∀ b ∈ encode own.name, (!isBlankByte b) = true := by
  intro b mem
  rw [(own.isInner b mem).1]
  rfl

/-- A match takes the whole declaration, and the declaration brings in the name. -/
theorem Import.eq_text (sharp : declaration.Sharp own) (imports : Imports (encode own.name) declaration.shape taken)
    (same : declaration.text ++ rest = taken ++ more) : taken = declaration.text ∧ declaration.Brings own := by
  cases declaration with
  | default first name second third source =>
    cases imports with
    | default gap behind last quoted =>
      simp only [text, List.append_assoc] at same
      obtain ⟨rfl, inName⟩ := eq_of_runs (List.append_cancel_left same) first.blank gap.2 (name.not_blank _) (own.not_blank _)
      obtain ⟨names, inSecond⟩ := eq_of_runs inName name.dark own.dark (second.not_dark _) (behind.not_dark _)
      obtain ⟨rfl, inFrom⟩ := eq_of_runs inSecond second.blank behind.2 (from_not_blank _) (from_not_blank _)
      obtain ⟨rfl, rfl⟩ := eq_of_from last quoted inFrom
      exact ⟨by rw [text, names], Identifier.eq_of_encode names⟩
  | braced first bindings second third source =>
    cases imports with
    | @braced _ front back _ _ _ gap inFront begins ends inside behind last quoted =>
      simp only [text, List.append_assoc, List.cons_append] at same
      obtain ⟨rfl, inBraces⟩ := eq_of_runs (List.append_cancel_left same) first.blank gap rfl rfl
      obtain ⟨-, inner⟩ := List.cons.inj inBraces
      rw [← List.append_assoc (encode own.name) back, ← List.append_assoc front] at inner
      have plain : ∀ b ∈ encodeChars bindings.text, isNotBrace b = true :=
        fun b mem => decide_eq_true (bindings.plain_bytes b mem).2.2
      have plain' : ∀ b ∈ front ++ (encode own.name ++ back), isNotBrace b = true :=
        List.forall_mem_append.mpr ⟨inFront, List.forall_mem_append.mpr
          ⟨fun b mem => decide_eq_true (own.isInner b mem).2.2.2, inside⟩⟩
      obtain ⟨braces, outside⟩ := eq_of_runs inner plain plain' rfl rfl
      obtain ⟨rfl, inFrom⟩ := eq_of_runs (List.cons.inj outside).2 second.blank behind rfl rfl
      obtain ⟨rfl, rfl⟩ := eq_of_from last quoted inFrom
      refine ⟨by rw [text, braces]; simp only [List.append_assoc], ?_⟩
      obtain ⟨before, after, eq, rfl, rfl⟩ := exists_of_encodeChars_eq own.some_ braces
      rw [getLast?_encodeChars_any] at begins
      have closes : after.head?.any isNameChar = false := by
        rw [← head?_encodeChars_any]
        cases bytes : encodeChars after with
        | nil => rfl
        | cons b others =>
          rw [bytes] at ends
          exact ends
      exact ⟨before, after, eq, sharp before after eq begins closes⟩
  | effect gap source =>
    cases imports with
    | @effect _ opening closing between opens closes =>
      simp only [text, ModuleName.text, List.append_assoc, List.cons_append, List.nil_append] at same
      obtain ⟨rfl, quoted⟩ := eq_of_runs (List.append_cancel_left same) gap.blank between.2
        (isBlankByte_of_isQuote source.quotes) (isBlankByte_of_isQuote opens)
      obtain ⟨rfl, inner⟩ := List.cons.inj quoted
      obtain ⟨names, behind⟩ := @eq_of_runs _ (fun b => !isQuote b) _ _ _ _ inner
        (fun b mem => by rw [(source.plain b mem).2.1]; rfl) (fun b mem => by rw [(own.isInner b mem).2.1]; rfl)
        (not_any_of_isQuote source.quotes _) (not_any_of_isQuote closes _)
      obtain ⟨rfl, -⟩ := List.cons.inj behind
      exact ⟨by rw [text, ModuleName.text, names], names⟩

/-! ## No match within a declaration -/

variable {bytes word back : Bytes}

/-- No import of a name begins in a stretch of a text. -/
theorem quiet_of_no_import (free : ∀ front b back taken more, bytes = front ++ b :: back →
    b :: back ++ rest = taken ++ more → ¬ Imports (encode own.name) shape taken) :
    (shape.pattern (encode own.name)).Quiet bytes rest := by
  intro front b back split before
  refine (ends_pattern_eq_nil_iff shape).mpr fun taken more same => free front b back taken more split ?_
  rw [List.cons_append, same]

theorem quiet_of_not_mem (absent : (105 : UInt8) ∉ bytes) (rest : Bytes) :
    (shape.pattern (encode own.name)).Quiet bytes rest := by
  refine quiet_of_no_import fun front b back taken more split same imports => ?_
  obtain ⟨later, rfl⟩ := imports.eq_append
  have first : b = 105 := (List.cons.inj same).1
  rw [split, first] at absent
  exact absent (List.mem_append_right front List.mem_cons_self)

theorem quiet_of_blank (blank : ∀ b ∈ bytes, isBlankByte b = true) (rest : Bytes) :
    (shape.pattern (encode own.name)).Quiet bytes rest :=
  quiet_of_not_mem (fun mem => absurd (blank 105 mem) (by decide)) rest

theorem quiet_of_isQuote {b : UInt8} (quote : isQuote b = true) (rest : Bytes) :
    (shape.pattern (encode own.name)).Quiet [b] rest := by
  refine quiet_of_not_mem (fun mem => ?_) rest
  rw [← List.mem_singleton.mp mem] at quote
  cases quote

/-- A word that cannot go on behind a stretch stands in it. -/
theorem exists_of_word {accepts : UInt8 → Bool} (same : back ++ rest = word ++ more) (each : ∀ b ∈ word, accepts b = true)
    (ends : rest.head?.any accepts = false) : ∃ inner, back = word ++ inner ∧ inner ++ rest = more := by
  rcases List.append_eq_append_iff.mp same with ⟨inner, rfl, rfl⟩ | ⟨inner, rfl, rfl⟩
  · cases inner with
    | nil => exact ⟨[], by rw [List.append_nil, List.append_nil], rfl⟩
    | cons b inner =>
      rw [List.cons_append, List.head?_cons, Option.any_some, each b (by simp)] at ends
      cases ends
  · exact ⟨inner, rfl, rfl⟩

/-- Behind its word, an import goes on with white space or a brace. -/
theorem Imports.head_eq (imports : Imports (encode own.name) shape taken) {b : UInt8}
    (same : taken ++ more = encode "import" ++ b :: rest) : isBlankByte b = true ∨ b = 123 := by
  obtain ⟨gap, c, later, leads⟩ := imports.leads
  rw [leads.split, List.append_assoc, List.append_assoc] at same
  have behind := List.append_cancel_left same
  cases eq : gap with
  | nil =>
    rw [eq] at behind
    obtain ⟨rfl, -⟩ := List.cons.inj behind
    exact .inr (leads.some_.resolve_left fun some_ => some_ eq)
  | cons d others =>
    rw [eq] at behind
    obtain ⟨rfl, -⟩ := List.cons.inj behind
    exact .inl (leads.blank d (by rw [eq]; exact List.mem_cons_self))

/-- In the name of a module there is neither white space nor a brace. -/
theorem ModuleName.quiet (source : ModuleName) (rest : Bytes) :
    (shape.pattern (encode own.name)).Quiet source.bytes (source.quote :: rest) := by
  refine quiet_of_no_import fun front b back taken more split same imports => ?_
  obtain ⟨later, eq⟩ := imports.eq_append
  have unquoted : ∀ b ∈ encode "import", (!isQuote b) = true := by decide +kernel
  rw [eq, List.append_assoc] at same
  obtain ⟨inner, parts, behind⟩ := exists_of_word same unquoted (not_any_of_isQuote source.quotes rest)
  rw [parts] at split
  cases inner with
  | nil =>
    have head : taken ++ more = encode "import" ++ source.quote :: rest := by
      rw [eq, List.append_assoc, ← behind]
      rfl
    have other := imports.head_eq head
    rw [isBlankByte_of_isQuote source.quotes] at other
    have quotes := source.quotes
    rw [other.resolve_left (by decide)] at quotes
    cases quotes
  | cons c inner =>
    have head : taken ++ more = encode "import" ++ c :: (inner ++ source.quote :: rest) := by
      rw [eq, List.append_assoc, ← behind]
      rfl
    have plain := source.plain c (by rw [split]; simp)
    have other := imports.head_eq head
    rw [plain.1] at other
    exact plain.2.2 (other.resolve_left (by decide))

/-- An identifier may end in the word, and then the keyword for the module follows. -/
theorem Identifier.quiet (name : Identifier) (second third : Gap) (source : ModuleName) (rest : Bytes) :
    (shape.pattern (encode own.name)).Quiet (encode name.name)
      (second.bytes ++ (encode "from" ++ (third.bytes ++ (source.text ++ rest)))) := by
  refine quiet_of_no_import fun front b back taken more split same imports => ?_
  obtain ⟨later, eq⟩ := imports.eq_append
  have dark : ∀ b ∈ encode "import", (!isBlankByte b) = true := by decide +kernel
  have same' := same
  rw [eq, List.append_assoc] at same'
  obtain ⟨inner, parts, behind⟩ := exists_of_word same' dark (second.not_dark _)
  rw [parts] at split same
  cases inner with
  | nil =>
    rw [List.append_nil] at same
    obtain ⟨gap, c, later, leads⟩ := imports.leads
    have at_ := same
    rw [leads.split, List.append_assoc, List.append_assoc] at at_
    obtain ⟨rfl, inFrom⟩ := eq_of_runs (List.append_cancel_left at_) second.blank leads.blank (from_not_blank _) leads.dark
    obtain ⟨rfl, -⟩ := List.cons.inj inFrom
    obtain rfl : .default = shape := leads.eq
    cases imports with
    | default gap behind' last quoted =>
      simp only [List.append_assoc] at same
      obtain ⟨-, inName⟩ := eq_of_runs (List.append_cancel_left same) second.blank gap.2 (from_not_blank _) (own.not_blank _)
      have word : ∀ b ∈ encode "from", (!isBlankByte b) = true := by decide +kernel
      obtain ⟨-, inThird⟩ := eq_of_runs inName word own.dark (third.not_dark _) (behind'.not_dark _)
      obtain ⟨-, inSource⟩ := eq_of_runs inThird third.blank behind'.2 (isBlankByte_of_isQuote source.quotes) (from_not_blank _)
      have quotes := source.quotes
      rw [(List.cons.inj inSource).1] at quotes
      cases quotes
  | cons c inner =>
    have head : taken ++ more = encode "import" ++
        c :: (inner ++ (second.bytes ++ (encode "from" ++ (third.bytes ++ (source.text ++ rest))))) := by
      rw [← same, List.append_assoc]
      rfl
    have plain := name.isInner c (by rw [split]; simp)
    have other := imports.head_eq head
    rw [plain.1] at other
    exact plain.2.2.1 (other.resolve_left (by decide))

/-- A quote or a brace. -/
def isMark (b : UInt8) : Bool := isQuote b || b = 123 || b = 125

theorem isMark_eq_false_iff {b : UInt8} : isMark b = false ↔ isQuote b = false ∧ b ≠ 123 ∧ b ≠ 125 := by
  simp only [isMark, Bool.or_eq_false_iff, decide_eq_false_iff_not, ne_eq, and_assoc]

theorem not_isMark_of_isBlankByte {b : UInt8} (blank : isBlankByte b = true) : isMark b = false := by
  refine isMark_eq_false_iff.mpr ⟨not_isQuote_of_isBlankByte blank, ?_, ?_⟩ <;>
  · rintro rfl
    cases blank

/-- The first mark of an import is not a closing brace. -/
theorem Imports.mark (imports : Imports (encode own.name) shape taken) : ∃ inner b later,
    taken = inner ++ b :: later ∧ (∀ c ∈ inner, isMark c = false) ∧ isMark b = true ∧ b ≠ 125 := by
  have word : ∀ c ∈ encode "import", isMark c = false := by decide +kernel
  have quoted {b : UInt8} (quote : isQuote b = true) : isMark b = true ∧ b ≠ 125 := by
    refine ⟨by rw [isMark, quote]; rfl, ?_⟩
    rintro rfl
    cases quote
  cases imports with
  | @default first second third _ gap behind last quoted' =>
    obtain ⟨opening, inner, closing, rfl, opens, -⟩ := quoted'
    refine ⟨encode "import" ++ (first ++ (encode own.name ++ (second ++ (encode "from" ++ third)))), opening, _,
      by simp only [List.append_assoc]; rfl, ?_, quoted opens⟩
    simp only [List.forall_mem_append]
    exact ⟨word, fun c mem => not_isMark_of_isBlankByte (gap.2 c mem),
      fun c mem => isMark_eq_false_iff.mpr (own.isInner c mem).2, fun c mem => not_isMark_of_isBlankByte (behind.2 c mem),
      by decide +kernel, fun c mem => not_isMark_of_isBlankByte (last.2 c mem)⟩
  | @braced first _ _ _ _ _ gap =>
    refine ⟨encode "import" ++ first, 123, _, by rw [List.append_assoc], ?_, rfl, by decide⟩
    exact List.forall_mem_append.mpr ⟨word, fun c mem => not_isMark_of_isBlankByte (gap c mem)⟩
  | @effect gap opening _ between opens =>
    refine ⟨encode "import" ++ gap, opening, _, by rw [List.append_assoc], ?_, quoted opens⟩
    exact List.forall_mem_append.mpr ⟨word, fun c mem => not_isMark_of_isBlankByte (between.2 c mem)⟩

/-- What stands in braces goes on with the closing one. -/
theorem Bindings.quiet (bindings : Bindings) (rest : Bytes) :
    (shape.pattern (encode own.name)).Quiet (encodeChars bindings.text) (125 :: rest) := by
  refine quiet_of_no_import fun front b back taken more split same imports => ?_
  obtain ⟨inner, c, later, rfl, plain, mark, other⟩ := imports.mark
  have inside : ∀ d ∈ b :: back, (!isMark d) = true := by
    intro d mem
    rw [isMark_eq_false_iff.mpr (bindings.plain_bytes d (by rw [split]; exact List.mem_append_right _ mem))]
    rfl
  rw [List.append_assoc] at same
  obtain ⟨-, behind⟩ := @eq_of_runs _ (fun d => !isMark d) _ _ _ _ same inside (fun d mem => by rw [plain d mem]; rfl) rfl
    (by rw [List.cons_append, List.head?_cons, Option.any_some, mark]; rfl)
  exact other (List.cons.inj behind).1.symm

theorem ModuleName.quiet_text (source : ModuleName) (rest : Bytes) :
    (shape.pattern (encode own.name)).Quiet source.text rest := by
  rw [text, ← List.singleton_append]
  exact quiet_append_iff.mpr ⟨quiet_of_isQuote source.quotes _,
    quiet_append_iff.mpr ⟨source.quiet rest, quiet_of_isQuote source.quotes _⟩⟩

/-- No match begins within a declaration. -/
theorem Import.exists_quiet (declaration : Import) : ∃ tail, declaration.text = 105 :: tail ∧
    ∀ (own : Identifier) (shape : Shape) rest, (shape.pattern (encode own.name)).Quiet tail rest := by
  have word : encode "import" = 105 :: encode "mport" := by decide
  have rest_ : (105 : UInt8) ∉ encode "mport" := by decide
  have from_ : (105 : UInt8) ∉ encode "from" := by decide
  cases declaration with
  | default first name second third source =>
    refine ⟨encode "mport" ++ (first.bytes ++ (encode name.name ++ (second.bytes ++ (encode "from" ++ (third.bytes ++
      source.text))))), by rw [text, word]; rfl, fun own shape rest => ?_⟩
    simp only [quiet_append_iff, List.append_assoc]
    exact ⟨quiet_of_not_mem rest_ _, quiet_of_blank first.blank _, Identifier.quiet name second third source rest,
      quiet_of_blank second.blank _, quiet_of_not_mem from_ _, quiet_of_blank third.blank _, source.quiet_text rest⟩
  | braced first bindings second third source =>
    refine ⟨encode "mport" ++ (first.bytes ++ ([123] ++ (encodeChars bindings.text ++ ([125] ++ (second.bytes ++
      (encode "from" ++ (third.bytes ++ source.text))))))), by rw [text, word]; rfl, fun own shape rest => ?_⟩
    simp only [quiet_append_iff, List.append_assoc]
    exact ⟨quiet_of_not_mem rest_ _, quiet_of_blank first.blank _, quiet_of_not_mem (by decide) _, bindings.quiet _,
      quiet_of_not_mem (by decide) _, quiet_of_blank second.blank _, quiet_of_not_mem from_ _, quiet_of_blank third.blank _,
      source.quiet_text rest⟩
  | effect gap source =>
    refine ⟨encode "mport" ++ (gap.bytes ++ source.text), by rw [text, word]; rfl, fun own shape rest => ?_⟩
    simp only [quiet_append_iff]
    exact ⟨quiet_of_not_mem rest_ _, quiet_of_blank gap.blank _, source.quiet_text rest⟩

/-- No match begins in a declaration of another shape, or one that does not bring in the name. -/
theorem Import.quiet (sharp : declaration.Sharp own) (apart : ¬ (declaration.shape = shape ∧ declaration.Brings own))
    (rest : Bytes) : (shape.pattern (encode own.name)).Quiet declaration.text rest := by
  obtain ⟨tail, eq, quiet⟩ := declaration.exists_quiet
  rw [eq]
  refine quiet_cons_iff.mpr ⟨fun before => ?_, quiet own shape rest⟩
  refine (ends_pattern_eq_nil_iff shape).mpr fun taken more same imports => apart ?_
  have whole : declaration.text ++ rest = taken ++ more := by rw [eq, List.cons_append, same]
  obtain rfl := Import.shape_eq imports whole
  exact ⟨rfl, (Import.eq_text sharp imports whole).2⟩

/-- Behind the word of a declaration of another form stands a second word, which is not the keyword for the module: such as
a star, a name and a comma, or the mark of an import of types. -/
theorem not_imports_of_word {gap word second bytes : Bytes} {b c : UInt8} (spaces : IsGap gap)
    (dark : ∀ d ∈ b :: word, isBlankByte d = false) (plain : shapeOf b = .default) (behind : IsGap second)
    (other : isBlankByte c = false ∧ c ≠ 102)
    (same : encode "import" ++ (gap ++ (b :: word ++ (second ++ c :: bytes))) = taken ++ rest) :
    ¬ Imports (encode own.name) shape taken := by
  intro imports
  obtain ⟨first, d, later, leads⟩ := imports.leads
  have lead := same
  rw [leads.split, List.append_assoc, List.append_assoc] at lead
  obtain ⟨-, behindGap⟩ := eq_of_runs (List.append_cancel_left lead) spaces.2 leads.blank (dark b List.mem_cons_self) leads.dark
  obtain ⟨rfl, -⟩ := List.cons.inj behindGap
  obtain rfl : .default = shape := plain.symm.trans leads.eq
  cases imports with
  | default first' second' last quoted =>
    simp only [List.append_assoc] at same
    obtain ⟨-, inWord⟩ := eq_of_runs (List.append_cancel_left same) spaces.2 first'.2 (dark b List.mem_cons_self)
      (own.not_blank _)
    obtain ⟨-, inSecond⟩ := eq_of_runs inWord (fun d mem => by rw [dark d mem]; rfl) own.dark (behind.not_dark _)
      (second'.not_dark _)
    obtain ⟨-, inThird⟩ := eq_of_runs inSecond behind.2 second'.2 other.1 (from_not_blank _)
    exact other.2 (List.cons.inj inThird).1

end Scaffold.Edit
