import Scaffold.Proofs.Edit.EntryShapes
import Scaffold.Proofs.Edit.Squeezing

/-! # Entries that appear by a removal

A removal puts together what stands on both sides of an entry. Another entry appears by that only where something that an
entry begins with stands in front of the one that goes, or where parentheses were nested too deep before. Commas and
blank lines that are taken away afterwards make no entry appear.
-/

namespace Scaffold.Edit

open Scaffold.Text Pattern

variable {before : Option UInt8} {text source output rest : Bytes} {target : EntryTarget}

/-! ## Removals -/

/-- What an entry begins with: a name with an opening parenthesis, or all of a literal. -/
inductive IsHead : EntryTarget → Bytes → Prop
  | plugin {name : String} {gap : Bytes} (blank : ∀ b ∈ gap, isBlankByte b = true) :
      IsHead (.plugin name) (encode name ++ (gap ++ [40]))
  | literal {value : String} {first last : UInt8} (opens : isQuote first = true) (closes : isQuote last = true) :
      IsHead (.literal value) (first :: (encode value ++ [last]))

theorem IsEntry.exists_head {entry : Bytes} (isEntry : IsEntry target entry) :
    ∃ head more, entry = head ++ more ∧ IsHead target head := by
  cases isEntry with
  | @plugin name gap inner blank closes => exact ⟨encode name ++ (gap ++ [40]), inner, by simp, .plugin blank⟩
  | literal opens closes => exact ⟨_, [], (List.append_nil _).symm, .literal opens closes⟩

/-- A part that an entry begins with, but less than tells it from other text. -/
def Begins (target : EntryTarget) (part : Bytes) : Prop := part ≠ [] ∧ ∃ more, more ≠ [] ∧ IsHead target (part ++ more)

/-- Every place where an entry seems to begin is the beginning of one, so parentheses are closed and nested at most once.
And in front of an entry and the blanks before it stands no part that an entry begins with. -/
structure IsParted (target : EntryTarget) (source : Bytes) : Prop where
  closed : ∀ front head rest, source = front ++ (head ++ rest) → IsHead target head → target.MayFollow front.getLast? →
    ∃ entry more, head ++ rest = entry ++ more ∧ IsEntry target entry
  apart : ∀ front part blanks entry rest, source = front ++ (part ++ (blanks ++ (entry ++ rest))) →
    (∀ b ∈ blanks, isIndent b = true) → IsEntry target entry →
    target.MayFollow ((part ++ blanks).getLast?.or front.getLast?) → ¬ Begins target part

theorem EntryTarget.mayFollow_of_not_isJoint (target : EntryTarget) {b : UInt8} (apart : isJoint b = false) :
    target.MayFollow (some b) := by
  cases target
  · exact apart
  · trivial

theorem not_isJoint_of_isTailByte {b : UInt8} (tail : isTailByte b = true) : isJoint b = false := by
  simp only [isTailByte, isIndent, Bool.or_eq_true, decide_eq_true_eq] at tail
  rcases tail with (((rfl | rfl) | rfl) | rfl) | rfl <;> rfl

theorem Closes.exists_concat {depth : Nat} {bytes : Bytes} (closes : Closes depth bytes) : ∃ front, bytes = front ++ [41] := by
  induction closes with
  | last => exact ⟨[], rfl⟩
  | close _ ends | opening _ ends | plain _ _ ends =>
    obtain ⟨front, rfl⟩ := ends
    exact ⟨_ :: front, rfl⟩

/-- An entry ends in a parenthesis or a quote. -/
theorem IsEntry.exists_concat {entry : Bytes} (isEntry : IsEntry target entry) :
    ∃ front b, entry = front ++ [b] ∧ (b = 41 ∨ b = 34 ∨ b = 39) := by
  cases isEntry with
  | @plugin name gap inner blank closes =>
    obtain ⟨front, rfl⟩ := closes.exists_concat
    exact ⟨encode name ++ (gap ++ 40 :: front), 41, by simp, .inl rfl⟩
  | @literal value first last opens closes =>
    refine ⟨first :: encode value, last, rfl, .inr ?_⟩
    simpa only [isQuote, Bool.or_eq_true, decide_eq_true_eq] using closes

theorem IsEntry.ne_nil {entry : Bytes} (isEntry : IsEntry target entry) : entry ≠ [] := by
  obtain ⟨front, b, rfl, -⟩ := isEntry.exists_concat
  simp

/-- Another entry may stand behind what a match takes. -/
theorem mayFollow_of_matches {taken : Bytes} (found : target.pattern.Matches before taken rest) (other : Option UInt8) :
    target.MayFollow (taken.getLast?.or other) := by
  obtain ⟨blanks, entry, tail, rfl, -, isEntry, -, tails⟩ := exists_of_matches_entry found
  obtain ⟨front, b, rfl, closing⟩ := isEntry.exists_concat
  rcases List.eq_nil_or_concat tail with rfl | ⟨others, c, rfl⟩
  · rw [List.append_nil, ← List.append_assoc, List.getLast?_concat]
    exact target.mayFollow_of_not_isJoint (by rcases closing with rfl | rfl | rfl <;> rfl)
  · rw [List.concat_eq_append] at tails ⊢
    rw [← List.append_assoc, ← List.append_assoc, List.getLast?_concat]
    exact target.mayFollow_of_not_isJoint (not_isJoint_of_isTailByte (tails c (List.mem_append_right _ List.mem_cons_self)))

theorem EntryTarget.mayFollow_or {first second : Option UInt8} (own : target.MayFollow first) (other : target.MayFollow second) :
    target.MayFollow (first.or second) := by
  cases first with
  | none => exact other
  | some b => exact own

theorem IsHead.ne_nil {head : Bytes} (isHead : IsHead target head) : head ≠ [] := by
  cases isHead with
  | plugin => simp
  | literal => exact List.cons_ne_nil _ _

/-- Where a match is removed, no beginning of an entry is put together. -/
theorem IsParted.not_head {whole front behind head : Bytes} (parted : IsParted target whole)
    (cuts : Cuts target.pattern before source output) (split : whole = front ++ source) (last : before = front.getLast?)
    (follows : target.MayFollow front.getLast?) {ahead : Bytes} (there : output = ahead ++ (head ++ behind))
    (isHead : IsHead target head) (own : target.MayFollow ahead.getLast?) : False := by
  induction cuts generalizing front ahead head behind with
  | @rest before text none_ =>
    subst last
    have place := target.mayFollow_or own follows
    obtain ⟨entry, more, eq, isEntry⟩ := parted.closed (front ++ ahead) head behind (by rw [split, there, List.append_assoc])
      isHead (by rwa [List.getLast?_append])
    have occurs : target.pattern.occursFrom front.getLast? text = true := by
      refine occursFrom_eq_true_iff.mpr ⟨ahead, head ++ behind, there, ?_⟩
      rw [eq]
      exact ends_ne_nil_of_isEntry (List.forall_mem_nil _) isEntry place
    rw [none_] at occurs
    cases occurs
  | @cut before kept taken rest output found leftmost later smaller =>
    subst last
    have last : (front ++ (kept ++ taken)).getLast? = taken.getLast?.or (kept.getLast?.or front.getLast?) := by
      rw [List.getLast?_append, getLast?_append_or]
    -- Behind the match the rest of the text is gone through in the same way.
    have goesOn {extra : Bytes} (eq : output = extra ++ (head ++ behind)) (place : target.MayFollow extra.getLast?) : False := by
      refine @smaller (front ++ (kept ++ taken)) behind head (by rw [split]; simp) last.symm ?_ extra eq isHead place
      rw [last]
      exact mayFollow_of_matches found _
    -- What begins and ends in front of the match was found before it.
    have within {extra more : Bytes} (eq : kept = ahead ++ extra) (inside : extra = head ++ more) : False := by
      have place := target.mayFollow_or own follows
      obtain ⟨entry, others, same, isEntry⟩ := parted.closed (front ++ ahead) head (more ++ (taken ++ rest))
        (by rw [split, eq, inside]; simp) isHead (by rwa [List.getLast?_append])
      have positive := List.length_pos_iff.mpr isHead.ne_nil
      have none_ := leftmost ahead (head ++ (more ++ (taken ++ rest))) (by rw [eq, inside]; simp)
        (by rw [eq, inside, List.length_append, List.length_append]; omega)
      rw [same] at none_
      exact ends_ne_nil_of_isEntry (List.forall_mem_nil _) isEntry place none_
    rcases List.append_eq_append_iff.mp there with ⟨extra, eq, others⟩ | ⟨extra, eq, others⟩
    · refine goesOn others ?_
      rw [eq, List.getLast?_append] at own
      cases found_ : extra.getLast? with
      | none => exact target.mayFollow_none
      | some b => rwa [found_] at own
    · rcases List.append_eq_append_iff.mp others with ⟨more, inside, -⟩ | ⟨more, inside, others⟩
      · exact within eq inside
      · by_cases none_ : extra = []
        · rw [none_, List.nil_append] at inside
          exact @goesOn [] (by rw [inside]; exact others) target.mayFollow_none
        by_cases all : more = []
        · exact within eq (by rw [inside, all, List.append_nil, List.append_nil])
        obtain ⟨blanks, entry, tail, rfl, indent, isEntry, place, -⟩ := exists_of_matches_entry found
        refine parted.apart (front ++ ahead) extra blanks entry (tail ++ rest) (by rw [split, eq]; simp) indent isEntry ?_
          ⟨none_, more, all, inside ▸ isHead⟩
        rwa [getLast?_append_or, List.getLast?_append, ← getLast?_append_or ahead extra, ← eq]

/-! ## Commas -/

/-- White space, or a comma. -/
def isFilling (b : UInt8) : Bool := isBlankByte b || b = 44

/-- Whether commas may be put in behind a byte, when it is known whether they may in front of it. -/
def opensAt (opened : Bool) (b : UInt8) : Bool := if isBlankByte b then opened else b = 44 || b = 91

/-- A text with commas and white space put in, each time behind a comma or an opening bracket, and white space behind that. -/
inductive Spread : Bool → Bytes → Bytes → Prop
  | nil {opened : Bool} : Spread opened [] []
  | keep {opened : Bool} (b : UInt8) {tight loose : Bytes} (rest : Spread (opensAt opened b) tight loose) :
      Spread opened (b :: tight) (b :: loose)
  | fill {b : UInt8} {tight loose : Bytes} (filling : isFilling b = true) (rest : Spread true tight loose) :
      Spread true tight (b :: loose)

namespace Spread

variable {opened : Bool} {tight loose front back more bytes : Bytes} {b : UInt8}

theorem append (first : Spread opened tight loose) (second : ∀ opened, Spread opened back more) :
    Spread opened (tight ++ back) (loose ++ more) := by
  induction first with
  | nil => exact second _
  | keep b _ rest => exact .keep b rest
  | fill filling _ rest => exact .fill filling rest

theorem fills (filling : ∀ b ∈ bytes, isFilling b = true) (rest : Spread true tight loose) : Spread true tight (bytes ++ loose) := by
  induction bytes with
  | nil => exact rest
  | cons b bytes later =>
    obtain ⟨own, others⟩ := List.forall_mem_cons.mp filling
    exact .fill own (later others)

theorem blanks (blank : ∀ b ∈ bytes, isBlankByte b = true) (rest : Spread true tight loose) :
    Spread true (bytes ++ tight) (bytes ++ loose) := by
  induction bytes with
  | nil => exact rest
  | cons b bytes later =>
    obtain ⟨own, others⟩ := List.forall_mem_cons.mp blank
    refine .keep b ?_
    rw [opensAt, if_pos own]
    exact later others

theorem split (spread : Spread opened (front ++ back) loose) :
    ∃ first second also, loose = first ++ second ∧ Spread opened front first ∧ Spread also back second := by
  generalize whole : front ++ back = tight at spread
  induction spread generalizing front with
  | nil =>
    obtain ⟨rfl, rfl⟩ := List.append_eq_nil_iff.mp whole
    exact ⟨[], [], false, rfl, .nil, .nil⟩
  | @keep opened b tight loose rest parts =>
    cases front with
    | nil =>
      obtain rfl : back = b :: tight := whole
      exact ⟨[], b :: loose, opened, rfl, .nil, .keep b rest⟩
    | cons c front =>
      obtain ⟨rfl, eq⟩ := List.cons.inj whole
      obtain ⟨first, second, also, rfl, own, others⟩ := parts eq
      exact ⟨c :: first, second, also, rfl, .keep c own, others⟩
  | fill filling _ parts =>
    obtain ⟨first, second, also, rfl, own, others⟩ := parts whole
    exact ⟨_ :: first, second, also, rfl, .fill filling own, others⟩

/-- Where nothing may be put in, nothing is, up to the next comma or opening bracket. -/
theorem split_of_closed (spread : Spread false (front ++ back) loose) (plain : ∀ b ∈ front, b ≠ 44 ∧ b ≠ 91) :
    ∃ second, loose = front ++ second ∧ Spread false back second := by
  induction front generalizing loose with
  | nil => exact ⟨loose, rfl, spread⟩
  | cons b front later =>
    obtain ⟨own, others⟩ := List.forall_mem_cons.mp plain
    rw [List.cons_append] at spread
    cases spread with
    | keep _ further =>
      have closed : opensAt false b = false := by simp [opensAt, own]
      rw [closed] at further
      obtain ⟨second, rfl, final⟩ := later further others
      exact ⟨second, rfl, final⟩

/-- In front of a byte that is no white space something may be put in, and behind it nothing. -/
theorem split_of_dark (spread : Spread opened (b :: back) loose) (dark : isBlankByte b = false) (plain : b ≠ 44 ∧ b ≠ 91) :
    ∃ filling second, loose = filling ++ b :: second ∧ (∀ c ∈ filling, isFilling c = true) ∧ Spread false back second := by
  generalize whole : b :: back = tight at spread
  induction spread with
  | nil => cases whole
  | keep c rest =>
    obtain ⟨rfl, rfl⟩ := List.cons.inj whole
    have closed (opened : Bool) : opensAt opened b = false := by simp [opensAt, dark, plain]
    rw [closed] at rest
    exact ⟨[], _, rfl, nofun, rest⟩
  | fill filling _ parts =>
    obtain ⟨others, second, rfl, each, rest⟩ := parts whole
    exact ⟨_ :: others, second, rfl, List.forall_mem_cons.mpr ⟨filling, each⟩, rest⟩

theorem thinned (spread : Spread opened tight loose) : Thinned (fun b => isFilling b = true) loose tight := by
  induction spread with
  | nil => exact .nil
  | keep b _ rest => exact .keep b rest
  | fill filling _ rest => exact .drop filling rest

end Spread

theorem spread_squeezeCommas (source : Bytes) (opened : Bool) : Spread opened (squeezeCommas source) source := by
  have further {bytes : Bytes} (takes : (seq (many isBlankByte) (byte 44)).Takes bytes) : ∀ b ∈ bytes, isFilling b = true := by
    obtain ⟨blanks, _, rfl, each, b, rfl, same⟩ := takes
    rw [List.forall_mem_append, List.forall_mem_singleton, of_decide_eq_true same]
    exact ⟨fun b mem => by simp [isFilling, each b mem], by decide⟩
  have each (taken : Bytes) (takes : orphanCommas.Takes taken) : ∀ opened, Spread opened [44] taken := by
    obtain ⟨_, _, rfl, ⟨comma, rfl, same⟩, first, _, rfl, own, parts, rfl, others⟩ := takes
    obtain rfl := of_decide_eq_true same
    intro opened
    refine .keep 44 ?_
    have fillings : ∀ b ∈ first ++ parts.flatten, isFilling b = true := by
      refine List.forall_mem_append.mpr ⟨further own, fun b mem => ?_⟩
      obtain ⟨part, inside, mem⟩ := List.mem_flatten.mp mem
      exact further (others part inside) b mem
    have spread := Spread.fills fillings (.nil : Spread true [] [])
    rwa [List.append_nil] at spread
  exact @related_replaceFrom UInt8 (fun source output => ∀ opened, Spread opened output source) orphanCommas (fun _ => [44])
    (fun _ => .nil) (fun b _ => .keep b .nil) (fun _ _ _ _ front back opened => (front opened).append back) each _ none 0 source opened

theorem spread_dropLeadingCommas (source : Bytes) (opened : Bool) : Spread opened (dropLeadingCommas source) source := by
  have each (taken : Bytes) (takes : leadingComma.Takes taken) : ∀ opened, Spread opened taken.dropLast taken := by
    obtain ⟨_, _, rfl, ⟨bracket, rfl, same⟩, blanks, _, rfl, blank, comma, rfl, own⟩ := takes
    obtain rfl := of_decide_eq_true same
    obtain rfl := of_decide_eq_true own
    intro opened
    rw [← List.append_assoc, List.dropLast_concat, List.append_assoc]
    refine .keep 91 ?_
    have spread := Spread.blanks blank (.fill (by decide) .nil : Spread true [] [44])
    rwa [List.append_nil] at spread
  exact @related_replaceFrom UInt8 (fun source output => ∀ opened, Spread opened output source) leadingComma List.dropLast
    (fun _ => .nil) (fun b _ => .keep b .nil) (fun _ _ _ _ front back opened => (front opened).append back) each _ none 0 source opened

/-! ## Entries behind the removal of commas and blank lines -/

/-- What is looked for has no byte that the removal of commas and blank lines regards. -/
def EntryTarget.IsPlain : EntryTarget → Prop
  | plugin name => ∀ b ∈ encode name, isFilling b = false ∧ b ≠ 91
  | literal value => ∀ b ∈ encode value, b ≠ lineFeed ∧ b ≠ 44 ∧ b ≠ 91

theorem not_isJoint_of_isFilling {b : UInt8} (filling : isFilling b = true) : isJoint b = false := by
  simp only [isFilling, Bool.or_eq_true, decide_eq_true_eq] at filling
  rcases filling with blank | rfl
  · rw [isJoint, not_isNameByte_of_isBlankByte blank, Bool.false_or, decide_eq_false_iff_not]
    rintro rfl
    cases blank
  · rfl

theorem isPlainByte_of_isFilling {b : UInt8} (filling : isFilling b = true) : isPlainByte b = true := by
  simp only [isFilling, Bool.or_eq_true, decide_eq_true_eq] at filling
  rw [isPlainByte, Bool.and_eq_true, decide_eq_true_eq, decide_eq_true_eq]
  constructor <;> (rintro rfl; rcases filling with blank | same <;> contradiction)

theorem isFilling_of_isBlankByte {b : UInt8} (blank : isBlankByte b = true) : isFilling b = true := by
  rw [isFilling, blank, Bool.true_or]

/-- What closes parentheses still does so when other bytes are put in. -/
theorem Closes.exists_of_thinned {droppable : UInt8 → Prop} {depth : Nat} {tight loose : Bytes} (closes : Closes depth tight)
    (thinned : Thinned droppable loose tight) (plain : ∀ b, droppable b → isPlainByte b = true) :
    ∃ inner more, loose = inner ++ more ∧ Closes depth inner := by
  induction thinned generalizing depth with
  | nil => cases closes
  | keep b _ later =>
    cases closes with
    | last => exact ⟨[41], _, rfl, .last⟩
    | close inside =>
      obtain ⟨inner, more, rfl, closed⟩ := later inside
      exact ⟨41 :: inner, more, rfl, .close closed⟩
    | opening inside =>
      obtain ⟨inner, more, rfl, closed⟩ := later inside
      exact ⟨40 :: inner, more, rfl, .opening closed⟩
    | plain own inside =>
      obtain ⟨inner, more, rfl, closed⟩ := later inside
      exact ⟨b :: inner, more, rfl, .plain own closed⟩
  | @drop b _ _ may _ later =>
    obtain ⟨inner, more, rfl, closed⟩ := later closes
    exact ⟨b :: inner, more, rfl, .plain (plain b may) closed⟩

/-- The last byte is one that was there, or was put in. -/
theorem Spread.getLast? {opened : Bool} {tight loose : Bytes} (spread : Spread opened tight loose) :
    loose.getLast? = tight.getLast? ∨ ∃ b, loose.getLast? = some b ∧ isFilling b = true := by
  induction spread with
  | nil => exact .inl rfl
  | keep b _ last =>
    rcases last with same | ⟨c, last, filling⟩
    · exact .inl (by rw [List.getLast?_cons, List.getLast?_cons, same])
    · exact .inr ⟨c, by rw [List.getLast?_cons, last]; rfl, filling⟩
  | @fill b tight loose filling _ last =>
    cases loose with
    | nil => exact .inr ⟨b, rfl, filling⟩
    | cons c others => rwa [List.getLast?_cons_cons]

theorem dark_of_isQuote {b : UInt8} (quote : isQuote b = true) : isBlankByte b = false ∧ b ≠ 44 ∧ b ≠ 91 := by
  simp only [isQuote, Bool.or_eq_true, decide_eq_true_eq] at quote
  rcases quote with rfl | rfl <;> decide

/-- An entry is still there when commas and white space are put in. They may come to stand in front of it. -/
theorem IsEntry.exists_of_spread {opened : Bool} {entry loose : Bytes} (plain : target.IsPlain) (isEntry : IsEntry target entry)
    (spread : Spread opened entry loose) : ∃ filling own more, loose = filling ++ (own ++ more) ∧
      (∀ b ∈ filling, isFilling b = true) ∧ IsEntry target own := by
  cases isEntry with
  | @plugin name gap inner blank closes =>
    have white : ∀ b ∈ gap, isFilling b = true := fun b mem => isFilling_of_isBlankByte (blank b mem)
    have inserted (b : UInt8) (filling : isFilling b = true) : isPlainByte b = true := isPlainByte_of_isFilling filling
    cases named : encode name with
    | nil =>
      rw [named, List.nil_append] at spread
      obtain ⟨first, _, _, rfl, own, others⟩ := spread.split
      obtain ⟨filling, second, rfl, each, later⟩ := others.split_of_dark (by decide) (by decide)
      obtain ⟨arguments, more, rfl, closed⟩ := closes.exists_of_thinned later.thinned inserted
      have isEntry : IsEntry (.plugin name) (encode name ++ ([] ++ 40 :: arguments)) := .plugin nofun closed
      rw [named] at isEntry
      refine ⟨first ++ filling, _, more, by simp, List.forall_mem_append.mpr ⟨fun b mem => ?_, each⟩, isEntry⟩
      by_cases filled : isFilling b = true
      · exact filled
      · exact white b (own.thinned.mem mem filled)
    | cons b word =>
      rw [EntryTarget.IsPlain, named] at plain
      obtain ⟨⟨dark, bracket⟩, others⟩ := List.forall_mem_cons.mp plain
      rw [isFilling, Bool.or_eq_false_iff, decide_eq_false_iff_not] at dark
      have spread : Spread opened (b :: ((word ++ (gap ++ [40])) ++ inner)) loose := by
        rw [named] at spread
        simpa using spread
      obtain ⟨filling, second, rfl, each, later⟩ := spread.split_of_dark dark.1 ⟨dark.2, bracket⟩
      have free : ∀ c ∈ word ++ (gap ++ [40]), c ≠ 44 ∧ c ≠ 91 := by
        refine List.forall_mem_append.mpr ⟨fun c mem => ?_, List.forall_mem_append.mpr ⟨fun c mem => ?_, ?_⟩⟩
        · obtain ⟨dark, bracket⟩ := others c mem
          rw [isFilling, Bool.or_eq_false_iff, decide_eq_false_iff_not] at dark
          exact ⟨dark.2, bracket⟩
        · have own := blank c mem
          constructor <;> (rintro rfl; cases own)
        · exact List.forall_mem_singleton.mpr (by decide)
      obtain ⟨last, rfl, final⟩ := later.split_of_closed free
      obtain ⟨arguments, more, rfl, closed⟩ := closes.exists_of_thinned final.thinned inserted
      exact ⟨filling, encode name ++ (gap ++ 40 :: arguments), more, by simp [named], each, .plugin blank closed⟩
  | @literal value first last opens closes =>
    obtain ⟨dark, free⟩ := dark_of_isQuote opens
    obtain ⟨filling, second, rfl, each, later⟩ := spread.split_of_dark dark free
    rw [← List.append_nil (encode value ++ [last])] at later
    have others : ∀ b ∈ encode value ++ [last], b ≠ 44 ∧ b ≠ 91 :=
      List.forall_mem_append.mpr ⟨fun b mem => (plain b mem).2, List.forall_mem_singleton.mpr (dark_of_isQuote closes).2⟩
    obtain ⟨more, rfl, -⟩ := later.split_of_closed others
    exact ⟨filling, first :: (encode value ++ [last]), more, by simp, each, .literal opens closes⟩

theorem HasEntry.of_spread {opened : Bool} {tight loose : Bytes} (has : HasEntry target tight) (plain : target.IsPlain)
    (spread : Spread opened tight loose) : HasEntry target loose := by
  obtain ⟨front, entry, rest, rfl, isEntry, follows⟩ := has
  obtain ⟨first, _, _, rfl, inFront, others⟩ := spread.split
  obtain ⟨middle, last, _, rfl, inside, -⟩ := others.split
  obtain ⟨filling, own, more, rfl, each, isOwn⟩ := isEntry.exists_of_spread plain inside
  refine ⟨first ++ filling, own, more ++ last, by simp, isOwn, ?_⟩
  rw [List.getLast?_append]
  refine target.mayFollow_or ?_ ?_
  · cases found : filling.getLast? with
    | none => exact target.mayFollow_none
    | some b => exact target.mayFollow_of_not_isJoint (not_isJoint_of_isFilling (each b (List.mem_of_getLast? found)))
  · rcases inFront.getLast? with same | ⟨b, found, inserted⟩
    · rwa [same]
    · rw [found]
      exact target.mayFollow_of_not_isJoint (not_isJoint_of_isFilling inserted)

/-- An entry is still there when white space is put in in front of line feeds. -/
theorem HasEntry.of_loosened {tight loose : Bytes} (has : HasEntry target tight) (plain : target.IsPlain)
    (loosened : Loosened tight loose) : HasEntry target loose := by
  obtain ⟨front, entry, rest, rfl, isEntry, follows⟩ := has
  obtain ⟨first, _, rfl, inFront, others⟩ := loosened.split
  obtain ⟨middle, last, rfl, inside, -⟩ := others.split
  rw [← inFront.getLast?_eq] at follows
  cases isEntry with
  | @plugin name gap inner blank closes =>
    have noFeed : lineFeed ∉ encode name := by
      intro mem
      cases (plain lineFeed mem).1
    have opening : lineFeed ∉ ([40] : Bytes) := by decide
    rw [← List.singleton_append] at inside
    obtain ⟨_, rfl, behindName⟩ := inside.split_of_not_mem noFeed
    obtain ⟨white, _, rfl, between, behindGap⟩ := behindName.split
    obtain ⟨_, rfl, behindOpening⟩ := behindGap.split_of_not_mem opening
    obtain ⟨arguments, more, rfl, closed⟩ := closes.exists_of_thinned behindOpening.thinned fun b blank =>
      isPlainByte_of_isFilling (isFilling_of_isBlankByte blank)
    exact ⟨first, encode name ++ (white ++ 40 :: arguments), more ++ last, by simp,
      .plugin (between.forall_mem blank fun _ white => white) closed, follows⟩
  | @literal value opening closing opens closes =>
    have noFeed : lineFeed ∉ opening :: (encode value ++ [closing]) := by
      rw [List.mem_cons, List.mem_append, List.mem_singleton]
      rintro (rfl | mem | rfl)
      · cases opens
      · exact (plain lineFeed mem).1 rfl
      · cases closes
    obtain rfl := inside.eq_of_not_mem noFeed
    exact ⟨first, _, last, rfl, .literal opens closes, follows⟩

/-- The removal of commas and blank lines makes no entry. -/
theorem HasEntry.of_cleanUp (plain : target.IsPlain) (has : HasEntry target (cleanUp source)) : HasEntry target source := by
  have loose := has.of_loosened plain (loosened_squeezeLines _)
  have bracketed := loose.of_spread plain (spread_dropLeadingCommas _ false)
  exact bracketed.of_spread plain (spread_squeezeCommas source false)

/-- A clean-up drops commas and white space only. -/
theorem thinned_cleanUp (source : Bytes) : Thinned (fun b => isFilling b = true) source (cleanUp source) := by
  have commas := (spread_squeezeCommas source false).thinned
  have leading := (spread_dropLeadingCommas (squeezeCommas source) false).thinned
  have lines := (loosened_squeezeLines (dropLeadingCommas (squeezeCommas source))).thinned
  exact commas.trans (leading.trans (lines.mono fun _ => isFilling_of_isBlankByte))

/-! ## Texts that stay -/

theorem matchLength?_entry_ne_zero (target : EntryTarget) (before : Option UInt8) (rest : Bytes) :
    target.pattern.matchLength? before rest ≠ some 0 := by
  intro found
  obtain ⟨blanks, entry, tail, none_, -, isEntry, -⟩ := exists_of_matches_entry (@matches_of_matchLength? _ _ _ [] rest found)
  exact isEntry.ne_nil (List.append_eq_nil_iff.mp (List.append_eq_nil_iff.mp none_.symm).2).1

theorem cuts_removeAll_entries (target : EntryTarget) (source : Bytes) :
    Cuts target.pattern none source (target.pattern.removeAll source) :=
  cuts_removeAll (matchLength?_entry_ne_zero target) source

/-- A text in which an entry stands gets shorter. -/
theorem length_removeAll_lt (has : HasEntry target source) : (target.pattern.removeAll source).length < source.length := by
  have occurs : target.pattern.occursFrom none source = true := occurs_iff_hasEntry.mpr has
  have cuts := cuts_removeAll_entries target source
  generalize target.pattern.removeAll source = output at cuts
  cases cuts with
  | rest none_ =>
    rw [none_] at occurs
    cases occurs
  | @cut _ kept taken rest output found leftmost later =>
    obtain ⟨blanks, entry, tail, rfl, -, isEntry, -⟩ := exists_of_matches_entry found
    have positive := List.length_pos_iff.mpr isEntry.ne_nil
    have short := later.length_le
    simp only [List.length_append]
    omega

/-- The removal leaves exactly the texts in which no entry stands. -/
theorem removeByPattern_eq_self_iff : removeByPattern source target = source ↔ ¬ HasEntry target source := by
  constructor
  · intro same has
    have shorter := length_removeAll_lt has
    have changed : target.pattern.removeAll source ≠ source := by
      intro left
      rw [left] at shorter
      omega
    have short := (thinned_cleanUp (target.pattern.removeAll source)).sublist.length_le
    rw [removeByPattern, if_neg changed] at same
    rw [same] at short
    omega
  · intro free
    have none_ : target.pattern.occursFrom none source = false := Bool.eq_false_iff.mpr (mt occurs_iff_hasEntry.mp free)
    have left : target.pattern.removeAll source = source := replaceFrom_of_occursFrom_eq_false _ _ none_
    rw [removeByPattern, if_pos left]

/-- In a text whose entries are parted, one removal leaves no entry. -/
theorem IsParted.not_hasEntry (parted : IsParted target source) (plain : target.IsPlain) :
    ¬ HasEntry target (removeByPattern source target) := by
  intro has
  have has : HasEntry target (target.pattern.removeAll source) := by
    rw [removeByPattern] at has
    split at has
    · next same => rwa [same]
    · exact has.of_cleanUp plain
  obtain ⟨front, entry, rest, split, isEntry, follows⟩ := has
  obtain ⟨head, more, rfl, isHead⟩ := isEntry.exists_head
  rw [List.append_assoc] at split
  exact parted.not_head (cuts_removeAll_entries target source) (List.nil_append _).symm rfl target.mayFollow_none split isHead
    follows

end Scaffold.Edit
