import Mathlib.Data.Bool.AllAny
import Mathlib.Data.List.Infix
import Scaffold.Proofs.Edit.Declarations

/-! # Which imports leave a file by their names

A file is its import declarations in the three shapes and the bytes between them, among which no import of one of the names
begins. Then a pass for a name and a shape takes the declarations of that shape that bring in the name, each with white space
and semicolons behind it. What is left is such a file again, so that the passes follow each other, and in the end no
declaration brings in one of the names.
-/

namespace Scaffold.Edit

open Scaffold.Text Scaffold.Syntax Pattern

/-- A piece of a file. -/
inductive Item where
  | byte (b : UInt8)
  | declaration (declaration : Import)

def Item.text : Item → Bytes
  | byte b => [b]
  | declaration own => own.text

def textOf (items : List Item) : Bytes := items.flatMap Item.text

@[simp] theorem textOf_nil : textOf [] = [] := rfl

@[simp] theorem textOf_byte (b : UInt8) (items : List Item) : textOf (.byte b :: items) = b :: textOf items := rfl

@[simp] theorem textOf_declaration (own : Import) (items : List Item) :
    textOf (.declaration own :: items) = own.text ++ textOf items := rfl

/-- The bytes in front of the first declaration. -/
def leading : List Item → Bytes
  | .byte b :: items => b :: leading items
  | _ => []

/-- No import of one of the names begins with these bytes, whatever follows them. -/
def Inert (names : List Identifier) (bytes : Bytes) : Prop :=
  ∀ behind, bytes = encode "import" ++ behind → ∀ own ∈ names, ∀ shape taken more rest,
    bytes ++ more = taken ++ rest → ¬ Imports (encode own.name) shape taken

/-- The imports of the names are among the declarations of a file, each of which has white space, another declaration or
nothing in front of it. -/
inductive Clear (names : List Identifier) : List Item → Prop
  | nil : Clear names []
  | byte {b : UInt8} {items : List Item} (inert : Inert names (b :: leading items))
      (apart : ∀ own later, items = .declaration own :: later → isBlankByte b = true) (rest : Clear names items) :
      Clear names (.byte b :: items)
  | declaration {own : Import} {items : List Item} (sharp : ∀ name ∈ names, own.Sharp name) (rest : Clear names items) :
      Clear names (.declaration own :: items)

/-- What is left when the declarations that are meant go, with white space and semicolons directly behind them; `behind` says
that such a declaration has just gone. -/
inductive Pruned (gone : Import → Prop) : Bool → List Item → List Item → Prop
  | nil (behind : Bool) : Pruned gone behind [] []
  | byte (b : UInt8) {behind : Bool} {items left : List Item} (rest : Pruned gone false items left) :
      Pruned gone behind (.byte b :: items) (.byte b :: left)
  | stays {own : Import} (other : ¬ gone own) {behind : Bool} {items left : List Item} (rest : Pruned gone false items left) :
      Pruned gone behind (.declaration own :: items) (.declaration own :: left)
  | ending {b : UInt8} (ends : isEndByte b = true) {items left : List Item} (rest : Pruned gone true items left) :
      Pruned gone true (.byte b :: items) left
  | goes {own : Import} (meant : gone own) {behind : Bool} {items left : List Item} (rest : Pruned gone true items left) :
      Pruned gone behind (.declaration own :: items) left

namespace Pruned

variable {gone others : Import → Prop} {behind : Bool} {items left : List Item}

theorem congr (same : ∀ own, gone own ↔ others own) (pruned : Pruned gone behind items left) :
    Pruned others behind items left := by
  induction pruned with
  | nil behind => exact .nil behind
  | byte b _ rest => exact .byte b rest
  | stays other _ rest => exact .stays (mt (same _).mpr other) rest
  | ending ends _ rest => exact .ending ends rest
  | goes meant _ rest => exact .goes ((same _).mp meant) rest

/-- Where nothing is meant, all stays. -/
theorem refl (items : List Item) : Pruned (fun _ => False) false items items := by
  induction items with
  | nil => exact .nil false
  | cons item items rest =>
    cases item with
    | byte b => exact .byte b rest
    | declaration own => exact .stays not_false rest

/-- What leaves after each other leaves at once. -/
theorem trans {also : Bool} {last : List Item} (pruned : Pruned gone behind items left) (further : Pruned others also left last) :
    Pruned (fun own => gone own ∨ others own) (behind || also) items last := by
  induction pruned generalizing also last with
  | nil behind =>
    cases further
    exact .nil _
  | byte b _ rest =>
    cases further with
    | byte _ further => exact .byte b (rest further)
    | ending ends further =>
      rw [Bool.or_true]
      exact .ending ends (rest further)
  | stays other _ rest =>
    cases further with
    | stays others further => exact .stays (not_or.mpr ⟨other, others⟩) (rest further)
    | goes meant further => exact .goes (.inr meant) (rest further)
  | ending ends _ rest =>
    rw [Bool.true_or]
    exact .ending ends (rest further)
  | goes meant _ rest => exact .goes (.inl meant) (rest further)

/-- The declarations that are meant are those that go. -/
theorem declaration_mem_iff (pruned : Pruned gone behind items left) (own : Import) :
    .declaration own ∈ left ↔ .declaration own ∈ items ∧ ¬ gone own := by
  induction pruned with
  | nil => simp
  | byte b _ rest => simp [rest]
  | @stays other stays _ _ _ _ rest =>
    simp only [List.mem_cons, Item.declaration.injEq, rest]
    constructor
    · rintro (rfl | ⟨mem, apart⟩)
      · exact ⟨.inl rfl, stays⟩
      · exact ⟨.inr mem, apart⟩
    · rintro ⟨rfl | mem, apart⟩
      · exact .inl rfl
      · exact .inr ⟨mem, apart⟩
  | ending _ _ rest => simp [rest]
  | @goes other meant _ _ _ _ rest =>
    simp only [List.mem_cons, Item.declaration.injEq, rest]
    constructor
    · rintro ⟨mem, apart⟩
      exact ⟨.inr mem, apart⟩
    · rintro ⟨rfl | mem, apart⟩
      · exact absurd meant apart
      · exact ⟨mem, apart⟩

end Pruned

/-! ## Bytes between declarations -/

variable {names : List Identifier} {own : Identifier} {shape : Shape} {items left : List Item} {b : UInt8}

/-- In front of the first declaration stands white space. -/
theorem Clear.exists_blank (clear : Clear names (.byte b :: items)) {declaration : Import}
    (mem : .declaration declaration ∈ items) : ∃ c ∈ b :: leading items, isBlankByte c = true ∧
      (b :: leading items).getLast? = some c := by
  induction items generalizing b with
  | nil => cases mem
  | cons item items blank =>
    cases clear with
    | byte _ apart rest =>
      cases item with
      | byte d =>
        obtain ⟨c, inside, white, last⟩ := blank rest ((List.mem_cons.mp mem).resolve_left nofun)
        exact ⟨c, List.mem_cons_of_mem b inside, white, by rw [leading, List.getLast?_cons_cons, last]⟩
      | declaration first => exact ⟨b, List.mem_cons_self, apart first items rfl, rfl⟩

/-- No import of a name begins at a byte of a file, if what follows the bytes up to a declaration is text only where there
is a declaration. -/
theorem Clear.not_imports (clear : Clear names (.byte b :: items)) {following taken rest : Bytes}
    (follows : following ≠ [] → ∃ declaration, .declaration declaration ∈ items) (mem : own ∈ names)
    (same : b :: leading items ++ following = taken ++ rest) : ¬ Imports (encode own.name) shape taken := by
  intro imports
  obtain ⟨later, rfl⟩ := imports.eq_append
  have inert : Inert names (b :: leading items) := by
    cases clear
    assumption
  have split := same
  rw [List.append_assoc] at split
  rcases List.append_eq_append_iff.mp split with ⟨middle, word, rfl⟩ | ⟨middle, bytes, -⟩
  · cases middle with
    | nil => exact inert [] (by rw [word, List.append_nil, List.append_nil]) own mem shape _ _ _ same imports
    | cons c middle =>
      -- the word would go on behind white space
      obtain ⟨declaration, inItems⟩ := follows (List.cons_ne_nil _ _)
      obtain ⟨d, inside, blank, -⟩ := clear.exists_blank inItems
      have dark : ∀ d ∈ encode "import", isBlankByte d = false := by decide +kernel
      rw [dark d (by rw [word]; exact List.mem_append_left _ inside)] at blank
      cases blank
  · exact inert middle bytes own mem shape _ _ _ same imports

theorem exists_textOf_eq (items : List Item) : ∃ following, textOf items = leading items ++ following ∧
    (following ≠ [] → ∃ declaration, .declaration declaration ∈ items) := by
  induction items with
  | nil => exact ⟨[], rfl, absurd rfl⟩
  | cons item items rest =>
    cases item with
    | byte b =>
      obtain ⟨following, eq, follows⟩ := rest
      refine ⟨following, by rw [textOf_byte, eq, leading, List.cons_append], fun some_ => ?_⟩
      obtain ⟨declaration, mem⟩ := follows some_
      exact ⟨declaration, List.mem_cons_of_mem _ mem⟩
    | declaration first => exact ⟨_, rfl, fun _ => ⟨first, List.mem_cons_self⟩⟩

/-- No match begins at a byte between the declarations. -/
theorem Clear.quiet_byte (clear : Clear names (.byte b :: items)) (mem : own ∈ names) :
    (shape.pattern (encode own.name)).Quiet [b] (textOf items) := by
  obtain ⟨following, eq, follows⟩ := exists_textOf_eq items
  refine quiet_of_no_import fun front c back taken more split same => ?_
  cases front with
  | nil =>
    obtain ⟨rfl, rfl⟩ := List.cons.inj split
    exact clear.not_imports follows mem (by rw [← same, eq, List.cons_append]; rfl)
  | cons d front => cases front <;> cases split

/-! ## What is left is such a file again -/

variable {gone : Import → Prop} {behind : Bool}

theorem Pruned.exists_leading_eq (pruned : Pruned gone false items left) : ∃ more, leading left = leading items ++ more ∧
    (more ≠ [] → ∃ declaration, .declaration declaration ∈ items) := by
  generalize flag : false = before at pruned
  induction pruned with
  | nil => exact ⟨[], rfl, absurd rfl⟩
  | byte b _ rest =>
    obtain ⟨more, eq, follows⟩ := rest rfl
    refine ⟨more, by rw [leading, leading, eq, List.cons_append], fun some_ => ?_⟩
    obtain ⟨declaration, mem⟩ := follows some_
    exact ⟨declaration, List.mem_cons_of_mem _ mem⟩
  | stays => exact ⟨[], rfl, absurd rfl⟩
  | ending => cases flag
  | goes => exact ⟨_, rfl, fun _ => ⟨_, List.mem_cons_self⟩⟩

theorem Clear.pruned (clear : Clear names items) (pruned : Pruned gone behind items left) : Clear names left := by
  induction pruned with
  | nil => exact .nil
  | @byte b _ items left pruned rest =>
    have whole := clear
    cases clear with
    | byte inert apart clear =>
      obtain ⟨more, eq, follows⟩ := pruned.exists_leading_eq
      refine .byte ?_ (fun own later split => ?_) (rest clear)
      · intro behind word own mem shape taken further rest same
        rw [eq] at same word
        cases more with
        | nil =>
          rw [List.append_nil] at same word
          exact inert behind word own mem shape taken further rest same
        | cons c more =>
          have joined : b :: leading items ++ (c :: more ++ further) = taken ++ rest := by
            rw [← same, ← List.append_assoc, List.cons_append, List.cons_append]
          exact whole.not_imports (fun _ => follows (List.cons_ne_nil _ _)) mem joined
      · cases pruned with
        | nil => cases split
        | byte => cases split
        | stays => exact apart _ _ rfl
        | goes => exact apart _ _ rfl
  | stays _ _ rest =>
    cases clear with
    | declaration sharp clear => exact .declaration sharp (rest clear)
  | ending _ _ rest =>
    cases clear with
    | byte _ _ clear => exact rest clear
  | goes _ _ rest =>
    cases clear with
    | declaration _ clear => exact rest clear

/-! ## The passes -/

/-- The declarations that one pass takes. -/
def Import.IsMeant (own : Identifier) (shape : Shape) (declaration : Import) : Prop :=
  declaration.shape = shape ∧ declaration.Brings own

/-- A pass from a place on, at which some bytes still go with an import. -/
theorem exists_pruned_replaceFrom (clear : Clear names items) (mem : own ∈ names) (shape : Shape) {limit skip : Nat}
    (enough : (textOf items).length < limit) (ending : ∀ b ∈ (textOf items).take skip, isEndByte b = true)
    (flag : skip ≠ 0 → behind = true) (before : Option UInt8) :
    ∃ left, Pruned (Import.IsMeant own shape) behind items left ∧
      replaceFrom (shape.pattern (encode own.name)) (fun _ => []) limit before skip (textOf items) = textOf left := by
  induction items generalizing limit skip behind before with
  | nil =>
    refine ⟨[], .nil behind, ?_⟩
    cases skip <;> cases limit <;> rfl
  | cons item items pass =>
    have whole := clear
    cases clear with
    | @byte b _ _ _ clear =>
      rw [textOf_byte, List.length_cons] at enough
      cases skip with
      | zero =>
        obtain ⟨left, pruned, same⟩ := @pass false clear limit 0 (by omega) nofun nofun (some b)
        refine ⟨.byte b :: left, .byte b pruned, ?_⟩
        rw [textOf_byte, ← List.singleton_append, replaceFrom_of_quiet _ _ (whole.quiet_byte mem)]
        exact congrArg (b :: ·) same
      | succ skip =>
        rw [flag (Nat.succ_ne_zero skip)]
        rw [textOf_byte, List.take_succ_cons, List.forall_mem_cons] at ending
        obtain ⟨left, pruned, same⟩ := @pass true clear limit skip (by omega) ending.2 (fun _ => rfl) (some b)
        refine ⟨left, .ending ending.1 pruned, ?_⟩
        rw [← same]
        cases limit <;> rfl
    | @declaration declaration _ sharp clear =>
      obtain ⟨tail, eq, -⟩ := declaration.exists_quiet
      cases skip with
      | succ skip =>
        have first := ending 105 (by rw [textOf_declaration, eq]; exact List.mem_cons_self)
        cases first
      | zero =>
        by_cases meant : declaration.IsMeant own shape
        · obtain ⟨rfl, brings⟩ := meant
          obtain ⟨found, taken, rest, split, imports, ends, length⟩ :=
            exists_matchLength? (Import.imports_of_brings brings) before (textOf items)
          obtain ⟨rfl, -⟩ := Import.eq_text (sharp own mem) imports split
          have behindText : textOf items = taken ++ rest := List.append_cancel_left split
          have size : declaration.text.length = tail.length + 1 := by rw [eq, List.length_cons]
          rw [textOf_declaration, List.length_append] at enough
          obtain ⟨limit, rfl⟩ := Nat.exists_eq_add_of_lt (Nat.zero_lt_of_lt enough)
          rw [Nat.zero_add] at enough ⊢
          obtain ⟨left, pruned, same⟩ := @pass true clear limit taken.length (by omega)
            (by rw [behindText, List.take_left]; exact ends) (fun _ => rfl) (tail.getLast?.or (some 105))
          refine ⟨left, .goes ⟨rfl, brings⟩ pruned, ?_⟩
          rw [size, Nat.add_right_comm, eq, List.cons_append] at length
          rw [textOf_declaration, eq, List.cons_append, replaceFrom, length]
          dsimp only
          rw [List.nil_append, replaceFrom_skip, same]
        · rw [textOf_declaration, List.length_append] at enough
          obtain ⟨left, pruned, same⟩ :=
            @pass false clear limit 0 (by omega) nofun nofun (declaration.text.getLast?.or before)
          refine ⟨.declaration declaration :: left, .stays meant pruned, ?_⟩
          rw [textOf_declaration, replaceFrom_of_quiet _ _ (Import.quiet (sharp own mem) meant _), same]
          rfl

theorem Clear.exists_pruned_removeAll (clear : Clear names items) (mem : own ∈ names) (shape : Shape) :
    ∃ left, Pruned (Import.IsMeant own shape) false items left ∧
      (shape.pattern (encode own.name)).removeAll (textOf items) = textOf left :=
  exists_pruned_replaceFrom clear mem shape (Nat.lt_succ_self _) (by simp) nofun none

/-- The three passes for a name take the declarations that bring it in. -/
theorem Clear.exists_pruned_removeNamedImport (clear : Clear names items) (mem : own ∈ names) :
    ∃ left, Pruned (Import.Brings own) false items left ∧ removeNamedImport (textOf items) own.name = textOf left := by
  obtain ⟨first, prunedFirst, sameFirst⟩ := clear.exists_pruned_removeAll mem .default
  obtain ⟨second, prunedSecond, sameSecond⟩ := (clear.pruned prunedFirst).exists_pruned_removeAll mem .braced
  obtain ⟨third, prunedThird, sameThird⟩ :=
    ((clear.pruned prunedFirst).pruned prunedSecond).exists_pruned_removeAll mem .effect
  refine ⟨third, ((prunedFirst.trans prunedSecond).trans prunedThird).congr fun declaration => ?_, ?_⟩
  · simp only [Import.IsMeant]
    cases declaration <;> simp [Import.shape]
  · rw [removeNamedImport, ← sameThird, ← sameSecond, ← sameFirst]
    rfl

/-- Some declaration among those that bring in one of several names. -/
def Import.BringsAny (names : List Identifier) (declaration : Import) : Prop := ∃ own ∈ names, declaration.Brings own

theorem Clear.exists_pruned_foldl (clear : Clear names items) {others : List Identifier} (sub : ∀ own ∈ others, own ∈ names) :
    ∃ left, Pruned (Import.BringsAny others) false items left ∧
      (others.map Identifier.name).foldl removeNamedImport (textOf items) = textOf left := by
  induction others generalizing items with
  | nil => exact ⟨items, (Pruned.refl items).congr fun declaration => by simp [Import.BringsAny], rfl⟩
  | cons own others rest =>
    obtain ⟨mem, sub⟩ := List.forall_mem_cons.mp sub
    obtain ⟨first, prunedFirst, sameFirst⟩ := clear.exists_pruned_removeNamedImport mem
    obtain ⟨left, pruned, same⟩ := rest (clear.pruned prunedFirst) sub
    refine ⟨left, (prunedFirst.trans pruned).congr fun declaration => by simp [Import.BringsAny], ?_⟩
    rw [List.map_cons, List.foldl_cons, sameFirst, same]

/-- Without a declaration that brings in the name, there is no import of it. -/
theorem Clear.not_hasImport (clear : Clear names items) (mem : own ∈ names)
    (none : ∀ declaration, .declaration declaration ∈ items → ¬ declaration.Brings own) :
    ¬ HasImport (encode own.name) shape (textOf items) := by
  rw [← quiet_iff_not_hasImport]
  induction clear with
  | nil => exact quiet_nil _ _
  | @byte b items inert apart clear rest =>
    rw [textOf_byte, ← List.singleton_append]
    refine quiet_append_iff.mpr ⟨?_, rest fun declaration inside => none declaration (List.mem_cons_of_mem _ inside)⟩
    rw [List.append_nil]
    exact (Clear.byte inert apart clear).quiet_byte mem
  | @declaration first items sharp _ rest =>
    refine quiet_append_iff.mpr ⟨?_, rest fun declaration inside => none declaration (List.mem_cons_of_mem _ inside)⟩
    exact Import.quiet (sharp own mem) (fun meant => none first List.mem_cons_self meant.2) _

theorem Identifier.lineFeed_not_mem (own : Identifier) : lineFeed ∉ encode own.name :=
  fun mem => absurd (own.isInner lineFeed mem).1 (by decide)

/-- A text with no import of one of the names is left. -/
theorem removeNamedImports_of_not_hasImport {text : Bytes}
    (free : ∀ own ∈ names, ∀ shape, ¬ HasImport (encode own.name) shape text) :
    removeNamedImports text (names.map Identifier.name) = text := by
  have same : (names.map Identifier.name).foldl removeNamedImport text = text := by
    induction names with
    | nil => rfl
    | cons own names rest =>
      obtain ⟨here, others⟩ := List.forall_mem_cons.mp free
      have own_ : removeNamedImport text own.name = text := by
        have first := removeAll_of_not_hasImport (here .default)
        have second := removeAll_of_not_hasImport (here .braced)
        have third := removeAll_of_not_hasImport (here .effect)
        simp only [Shape.pattern] at first second third
        rw [removeNamedImport, first, second, third]
      rw [List.map_cons, List.foldl_cons, own_, rest others]
  rw [removeNamedImports, same, if_pos rfl]

/-- The declarations that bring in one of the names leave the file, and all others stay, with the bytes between them but
for white space and semicolons behind a declaration that leaves. Another run leaves the file as it is. -/
theorem named_imports_leave (clear : Clear names items) :
    ∃ left, Pruned (Import.BringsAny names) false items left ∧
      (∀ declaration, .declaration declaration ∈ left ↔
        .declaration declaration ∈ items ∧ ¬ declaration.BringsAny names) ∧
      removeNamedImports (textOf items) (names.map Identifier.name) =
        (if textOf left = textOf items then textOf items else squeezeLines (textOf left)) ∧
      removeNamedImports (removeNamedImports (textOf items) (names.map Identifier.name)) (names.map Identifier.name) =
        removeNamedImports (textOf items) (names.map Identifier.name) := by
  obtain ⟨left, pruned, same⟩ := clear.exists_pruned_foldl (fun _ mem => mem)
  have output : removeNamedImports (textOf items) (names.map Identifier.name) =
      if textOf left = textOf items then textOf items else squeezeLines (textOf left) := by
    rw [removeNamedImports, same]
  refine ⟨left, pruned, pruned.declaration_mem_iff, output, ?_⟩
  have free (own : Identifier) (mem : own ∈ names) (shape : Shape) : ¬ HasImport (encode own.name) shape (textOf left) :=
    (clear.pruned pruned).not_hasImport mem fun declaration inLeft brings =>
      ((pruned.declaration_mem_iff declaration).mp inLeft).2 ⟨own, mem, brings⟩
  refine removeNamedImports_of_not_hasImport fun own mem shape => ?_
  rw [output]
  split
  · next unchanged =>
    rw [← unchanged]
    exact free own mem shape
  · exact fun has => free own mem shape (has.of_squeezeLines own.lineFeed_not_mem)

/-- Bytes stand clear where no import of a name begins in them, and where they end in white space. -/
theorem Clear.bytes (clear : Clear names items) {stretch : Bytes}
    (inert : ∀ tail ∈ stretch.tails, Inert names (tail ++ leading items)) (ends : stretch.getLast?.all isBlankByte = true) :
    Clear names (stretch.map .byte ++ items) := by
  have leading_eq (bytes : Bytes) : leading (bytes.map .byte ++ items) = bytes ++ leading items := by
    induction bytes with
    | nil => rfl
    | cons b bytes same => rw [List.map_cons, List.cons_append, leading, same, List.cons_append]
  induction stretch with
  | nil => exact clear
  | cons b stretch rest =>
    rw [List.tails_cons, List.forall_mem_cons] at inert
    rw [List.map_cons, List.cons_append]
    refine .byte ?_ (fun own later split => ?_) (rest inert.2 ?_)
    · rw [leading_eq]
      exact inert.1
    · cases stretch with
      | nil => exact ends
      | cons c stretch => cases split
    · cases stretch with
      | nil => rfl
      | cons c stretch => rwa [List.getLast?_cons_cons] at ends

def oneSpace : Gap := ⟨⟨[32], by decide +kernel⟩, by decide +kernel⟩

def starText : Bytes := encode "\nimport * as c from 'c'\n"

/-- An import of the default, one of all that a module has, and one of names in braces. -/
def threeImports : List Item :=
  .declaration (.default oneSpace ⟨"a", by decide, List.all_iff_forall_prop.mp (by decide)⟩ oneSpace oneSpace
      ⟨39, rfl, encode "a", by decide, by decide +kernel⟩) ::
    (starText.map .byte ++
      .declaration (.braced oneSpace.toSpace ⟨" b, ref ".toList, List.all_iff_forall_prop.mp (by decide)⟩
        oneSpace.toSpace oneSpace ⟨39, rfl, encode "x", by decide, by decide +kernel⟩) ::
      ((encode "\nf(a)\n").map .byte ++ []))

def refName : Identifier := ⟨"ref", by decide, List.all_iff_forall_prop.mp (by decide)⟩

def starName : Identifier := ⟨"c", by decide, List.all_iff_forall_prop.mp (by decide)⟩

/-- Where the word is not at the front, nothing begins. -/
theorem inert_of_not_prefix {bytes : Bytes} (other : ¬ encode "import" <+: bytes) : Inert names bytes :=
  fun behind word => absurd ⟨behind, word.symm⟩ other

theorem clear_threeImports : Clear [refName, starName] threeImports := by
  have ascii (declaration : Import) (small : ∀ first bindings second third source,
      declaration = .braced first bindings second third source → ∀ c ∈ bindings.text, c.toNat < 0x7F) :
      ∀ name ∈ [refName, starName], declaration.Sharp name := fun name _ => Import.sharp_of_ascii name small
  refine .declaration (ascii _ nofun) (.bytes (.declaration (ascii _ ?_) (.bytes .nil ?_ (by decide))) ?_ (by decide))
  · rintro first bindings second third source ⟨⟩
    exact List.all_iff_forall_prop.mp (by decide)
  · have others : ∀ tail ∈ (encode "\nf(a)\n").tails, ¬ encode "import" <+: tail ++ leading [] := by decide
    exact fun tail mem => inert_of_not_prefix (others tail mem)
  · have others : ∀ tail ∈ starText.tails, ¬ encode "import" <+: tail ∨ tail = encode "import * as c from 'c'\n" := by
      decide +kernel
    intro tail mem
    rcases others tail mem with other | rfl
    · exact inert_of_not_prefix (by simpa [leading] using other)
    · intro behind _ own _ shape taken more rest same
      have word : encode "import" ++ ([32] ++ ([42] ++ ([32] ++ 97 :: (encode "s c from 'c'\n" ++ more)))) = taken ++ rest := by
        rw [← same]
        rfl
      exact not_imports_of_word ⟨by decide, by decide +kernel⟩ (by decide +kernel) rfl
        ⟨by decide, by decide +kernel⟩ ⟨rfl, by decide +kernel⟩ word

/-- An import of names in braces leaves with all of them, and one of all that a module has stays. -/
theorem braced_import_leaves :
    textOf threeImports = encode "import a from 'a'\nimport * as c from 'c'\nimport \x7b b, ref \x7d from 'x'\nf(a)\n" ∧
      Clear [refName, starName] threeImports ∧
      removeNamedImports (textOf threeImports) ["ref", "c"] = encode "import a from 'a'\nimport * as c from 'c'\nf(a)\n" ∧
      ∃ left, Pruned (Import.BringsAny [refName, starName]) false threeImports left ∧
        (∀ declaration, .declaration declaration ∈ left ↔
          .declaration declaration ∈ threeImports ∧ ¬ declaration.BringsAny [refName, starName]) ∧
        removeNamedImports (textOf threeImports) ["ref", "c"] =
          (if textOf left = textOf threeImports then textOf threeImports else squeezeLines (textOf left)) ∧
        removeNamedImports (removeNamedImports (textOf threeImports) ["ref", "c"]) ["ref", "c"] =
          removeNamedImports (textOf threeImports) ["ref", "c"] :=
  ⟨by decide +kernel, clear_threeImports, by decide +kernel, named_imports_leave clear_threeImports⟩

def accentedImport : Import :=
  .braced oneSpace.toSpace ⟨" éref ".toList, List.all_iff_forall_prop.mp (by decide)⟩ oneSpace.toSpace oneSpace
    ⟨39, rfl, encode "x", by decide, by decide +kernel⟩

/-- The end of a longer identifier is taken for the name, if the letter in front of it is not one of ASCII. -/
theorem accented_import_leaves :
    textOf [.declaration accentedImport, .byte lineFeed] = encode "import \x7b éref \x7d from 'x'\n" ∧
      ¬ accentedImport.Brings refName ∧
      removeNamedImports (textOf [.declaration accentedImport, .byte lineFeed]) ["ref"] = [] := by
  refine ⟨by decide +kernel, by decide +kernel, by decide +kernel⟩

end Scaffold.Edit
