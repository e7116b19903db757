import Scaffold.Proofs.Erasure.Arrangement
import Scaffold.Proofs.Syntax.Elements
import Scaffold.Proofs.Syntax.Program
import Scaffold.Proofs.Text.Layout

/-! # What the edits of erasure take

A site that is cut out takes with it white space, a semicolon behind a statement, and the stretch up to
the comma of an element. The assignments of a constructor replace white space only.
-/

namespace Scaffold.Erasure

open Scaffold.Text Scaffold.Syntax

namespace Site

/-- The edit of a site, if it has one. That of an import depends on the names that are used. -/
def edit? (source : Bytes) (used : List String) : Site → Option Edit
  | exact tree => some (.removal tree.start tree.stop)
  | tail start stop _ => some (.removal start stop)
  | clause tree =>
    some (.removal (tree.start - ((source.take tree.start).reverse.takeWhile isIndent).length) tree.stop)
  | statement tree => some (statementRemoval source tree)
  | element siblings tree =>
    some (.removal (elementRange source siblings tree).1 (elementRange source siblings tree).2)
  | marker tree => some (.removal tree.start (skipSpaces source tree.stop))
  | enumeration tree => some ⟨tree.start, tree.stop, encode (enumerationText source tree)⟩
  | importing tree => importEdit? source used tree

/-- What is found at a site is its edit, once the imports are judged. -/
theorem edits_findings (source : Bytes) (used : List String) (site : Site) :
    (site.findings source).edits ++ (site.findings source).imports.filterMap (importEdit? source used) =
      (site.edit? source used).toList := by
  cases site with
  | importing tree =>
    change [tree].filterMap (importEdit? source used) = (importEdit? source used tree).toList
    rw [List.filterMap_cons, List.filterMap_nil]
    cases importEdit? source used tree <;> rfl
  | _ => rfl

end Site

/-- The names that are used as values in a file. -/
def usedIn (source : Bytes) (root : Tree) : List String := (walk source [root] root).used

theorem edits_allFindings (source : Bytes) (found : List Block) :
    (allFindings source found).edits = found.flatMap fun block => (block.findings source).edits := by
  induction found with
  | nil => rfl
  | cons head later eq =>
    rw [List.flatMap_cons, ← eq]
    rfl

theorem used_allFindings (source : Bytes) (found : List Block) :
    (allFindings source found).used = found.flatMap fun block => (block.findings source).used := by
  induction found with
  | nil => rfl
  | cons head later eq =>
    rw [List.flatMap_cons, ← eq]
    rfl

theorem imports_allFindings (source : Bytes) (found : List Block) :
    (allFindings source found).imports = found.flatMap fun block => (block.findings source).imports := by
  induction found with
  | nil => rfl
  | cons head later eq =>
    rw [List.flatMap_cons, ← eq]
    rfl

/-- The edits of a file are those of its sites and of its constructors. -/
theorem mem_erasureEdits_iff {source : Bytes} {root : Tree} {edit : Edit} :
    edit ∈ erasureEdits source root ↔
      (∃ site, .site site ∈ blocks source [root] root ∧ site.edit? source (usedIn source root) = some edit) ∨
        ∃ method, .constructor method ∈ blocks source [root] root ∧ edit ∈ (assignProperties source method).edits := by
  have each (block : Block) :
      edit ∈ (block.findings source).edits ∨
        (∃ statement ∈ (block.findings source).imports, importEdit? source (usedIn source root) statement = some edit) ↔
      (∃ site, block = .site site ∧ site.edit? source (usedIn source root) = some edit) ∨
        ∃ method, block = .constructor method ∧ edit ∈ (assignProperties source method).edits := by
    cases block with
    | token tree =>
      simp only [Block.findings]
      split <;> simp [Findings.empty]
    | site site =>
      have eq := site.edits_findings source (usedIn source root)
      have iff : edit ∈ (site.edit? source (usedIn source root)).toList ↔
          site.edit? source (usedIn source root) = some edit := by
        simp
      rw [← eq, List.mem_append, List.mem_filterMap] at iff
      simpa [Block.findings] using iff
    | constructor method =>
      have none_ : (assignProperties source method).imports = [] := by
        unfold assignProperties
        split
        · dsimp only
          split <;> rfl
        · rfl
      simp [Block.findings, none_]
  unfold erasureEdits
  dsimp only
  change edit ∈ (walk source [root] root).edits ++
    (walk source [root] root).imports.filterMap (importEdit? source (usedIn source root)) ↔ _
  rw [walk_eq_allFindings, edits_allFindings, imports_allFindings, List.mem_append, List.mem_filterMap]
  constructor
  · intro found
    obtain ⟨block, mem, own⟩ : ∃ block ∈ blocks source [root] root, edit ∈ (block.findings source).edits ∨
        ∃ statement ∈ (block.findings source).imports, importEdit? source (usedIn source root) statement = some edit := by
      rcases found with found | ⟨statement, found, judged⟩
      · obtain ⟨block, mem, own⟩ := List.mem_flatMap.mp found
        exact ⟨block, mem, .inl own⟩
      · obtain ⟨block, mem, own⟩ := List.mem_flatMap.mp found
        exact ⟨block, mem, .inr ⟨statement, own, judged⟩⟩
    rcases (each block).mp own with ⟨site, rfl, eq⟩ | ⟨method, rfl, eq⟩
    · exact .inl ⟨site, mem, eq⟩
    · exact .inr ⟨method, mem, eq⟩
  · intro found
    obtain ⟨block, mem, own⟩ : ∃ block ∈ blocks source [root] root, edit ∈ (block.findings source).edits ∨
        ∃ statement ∈ (block.findings source).imports, importEdit? source (usedIn source root) statement = some edit := by
      rcases found with ⟨site, mem, eq⟩ | ⟨method, mem, eq⟩
      · exact ⟨_, mem, (each _).mpr (.inl ⟨site, rfl, eq⟩)⟩
      · exact ⟨_, mem, (each _).mpr (.inr ⟨method, rfl, eq⟩)⟩
    rcases own with own | ⟨statement, own, judged⟩
    · exact .inl (List.mem_flatMap.mpr ⟨block, mem, own⟩)
    · exact .inr ⟨statement, List.mem_flatMap.mpr ⟨block, mem, own⟩, judged⟩

/-! ## What an edit takes beside its site -/

namespace Site

/-- Whether the site may be a statement, behind which a semicolon goes too. -/
def isStatement : Site → Bool
  | statement _ | importing _ => true
  | _ => false

/-- The site and what may go with it: white space, the semicolon directly behind a statement, and the
stretch from an element to its comma. -/
inductive Reaches (source : Bytes) : Site → Nat → Prop
  | own {site : Site} {position : Nat} (after : site.start ≤ position) (before : position < site.stop) :
      Reaches source site position
  | blank {site : Site} {position : Nat} {byte : UInt8} (at_ : source[position]? = some byte)
      (blank : isBlankByte byte = true) : Reaches source site position
  | semicolon {site : Site} (closes : site.isStatement = true) (at_ : source[site.stop]? = some 59) :
      Reaches source site site.stop
  | beside {siblings : List Tree} {tree : Tree} {position : Nat} (after : (tree.stretch siblings).1 ≤ position)
      (before : position < (tree.stretch siblings).2) : Reaches source (.element siblings tree) position

/-- What is asked of an edit of a site: it is one of the source, and takes nothing but what may go. -/
structure Bounded (source : Bytes) (site : Site) (edit : Edit) : Prop where
  fits : edit.Fits source.length
  reaches : ∀ position, edit.Covers position → Reaches source site position

/-- The edit takes the whole site. -/
def Spanned (site : Site) (edit : Edit) : Prop := edit.start ≤ site.start ∧ site.stop ≤ edit.stop

end Site

theorem reaches_of_blank {source : Bytes} {site : Site} {start stop position : Nat} (blank : Blank source start stop)
    (after : start ≤ position) (before : position < stop) : Site.Reaches source site position := by
  obtain ⟨byte, at_, isBlank⟩ := blank position after before
  exact .blank at_ isBlank

/-- A range that is widened over white space stays within reach. -/
theorem bounded_of_widened {source : Bytes} {site : Site} {start stop newStart newStop : Nat} {replacement : Bytes}
    (widened : Widened source start stop newStart newStop) (le : start ≤ stop)
    (inner : ∀ position, start ≤ position → position < stop → Site.Reaches source site position) :
    Site.Bounded source site ⟨newStart, newStop, replacement⟩ := by
  have front := widened.start_le
  have back := widened.le_stop
  refine ⟨⟨by dsimp only; omega, widened.stop_le⟩, fun position covers => ?_⟩
  obtain ⟨after, before⟩ := covers
  rcases Nat.lt_or_ge position start with lt | ge
  · exact reaches_of_blank widened.front after lt
  · rcases Nat.lt_or_ge position stop with lt | past
    · exact inner position ge lt
    · exact reaches_of_blank widened.back past before

theorem widened_statementRemoval {source : Bytes} {tree : Tree} (ordered : tree.start ≤ tree.stop)
    (le : tree.stop ≤ source.length) :
    Widened source tree.start (pastSemicolon source tree.stop) (statementRemoval source tree).start
      (statementRemoval source tree).stop := by
  have widened := widened_lineRange ordered le
  unfold statementRemoval
  dsimp only
  split
  · exact ⟨widened.start_le, Nat.le_trans widened.le_stop (le_skipBlankLines _ _), skipBlankLines_le widened.stop_le,
      widened.front, widened.back.append (blank_skipBlankLines _ _)⟩
  · exact widened

/-- The lines of a statement, and the blank lines behind it, are within its reach. -/
theorem bounded_statementRemoval {source : Bytes} {site : Site} {tree : Tree} (closes : site.isStatement = true)
    (start : site.start = tree.start) (stop : site.stop = tree.stop) (ordered : tree.start ≤ tree.stop)
    (le : tree.stop ≤ source.length) :
    site.Bounded source (statementRemoval source tree) ∧ site.Spanned (statementRemoval source tree) := by
  have wider := widened_statementRemoval ordered le
  have past := le_pastSemicolon source tree.stop
  refine ⟨bounded_of_widened wider (by omega) fun position after before => ?_, ?_, ?_⟩
  · rcases Nat.lt_or_ge position tree.stop with lt | ge
    · exact .own (by omega) (by omega)
    · rcases pastSemicolon_spec source tree.stop with same | ⟨same, semicolon⟩
      · omega
      · obtain rfl : position = site.stop := by omega
        exact .semicolon closes (stop ▸ semicolon)
  · rw [start]
    exact wider.start_le
  · rw [stop]
    exact Nat.le_trans past wider.le_stop

/-- The lines of an element and of its comma are within its reach. -/
theorem bounded_elementRange {source : Bytes} {start stop : Nat} {siblings : List Tree} {tree : Tree}
    (placed : Tree.PlacedIn start stop siblings) (mem : tree ∈ siblings) (notComment : tree.isComment = false)
    (le : stop ≤ source.length) :
    (Site.element siblings tree).Bounded source
        (.removal (elementRange source siblings tree).1 (elementRange source siblings tree).2) ∧
      (elementRange source siblings tree).1 ≤ (tree.stretch siblings).1 ∧
      (tree.stretch siblings).2 ≤ (elementRange source siblings tree).2 := by
  have bounds := placed.stretch_bounds mem notComment
  have own := placed.bounds mem
  have widened := (lineWidened_elementRange placed mem notComment le).toWidened
  exact ⟨bounded_of_widened widened (by omega) fun position after before => .beside after before, widened.start_le,
    widened.le_stop⟩

/-- What becomes of an import statement: one of types goes, and so does one of which no name stays. -/
inductive ImportFate (source : Bytes) (used : List String) (statement : Tree) : Option Edit → Prop
  | typed (marked : (statement.hasToken "type" || statement.hasToken "typeof") = true) :
      ImportFate source used statement (some (statementRemoval source statement))
  | bare (plain : (statement.hasToken "type" || statement.hasToken "typeof") = false)
      (missing : statement.children.find? (fun child => child.kind = .importClause) = none) :
      ImportFate source used statement none
  | unchanged {clause : Tree} (plain : (statement.hasToken "type" || statement.hasToken "typeof") = false)
      (found : statement.children.find? (fun child => child.kind = .importClause) = some clause)
      (all : (keptBindings source used clause).count = (keptBindings source used clause).total) :
      ImportFate source used statement none
  | dropped {clause : Tree} (plain : (statement.hasToken "type" || statement.hasToken "typeof") = false)
      (found : statement.children.find? (fun child => child.kind = .importClause) = some clause)
      (some_ : (keptBindings source used clause).count ≠ (keptBindings source used clause).total)
      (nothing : (keptBindings source used clause).count = 0) :
      ImportFate source used statement (some (statementRemoval source statement))
  | rewritten {clause : Tree} (plain : (statement.hasToken "type" || statement.hasToken "typeof") = false)
      (found : statement.children.find? (fun child => child.kind = .importClause) = some clause)
      (some_ : (keptBindings source used clause).count ≠ (keptBindings source used clause).total)
      (something : (keptBindings source used clause).count ≠ 0) :
      ImportFate source used statement (some ⟨clause.start, clause.stop, encode (keptBindings source used clause).text⟩)

theorem importFate (source : Bytes) (used : List String) (statement : Tree) :
    ImportFate source used statement (importEdit? source used statement) := by
  unfold importEdit?
  split
  · next marked => exact .typed marked
  · next unmarked =>
    have plain := Bool.eq_false_iff.mpr unmarked
    split
    · next missing => exact .bare plain missing
    · next clause found =>
      dsimp only
      split
      · next all => exact .unchanged plain found all
      · next some_ =>
        split
        · next nothing => exact .dropped plain found some_ nothing
        · next something => exact .rewritten plain found some_ something

/-! ## The edits of the sites of a file -/

namespace Site

variable {source : Bytes} {used : List String} {root : Tree} {site : Site} {edit : Edit}

/-- A site that a walk meets lies inside the file. -/
theorem bounds_of_met (placed : root.Placed) (met : Block.Met source root (.site site)) :
    root.start ≤ site.start ∧ site.start ≤ site.stop ∧ site.stop ≤ root.stop := by
  cases met with
  | whole inside member whole =>
    obtain ⟨start, stop, -⟩ := whole.spec
    have := placed.child inside member
    omega
  | @tail parent expression others inside _ children =>
    have inner := placed.inner inside
    have bounds := inner.1.children.bounds (children ▸ List.mem_cons_self : expression ∈ _)
    change root.start ≤ expression.stop ∧ expression.stop ≤ parent.stop ∧ parent.stop ≤ root.stop
    omega
  | @marker parent child inside _ member _ =>
    have := placed.child inside member
    change root.start ≤ child.start ∧ child.start ≤ child.stop ∧ child.stop ≤ root.stop
    omega

theorem isComment_of_element {tree : Tree}
    (element : ((tree.kind = .exportSpecifier && tree.hasToken "type") || isThisParameter tree) = true) :
    tree.isComment = false := by
  cases comment : tree.isComment with
  | false => rfl
  | true =>
    have kind : tree.kind = .comment := of_decide_eq_true comment
    simp [kind, isThisParameter] at element

/-- The edit of an import that writes its clause anew. -/
inductive ClauseEdit (source : Bytes) (used : List String) : Site → Edit → Prop
  | mk {statement clause : Tree} (found : statement.children.find? (fun child => child.kind = .importClause) = some clause) :
      ClauseEdit source used (.importing statement)
        ⟨clause.start, clause.stop, encode (keptBindings source used clause).text⟩

/-- The edit of a site takes no more than what may go with it, and it takes the whole site, unless it only writes
the clause of an import anew. -/
theorem bounded_of_met (placed : root.Placed) (le : root.stop ≤ source.length)
    (met : Block.Met source root (.site site)) (eq : site.edit? source used = some edit) :
    site.Bounded source edit ∧ (site.Spanned edit ∨ site.ClauseEdit source used edit) := by
  have bounds := bounds_of_met placed met
  have inside : site.stop ≤ source.length := by omega
  have core (start stop : Nat) (front : site.start = start) (back : site.stop = stop) (replacement : Bytes) :
      site.Bounded source ⟨start, stop, replacement⟩ ∧ (site.Spanned ⟨start, stop, replacement⟩ ∨
        site.ClauseEdit source used ⟨start, stop, replacement⟩) := by
    refine ⟨⟨⟨by dsimp only; omega, by dsimp only; omega⟩, fun position covers => ?_⟩, .inl ?_⟩
    · exact .own (front ▸ covers.1) (back ▸ covers.2)
    · exact ⟨Nat.le_of_eq front.symm, Nat.le_of_eq back⟩
  cases site with
  | exact tree =>
    cases eq
    exact core _ _ rfl rfl []
  | tail start stop trees =>
    cases eq
    exact core _ _ rfl rfl []
  | clause tree =>
    cases eq
    change root.start ≤ tree.start ∧ tree.start ≤ tree.stop ∧ tree.stop ≤ root.stop at bounds
    have widened : Widened source tree.start tree.stop
        (tree.start - ((source.take tree.start).reverse.takeWhile isIndent).length) tree.stop :=
      ⟨Nat.sub_le _ _, Nat.le_refl _, inside, blank_before (Nat.le_trans bounds.2.1 inside), .refl _ _⟩
    exact ⟨bounded_of_widened widened bounds.2.1 fun position after before => .own after before,
      .inl ⟨Nat.sub_le _ _, Nat.le_refl _⟩⟩
  | statement tree =>
    cases eq
    change root.start ≤ tree.start ∧ tree.start ≤ tree.stop ∧ tree.stop ≤ root.stop at bounds
    obtain ⟨bounded, spanned⟩ := bounded_statementRemoval (show (statement tree).isStatement = true from rfl) rfl rfl
      bounds.2.1 inside
    exact ⟨bounded, .inl spanned⟩
  | element siblings tree =>
    cases eq
    cases met with
    | whole met member whole =>
      cases whole with
      | element element =>
        have notComment := isComment_of_element element
        have inner := placed.inner met
        obtain ⟨bounded, front, back⟩ :=
          bounded_elementRange inner.1.children member notComment (Nat.le_trans inner.2.2 le)
        have stretch := inner.1.children.stretch_bounds member notComment
        exact ⟨bounded, .inl ⟨Nat.le_trans front stretch.2.1, Nat.le_trans stretch.2.2.1 back⟩⟩
  | marker tree =>
    cases eq
    change root.start ≤ tree.start ∧ tree.start ≤ tree.stop ∧ tree.stop ≤ root.stop at bounds
    have widened : Widened source tree.start tree.stop tree.start (skipSpaces source tree.stop) :=
      ⟨Nat.le_refl _, le_skipSpaces _ _, skipSpaces_le inside, .refl _ _, blank_skipSpaces _ _⟩
    exact ⟨bounded_of_widened widened bounds.2.1 fun position after before => .own after before,
      .inl ⟨Nat.le_refl _, le_skipSpaces _ _⟩⟩
  | enumeration tree =>
    cases eq
    exact core _ _ rfl rfl _
  | importing tree =>
    change root.start ≤ tree.start ∧ tree.start ≤ tree.stop ∧ tree.stop ≤ root.stop at bounds
    have removal := bounded_statementRemoval (show (importing tree).isStatement = true from rfl) rfl rfl
      bounds.2.1 inside
    change importEdit? source used tree = some edit at eq
    have fate := importFate source used tree
    rw [eq] at fate
    cases fate with
    | typed => exact ⟨removal.1, .inl removal.2⟩
    | dropped => exact ⟨removal.1, .inl removal.2⟩
    | @rewritten clause _ found =>
      refine ⟨?_, .inr (.mk found)⟩
      cases met with
      | whole met member whole =>
        cases whole with
        | importing kind =>
          have inner := placed.inner (Tree.mem_preorder_of_mem_children met member)
          have clauseBounds := inner.1.children.bounds (List.mem_of_find?_eq_some found)
          refine ⟨⟨by dsimp only; omega, by dsimp only; omega⟩, fun position covers => ?_⟩
          obtain ⟨after, before⟩ : clause.start ≤ position ∧ position < clause.stop := covers
          exact .own (by change tree.start ≤ position; omega) (by change position < tree.stop; omega)

/-- The edit of a construct that is cut out takes the whole of it. -/
theorem spanned_of_isRemoval (placed : root.Placed) (le : root.stop ≤ source.length)
    (met : Block.Met source root (.site site)) (isRemoval : site.isRemoval = true)
    (eq : site.edit? source used = some edit) : site.Spanned edit := by
  rcases (bounded_of_met placed le met eq).2 with spanned | clause
  · exact spanned
  · cases clause
    cases isRemoval

end Site

/-! ## The edits of constructors -/

/-- Where the assignments of a constructor go: behind its first statement or its opening brace, in place of
white space at most. -/
theorem exists_of_mem_assignProperties {source : Bytes} {method : Tree} {edit : Edit}
    (mem : edit ∈ (assignProperties source method).edits) :
    ∃ body, method.child? .body = some body ∧
      ((∃ first ∈ body.parts, edit.start = first.stop ∧ edit.stop = first.stop) ∨
        edit.start = body.start + 1 ∧ (edit.stop = body.start + 1 ∨
          edit.stop = body.stop - 1 ∧ isBlankRange source (body.start + 1) (body.stop - 1) = true)) := by
  unfold assignProperties at mem
  split at mem
  · next parameters body _ found =>
    refine ⟨body, found, ?_⟩
    dsimp only at mem
    split at mem
    · cases mem
    · rw [List.mem_singleton.mp mem]
      cases parts : body.parts with
      | nil =>
        right
        refine ⟨rfl, ?_⟩
        dsimp only
        split
        · next blank =>
          rw [Bool.and_eq_true] at blank
          exact .inr ⟨rfl, blank.2⟩
        · exact .inl rfl
      | cons first later =>
        dsimp only
        rw [List.isEmpty_cons, Bool.false_and, Bool.false_and, if_neg Bool.false_ne_true]
        split
        · exact .inl ⟨first, List.mem_cons_self, rfl, rfl⟩
        · exact .inr ⟨rfl, .inl rfl⟩
  · cases mem

/-- The assignments of a constructor replace white space only. -/
theorem fits_of_mem_assignProperties {source : Bytes} {root method : Tree} {edit : Edit} (placed : root.Placed)
    (shaped : root.Everywhere Tree.WellShaped) (le : root.stop ≤ source.length) (inside : method ∈ root.preorder)
    (constructor : isConstructor source method = true) (mem : edit ∈ (assignProperties source method).edits) :
    edit.Fits source.length ∧ Blank source edit.start edit.stop := by
  obtain ⟨body, found, where_⟩ := exists_of_mem_assignProperties mem
  have kind : method.kind = .methodDefinition := by
    simp only [isConstructor, Bool.and_eq_true, decide_eq_true_eq] at constructor
    exact constructor.1
  have member : body ∈ method.children := List.mem_of_find?_eq_some found
  have role : body.role = some .body := by simpa using List.find?_some found
  have room := (shaped method inside).roomy kind body member role
  have bounds := placed.child inside member
  rcases where_ with ⟨first, part, start, stop⟩ | ⟨start, stop | ⟨stop, blank⟩⟩
  · have firstBounds := placed.child (Tree.mem_preorder_of_mem_children inside member) (List.mem_filter.mp part).1
    have inner := (placed.inner (Tree.mem_preorder_of_mem_children inside member)).1.children.bounds (List.mem_filter.mp part).1
    rw [start, stop]
    exact ⟨⟨by omega, by omega⟩, .refl _ _⟩
  · rw [start, stop]
    exact ⟨⟨by omega, by omega⟩, .refl _ _⟩
  · rw [start, stop]
    exact ⟨⟨by omega, by omega⟩, blank_of_isBlankRange (by omega) blank⟩

/-- Every edit of a file is one of its text. -/
theorem fits_of_mem_erasureEdits {text : List Char} {root : Tree} (describes : root.Describes text) :
    ∀ edit ∈ erasureEdits (encodeChars text) root, edit.Fits (encodeChars text).length := by
  intro edit mem
  have le := describes.stop_le
  rcases mem_erasureEdits_iff.mp mem with ⟨site, met, eq⟩ | ⟨method, met, mem⟩
  · exact (Site.bounded_of_met describes.placed le (Block.met_of_mem_blocks describes.kind_eq met) eq).1.fits
  · cases Block.met_of_mem_blocks describes.kind_eq met with
    | constructor inside constructor =>
      exact (fits_of_mem_assignProperties describes.placed describes.shaped le inside constructor mem).1

end Scaffold.Erasure
