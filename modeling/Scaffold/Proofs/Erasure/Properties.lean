import Scaffold.Proofs.Erasure.Assignments

/-! # Where the properties of a constructor are assigned

The assignments of a constructor are dropped only for the sake of a construct that is erased or written anew and takes the
byte at their place. Where they are not, they stand in the output once, between the braces of the body, and nothing else is
written at their place.
-/

namespace Scaffold.Erasure

open Scaffold.Text Scaffold.Syntax

variable {source : Bytes} {text : List Char} {root method body : Tree} {names : List String}

/-! ## The one edit at its place -/

theorem imports_assignProperties (source : Bytes) (method : Tree) : (assignProperties source method).imports = [] := by
  unfold assignProperties
  split
  · dsimp only
    split <;> rfl
  · rfl

/-- The edits of a file are those of its blocks, once the imports are judged. -/
theorem erasureEdits_eq (source : Bytes) (root : Tree) :
    erasureEdits source root =
      ((blocks source [root] root).flatMap fun block => (block.findings source).edits) ++
        ((blocks source [root] root).flatMap fun block => (block.findings source).imports).filterMap
          (importEdit? source (usedIn source root)) := by
  rw [← edits_allFindings, ← imports_allFindings, ← walk_eq_allFindings]
  rfl

/-- A construct that is written anew has a byte at least. -/
theorem start_lt_stop_of_writes {site : Site} {used : List String} {edit : Edit} (placed : root.Placed)
    (met : Block.Met source root (.site site)) (eq : site.edit? source used = some edit) (writes : edit.replacement ≠ []) :
    edit.start < edit.stop := by
  by_cases isRemoval : site.isRemoval = true
  · obtain ⟨removal, removalEq, empty⟩ := exists_edit_of_isRemoval source used isRemoval
    rw [eq] at removalEq
    cases removalEq
    exact absurd empty writes
  · cases met with
    | tail | marker => exact absurd rfl isRemoval
    | @whole parent tree _ inside member whole =>
      cases whole with
      | enumeration =>
        cases eq
        exact (placed.child inside member).2.1
      | importing =>
        change importEdit? source used tree = some edit at eq
        have fate := importFate source used tree
        rw [eq] at fate
        cases fate with
        | typed => exact absurd rfl writes
        | dropped => exact absurd rfl writes
        | rewritten _ found =>
          exact (placed.child (Tree.mem_preorder_of_mem_children inside member) (List.mem_of_find?_eq_some found)).2.1
      | _ => exact absurd rfl isRemoval

/-- Of edits that lie apart one only begins at a place. -/
theorem filter_of_separate {edits : List Edit} {edit : Edit} {accepts : Edit → Bool} (apart : edits.Pairwise Separate)
    (ordered : ∀ other ∈ edits, other.start ≤ other.stop) (mem : edit ∈ edits) (accepted : accepts edit = true)
    (same : ∀ other ∈ edits, accepts other = true → other.start = edit.start) : edits.filter accepts = [edit] := by
  have found : edit ∈ edits.filter accepts := List.mem_filter.mpr ⟨mem, accepted⟩
  have pairwise : (edits.filter accepts).Pairwise Separate := apart.filter _
  have each {other : Edit} (mem : other ∈ edits.filter accepts) : other.start = edit.start ∧ other.start ≤ other.stop := by
    obtain ⟨inside, accepted⟩ := List.mem_filter.mp mem
    exact ⟨same other inside accepted, ordered other inside⟩
  generalize edits.filter accepts = left at found pairwise each
  match left with
  | [] => cases found
  | [only] => rw [List.mem_singleton.mp found]
  | first :: second :: later =>
    obtain ⟨begins, le⟩ := each List.mem_cons_self
    obtain ⟨begins', le'⟩ := each (List.mem_cons_of_mem _ List.mem_cons_self)
    rcases (List.pairwise_cons.mp pairwise).1 second List.mem_cons_self with before | after
    · omega
    · omega

/-- The applied edits that write something at a place. -/
def writtenAt (source : Bytes) (root : Tree) (place : Nat) : List Edit :=
  (appliedEdits source root).filter fun edit => edit.start = place && edit.replacement ≠ []

theorem mem_insertions {edit : Edit} (mem : .constructor method ∈ blocks source [root] root)
    (own : (assignProperties source method).edits = [edit]) : edit ∈ insertions source (blocks source [root] root) := by
  refine List.mem_flatMap.mpr ⟨_, mem, ?_⟩
  rw [Block.insertions, own]
  exact List.mem_cons_self

theorem constructor_mem_blocks (shaped : root.Everywhere Tree.WellShaped) (reached : Reached root method)
    (constructor : isConstructor source method = true) : .constructor method ∈ blocks source [root] root := by
  obtain ⟨siblings, subset⟩ := blocks_subset source shaped reached
  apply subset
  have plain : wholeSite? siblings method = none := wholeSite?_eq_none_iff.mpr (isClosed_of_isConstructor constructor)
  have methodKind := kind_of_isConstructor constructor
  have inner : method.children ≠ [] := by
    intro childless
    rw [isConstructor_of_children_eq_nil childless] at constructor
    cases constructor
  obtain ⟨kind, role, start, stop, children⟩ := method
  change kind = .methodDefinition at methodKind
  subst methodKind
  unfold blocks
  dsimp only
  rw [plain]
  dsimp only
  rw [if_neg (by simpa [isValueName, Tree.children] using inner), if_neg (by simp [isAssertion]), if_pos constructor]
  exact List.mem_append_left _ List.mem_cons_self

section Place

variable {edit : Edit} (describes : root.Describes text) (blocked : root.Everywhere (Tree.HasBlock text))
  (mem : .constructor method ∈ blocks (encodeChars text) [root] root)
  (own : (assignProperties (encodeChars text) method).edits = [edit])
  (free : ∀ site other, .site site ∈ blocks (encodeChars text) [root] root →
    site.edit? (encodeChars text) (usedIn (encodeChars text) root) = some other → ¬ other.Covers edit.start)
include describes blocked mem own free

/-- The edit of a constructor is applied, where nothing else takes the byte at its place. -/
theorem mem_appliedEdits_of_free : edit ∈ appliedEdits (encodeChars text) root := by
  have present : edit ∈ erasureEdits (encodeChars text) root := by
    refine mem_erasureEdits_iff.mpr (.inr ⟨method, mem, ?_⟩)
    rw [own]
    exact List.mem_cons_self
  rcases mem_applied_or_begins_inside present with taken | ⟨other, taken, begins, inside⟩
  · exact taken
  · rcases mem_erasureEdits_iff.mp (mem_of_mem_applied taken) with ⟨site, found, eq⟩ | ⟨another, found, member⟩
    · exact absurd ⟨begins, inside⟩ (free site other found eq)
    · have otherMem : other ∈ insertions (encodeChars text) (blocks (encodeChars text) [root] root) :=
        List.mem_flatMap.mpr ⟨_, found, member⟩
      have apart : ∀ first ∈ insertions (encodeChars text) (blocks (encodeChars text) [root] root),
          ∀ second ∈ insertions (encodeChars text) (blocks (encodeChars text) [root] root),
            first = second ∨ Separate first second := by
        have separate : (insertions (encodeChars text) (blocks (encodeChars text) [root] root)).Pairwise Separate :=
          separate_insertions [root] describes.placed describes.shaped blocked
        refine List.Pairwise.forall_of_forall_of_flip (fun _ _ => .inl rfl) (separate.imp .inr) (separate.imp ?_)
        exact fun apart => .inr apart.symm
      have ordered := (fits_of_mem_erasureEdits describes edit present).1
      rcases apart edit (mem_insertions mem own) other otherMem with rfl | before | after
      · exact taken
      · omega
      · omega

/-- Of all edits of the file that one only writes something at its place. -/
theorem filter_erasureEdits_of_free (writes : edit.replacement ≠ []) :
    ((erasureEdits (encodeChars text) root).filter fun other => other.start = edit.start && other.replacement ≠ []) = [edit] := by
  have siteless {site : Site} {other : Edit} (found : .site site ∈ blocks (encodeChars text) [root] root)
      (eq : site.edit? (encodeChars text) (usedIn (encodeChars text) root) = some other) :
      ¬ (decide (other.start = edit.start) && decide (other.replacement ≠ [])) = true := by
    rw [Bool.and_eq_true, decide_eq_true_eq, decide_eq_true_eq]
    rintro ⟨same, writes⟩
    have lt := start_lt_stop_of_writes describes.placed (Block.met_of_mem_blocks describes.kind_eq found) eq writes
    exact free site other found eq ⟨Nat.le_of_eq same, by omega⟩
  have ofSite {site : Site} {other : Edit} (found : .site site ∈ blocks (encodeChars text) [root] root)
      (mem : other ∈ (site.findings (encodeChars text)).edits ++
        (site.findings (encodeChars text)).imports.filterMap (importEdit? (encodeChars text) (usedIn (encodeChars text) root))) :
      ¬ (decide (other.start = edit.start) && decide (other.replacement ≠ [])) = true := by
    rw [Site.edits_findings, Option.mem_toList] at mem
    exact siteless found mem
  have noImports : (((blocks (encodeChars text) [root] root).flatMap fun block =>
      (block.findings (encodeChars text)).imports).filterMap
        (importEdit? (encodeChars text) (usedIn (encodeChars text) root))).filter
          (fun other => other.start = edit.start && other.replacement ≠ []) = [] := by
    refine List.filter_eq_nil_iff.mpr fun other mem => ?_
    obtain ⟨statement, mem, judged⟩ := List.mem_filterMap.mp mem
    obtain ⟨block, found, mem⟩ := List.mem_flatMap.mp mem
    cases block with
    | site site => exact ofSite found (List.mem_append_right _ (List.mem_filterMap.mpr ⟨statement, mem, judged⟩))
    | token tree =>
      rw [Block.findings] at mem
      split at mem <;> cases mem
    | constructor another =>
      rw [Block.findings, imports_assignProperties] at mem
      cases mem
  rw [erasureEdits_eq, List.filter_append, noImports, List.append_nil, List.filter_flatMap]
  have same : ((blocks (encodeChars text) [root] root).flatMap fun block => (block.findings (encodeChars text)).edits.filter
      fun other => other.start = edit.start && other.replacement ≠ []) =
        (insertions (encodeChars text) (blocks (encodeChars text) [root] root)).filter
          fun other => other.start = edit.start && other.replacement ≠ [] := by
    rw [insertions, List.filter_flatMap]
    apply List.flatMap_congr
    intro block found
    cases block with
    | site site =>
      exact List.filter_eq_nil_iff.mpr fun other mem => ofSite found (List.mem_append_left _ mem)
    | token tree =>
      rw [Block.findings]
      split <;> rfl
    | constructor another => rfl
  rw [same]
  apply filter_of_separate (separate_insertions [root] describes.placed describes.shaped blocked)
  · intro other mem
    obtain ⟨block, found, mem⟩ := List.mem_flatMap.mp mem
    cases block with
    | constructor another =>
      exact (fits_of_mem_erasureEdits describes other (mem_erasureEdits_iff.mpr (.inr ⟨another, found, mem⟩))).1
    | _ => cases mem
  · exact mem_insertions mem own
  · simpa using writes
  · intro other _ accepted
    exact of_decide_eq_true ((Bool.and_eq_true _ _).mp accepted).1

theorem writtenAt_eq (writes : edit.replacement ≠ []) : writtenAt (encodeChars text) root edit.start = [edit] := by
  have sorted : ((erasureEdits (encodeChars text) root).mergeSort Edit.before).filter
      (fun other => other.start = edit.start && other.replacement ≠ []) = [edit] := by
    have perm := (List.mergeSort_perm (erasureEdits (encodeChars text) root) Edit.before).filter
      fun other => other.start = edit.start && other.replacement ≠ []
    rw [filter_erasureEdits_of_free describes blocked mem own free writes] at perm
    exact List.perm_singleton.mp perm
  have sublist : (writtenAt (encodeChars text) root edit.start).Sublist [edit] := by
    rw [← sorted]
    exact (appliedFrom_sublist 0 _).filter _
  have taken : edit ∈ writtenAt (encodeChars text) root edit.start := by
    refine List.mem_filter.mpr ⟨mem_appliedEdits_of_free describes blocked mem own free, ?_⟩
    simpa using writes
  exact sublist.eq_of_length_le (List.length_pos_of_mem taken)

end Place

/-! ## Braces stay -/

/-- A token that the walk comes to lies in no site. -/
theorem notMem_leaves_of_token {leaf : Tree} {site : Site} (describes : root.Describes text) (lt : leaf.start < leaf.stop)
    (token : .token leaf ∈ blocks source [root] root) (found : .site site ∈ blocks source [root] root) : leaf ∉ site.leaves := by
  intro mem
  have bounds := Site.leaf_bounds_of_met describes.placed (Block.met_of_mem_blocks describes.kind_eq found) mem
  have arranged := arranged_blocks source [root] describes.placed
  have apart : ∀ one ∈ blocks source [root] root, ∀ two ∈ blocks source [root] root, one = two ∨ one.Apart two := by
    refine List.Pairwise.forall_of_forall_of_flip (fun _ _ => .inl rfl) (arranged.apart.imp .inr) (arranged.apart.imp ?_)
    exact fun apart => .inr apart.symm
  rcases apart _ token _ found with same | before | after
  · cases same
  · change leaf.stop ≤ site.start at before
    omega
  · change site.stop ≤ leaf.start at after
    omega

theorem token_mem_blocks {leaf : Tree} {mark : String} (shaped : root.Everywhere Tree.WellShaped) (reached : Reached root leaf)
    (childless : leaf.children = []) (kind : leaf.kind = .token mark) : .token leaf ∈ blocks source [root] root := by
  obtain ⟨siblings, subset⟩ := blocks_subset source shaped reached
  apply subset
  have layout := layout_blocks source siblings leaf
  generalize blocks source siblings leaf = found at layout ⊢
  cases layout with
  | whole whole =>
    have closed := whole.isClosed
    simp [isClosed, isTypeConstruct, kind, isTypeSyntax, isTypeStatement, isAmbientField, isTypeExport,
      isThisParameter] at closed
  | token => exact List.mem_cons_self
  | assertion _ children => simp [childless] at children
  | construct inner => exact absurd childless inner

/-- A brace that the walk comes to is kept. -/
theorem kept_brace {brace : Tree} {mark : String} (describes : root.Describes text) (reached : Reached root brace)
    (isBrace : brace.IsBrace text mark) (notComma : mark ≠ ",") :
    .kept brace.start ∈ erasedOrigins (encodeChars text) root := by
  have lt : brace.start < brace.stop := by
    rw [isBrace.stop_eq]
    exact Nat.lt_succ_self _
  have leaf : brace ∈ root.leaves := by
    apply mem_leaves_of_mem_preorder reached.mem_preorder
    rw [Tree.leaves_of_children_eq_nil isBrace.childless]
    exact List.mem_cons_self
  have covers : brace.Covers brace.start := ⟨Nat.le_refl _, lt⟩
  obtain ⟨dark, other⟩ := dark_of_beginsToken isBrace.begins
  have ink : Ink (encodeChars text) brace brace.start := by
    refine ⟨covers, fun byte at_ => ?_⟩
    obtain ⟨own, found, plain⟩ := dark
    rw [found] at at_
    cases at_
    exact plain
  refine (kept_mem_erasedOrigins_iff describes).mpr ⟨lt_length_of_covers describes leaf covers, ?_⟩
  rintro ⟨edit, taken, inside⟩
  rcases own_or_along describes leaf ink taken inside with ⟨site, found, -, mem⟩ | along
  · have token : .token brace ∈ blocks (encodeChars text) [root] root :=
      token_mem_blocks describes.shaped reached isBrace.childless isBrace.kind_eq
    exact notMem_leaves_of_token describes lt token found mem
  · cases along with
    | semicolon _ _ _ at_ => exact other at_
    | comment _ _ _ _ comment =>
      rw [Tree.isComment, isBrace.kind_eq] at comment
      cases comment
    | comma inside member about comma =>
      have placed := (describes.placed.inner inside).1.children
      have isComma := placed.isComma_of_listComma? member (isComment_of_isTypeConstruct about) comma
      have kind : brace.kind = .token "," := of_decide_eq_true isComma
      rw [isBrace.kind_eq] at kind
      exact notComma (Kind.token.inj kind)

/-! ## Constructors of a file -/

/-- The properties of a constructor are assigned in an output: once, in their place in the body, between the braces. -/
structure AssignsOnce (text : List Char) (root body : Tree) (names : List String) (edit : Edit) (front back : List Origin) :
    Prop where
  inserts : Inserts body names edit
  inside : body.start < edit.start ∧ edit.start ≤ edit.stop ∧ edit.stop < body.stop
  blank : Blank (encodeChars text) edit.start edit.stop
  /-- The run stands in the output. -/
  output_eq : erasedOrigins (encodeChars text) root = front ++ edit.replacement.map .inserted ++ back
  /-- No other edit writes at its place. -/
  once : writtenAt (encodeChars text) root edit.start = [edit]
  /-- What is kept of the source in front of its place stands in front of it, and the rest behind it. -/
  front_iff : ∀ position, .kept position ∈ front ↔
    .kept position ∈ erasedOrigins (encodeChars text) root ∧ position < edit.start
  back_iff : ∀ position, .kept position ∈ back ↔
    .kept position ∈ erasedOrigins (encodeChars text) root ∧ edit.stop ≤ position
  opening : .kept body.start ∈ front
  closing : ∃ brace ∈ body.children, brace.kind = .token "\x7d" ∧ .kept brace.start ∈ back
  /-- The statements stand behind its place, but for the call of the parent constructor that comes first. -/
  statements : ∀ statement ∈ body.parts, edit.stop ≤ statement.start ∨
    isParentCall statement = true ∧ body.parts.head? = some statement ∧ statement.stop = edit.start

/-- The statements of a body stand behind the place of the assignments, but for a call of the parent constructor. -/
theorem Inserts.statements {edit : Edit} (inserts : Inserts body names edit) (block : body.IsBlock text)
    (placed : body.Placed) : ∀ statement ∈ body.parts, edit.stop ≤ statement.start ∨
      isParentCall statement = true ∧ body.parts.head? = some statement ∧ statement.stop = edit.start := by
  intro statement mem
  have same : edit.stop = edit.start := by
    rcases inserts.stop_eq with same | ⟨none_, -⟩
    · exact same
    · rw [none_] at mem
      cases mem
  have place := inserts.place
  rw [same]
  generalize edit.start = anchor at place
  cases place with
  | @behindCall first later parts call =>
    have pairwise : body.parts.Pairwise fun first second => first.stop ≤ second.start := placed.children.pairwise.filter _
    rw [parts] at mem pairwise
    rcases List.mem_cons.mp mem with rfl | mem
    · exact .inr ⟨call, by rw [parts]; rfl, rfl⟩
    · exact .inl ((List.pairwise_cons.mp pairwise).1 statement mem)
  | atFront =>
    obtain ⟨opening, inner, closing, after, children, begins, isOpening, -⟩ := block.braces
    obtain ⟨member, part⟩ := List.mem_filter.mp mem
    have pairwise := placed.children.pairwise
    have stop := isOpening.stop_eq
    rw [children] at member pairwise
    rcases List.mem_cons.mp member with rfl | behind
    · rw [Tree.isNamed, isOpening.kind_eq] at part
      cases part
    · have := (List.pairwise_cons.mp pairwise).1 statement behind
      exact .inl (by omega)

/-- The walk enters the body of a constructor that it comes to. -/
theorem Reached.brace (reached : Reached root method) (constructor : isConstructor source method = true)
    (member : body ∈ method.children) (block : body.IsBlock text) {child : Tree} (childMem : child ∈ body.children)
    {mark : String} (kind : child.kind = .token mark) : Reached root child := by
  have methodKind := kind_of_isConstructor constructor
  have entered := isClosed_of_isConstructor constructor
  have bodyEntered : isClosed body = false := by
    simp [isClosed, isTypeConstruct, block.kind_eq, isTypeSyntax, isTypeStatement, isAmbientField, isTypeExport,
      isThisParameter]
  refine .child (.child reached entered ?_ member ?_) bodyEntered ?_ childMem ?_
  · rw [methodKind]
    rfl
  · rw [isMarker, block.kind_eq]
    rfl
  · rw [block.kind_eq]
    rfl
  · rw [isMarker, kind, block.kind_eq]
    rfl

/-- The properties that the parameters of a constructor declare are assigned once, behind the call of the parent
constructor where that is the first statement, and otherwise in front of all statements. This asks that no construct that
is erased or written anew takes the byte at that place. -/
theorem properties_are_assigned {dialect : Dialect} {parameters : Tree}
    (parsed : dialect.parse (encodeChars text) = .ok root) (reached : Reached root method)
    (constructor : isConstructor (encodeChars text) method = true)
    (foundParameters : method.child? .parameters = some parameters) (found : method.child? .body = some body)
    (declared : Declares (encodeChars text) parameters.children names) (some_ : names ≠ [])
    (free : ∀ place, IsPlace body place → ∀ site other, .site site ∈ blocks (encodeChars text) [root] root →
      site.edit? (encodeChars text) (usedIn (encodeChars text) root) = some other → ¬ other.Covers place) :
    erase dialect (encodeChars text) =
        .ok ((erasedOrigins (encodeChars text) root).map (Origin.byte (encodeChars text))) ∧
      ∃ edit front back, AssignsOnce text root body names edit front back := by
  have describes := Dialect.describes_of_parse parsed
  have blocked : root.Everywhere (Tree.HasBlock text) := fun method mem => hasBlock_of_parse parsed mem
  have inside := reached.mem_preorder
  have member : body ∈ method.children := List.mem_of_find?_eq_some found
  have role : body.role = some .body := by simpa using List.find?_some found
  have block := blocked method inside (kind_of_isConstructor constructor) body member role
  have placed := (describes.placed.inner (Tree.mem_preorder_of_mem_children inside member)).1
  have own := exists_assignProperties foundParameters found declared
  rw [if_neg some_] at own
  obtain ⟨edit, own, inserts⟩ := own
  have mem : .constructor method ∈ blocks (encodeChars text) [root] root :=
    constructor_mem_blocks describes.shaped reached constructor
  have writes := inserts.run.ne_nil some_
  have taken := mem_appliedEdits_of_free describes blocked mem own (free edit.start inserts.place)
  obtain ⟨front, back, output, frontIff, backIff⟩ := exists_origins_around (fits_of_mem_erasureEdits describes) taken
  obtain ⟨bounds, -, closing, closingMem, isClosing, before⟩ := inserts.inside block placed
  obtain ⟨opening, inner, _, after, children, begins, isOpening, -⟩ := block.braces
  have openingMem : opening ∈ body.children := by simp [children]
  have openingKept := kept_brace describes (reached.brace constructor member block openingMem isOpening.kind_eq) isOpening (by decide)
  have closingKept := kept_brace describes (reached.brace constructor member block closingMem isClosing.kind_eq) isClosing (by decide)
  have blank := (fits_of_mem_assignProperties describes.placed describes.shaped describes.stop_le inside constructor
    (by rw [own]; exact List.mem_cons_self)).2
  refine ⟨erase_of_parse parsed, edit, front, back, inserts, bounds, blank, output,
    writtenAt_eq describes blocked mem own (free edit.start inserts.place) writes, frontIff, backIff,
    (frontIff body.start).mpr ⟨begins ▸ openingKept, bounds.1⟩, ⟨closing, closingMem, isClosing.kind_eq, ?_⟩,
    inserts.statements block placed⟩
  -- the brace is kept, so it does not stand in the white space that the edit takes
  refine (backIff closing.start).mpr ⟨closingKept, Nat.le_of_not_lt fun lt => ?_⟩
  exact ((kept_mem_erasedOrigins_iff describes).mp closingKept).2 ⟨edit, taken, before, lt⟩

/-! ## Constructors of a derived class -/

/-- A file with a class that has nothing but a constructor. -/
def derivedClassTree (length : Nat) (parameters body : Tree) : Tree :=
  .node .program none 0 length [.node .classDeclaration none 0 (length - 1)
    [.node (.token "class") none 0 5 [], .node .typeIdentifier (some .name) 6 7 [],
      .node .classHeritage none 8 17
        [.node .extendsClause none 8 17 [.node (.token "extends") none 8 15 [], .node .identifier none 16 17 []]],
      .node .classBody (some .body) 18 (length - 1)
        [.node (.token "\x7b") none 18 19 [],
          .node .methodDefinition none 19 (length - 2)
            [.node .propertyIdentifier (some .name) 19 30 [], parameters, body],
          .node (.token "\x7d") none (length - 2) (length - 1) []]]]

/-- A private parameter. -/
def privateTree : Tree :=
  .node .requiredParameter none 31 40
    [.node .accessibilityModifier none 31 38 [.node (.token "private") none 31 38 []],
      .node .identifier (some .pattern) 39 40 []]

def privateOnlyTree : Tree :=
  .node .formalParameters (some .parameters) 30 41
    [.node (.token "(") none 30 31 [], privateTree, .node (.token ")") none 40 41 []]

/-- A call without arguments. -/
def bareCallTree (callee : Kind) (start between stop : Nat) : Tree :=
  .node .callExpression none start stop
    [.node callee (some .function) start between [],
      .node .arguments (some .arguments) between stop
        [.node (.token "(") none between (between + 1) [], .node (.token ")") none (between + 1) stop []]]

def parentFirstText : List Char :=
  "class A extends B \x7bconstructor(private x, readonly y) \x7bsuper()\nf()\x7d\x7d\n".toList

def twoParametersTree : Tree :=
  .node .formalParameters (some .parameters) 30 53
    [.node (.token "(") none 30 31 [], privateTree, .node (.token ",") none 40 41 [],
      .node .requiredParameter none 42 52
        [.node (.token "readonly") none 42 50 [], .node .identifier (some .pattern) 51 52 []],
      .node (.token ")") none 52 53 []]

def parentFirstBody : Tree :=
  .node .statementBlock (some .body) 54 67
    [.node (.token "\x7b") none 54 55 [],
      .node .expressionStatement none 55 62 [bareCallTree .super 55 60 62],
      .node .expressionStatement none 63 66 [bareCallTree .identifier 63 64 66],
      .node (.token "\x7d") none 66 67 []]

def parentFirstTree : Tree := derivedClassTree 69 twoParametersTree parentFirstBody

def parentFirstMethod : Tree :=
  .node .methodDefinition none 19 67
    [.node .propertyIdentifier (some .name) 19 30 [], twoParametersTree, parentFirstBody]

private theorem reached_parentFirstMethod : Reached parentFirstTree parentFirstMethod := by
  have class_ : Reached parentFirstTree parentFirstTree.children[0]! := .child .root rfl rfl List.mem_cons_self rfl
  have body : Reached parentFirstTree parentFirstTree.children[0]!.children[3]! := by
    refine .child class_ rfl rfl ?_ rfl
    decide +kernel
  refine .child body rfl rfl ?_ rfl
  decide +kernel

set_option maxRecDepth 8000 in
theorem properties_follow_parent :
    Dialect.plain.parse (encodeChars parentFirstText) = .ok parentFirstTree ∧
      Declares (encodeChars parentFirstText) twoParametersTree.children ["x", "y"] ∧
      erase .plain (encodeChars parentFirstText) =
        .ok (encode "class A extends B \x7bconstructor(x, y) \x7bsuper()\nthis.x = x;\nthis.y = y;\nf()\x7d\x7d\n") ∧
      ∃ edit front back, AssignsOnce parentFirstText parentFirstTree parentFirstBody ["x", "y"] edit front back := by
  have parsed : Dialect.plain.parse (encodeChars parentFirstText) = .ok parentFirstTree := by decide +kernel
  have clear : ((blocks (encodeChars parentFirstText) [parentFirstTree] parentFirstTree).all fun
      | .site site => (site.edit? (encodeChars parentFirstText) (usedIn (encodeChars parentFirstText) parentFirstTree)).all
          fun other => !decide (other.Covers 62)
      | _ => true) = true := by
    decide +kernel
  have declared : Declares (encodeChars parentFirstText) twoParametersTree.children ["x", "y"] := by
    have declared := declares_filterMap (encodeChars parentFirstText) twoParametersTree.children
    have same : twoParametersTree.children.filterMap (propertyName? (encodeChars parentFirstText)) = ["x", "y"] := by
      decide +kernel
    rwa [same] at declared
  obtain ⟨-, assigned⟩ := properties_are_assigned parsed reached_parentFirstMethod (by decide +kernel) rfl rfl declared
    (by decide) (fun place isPlace site other found eq => by
      have anchor : place = 62 := by
        cases isPlace with
        | behindCall parts => 
          cases parts
          rfl
        | atFront plain =>
          have call := plain _ rfl
          cases call
      rw [anchor]
      have each := List.all_eq_true.mp clear _ found
      dsimp only at each
      rw [eq] at each
      simpa using each)
  refine ⟨parsed, declared, ?_, assigned⟩
  rw [erase, parsed]
  dsimp only
  have edits : erasureEdits (encodeChars parentFirstText) parentFirstTree =
      [⟨62, 62, encode "\nthis.x = x;\nthis.y = y;"⟩, .removal 31 39, .removal 42 51] := by
    decide +kernel
  have sorted : [(⟨62, 62, encode "\nthis.x = x;\nthis.y = y;"⟩ : Edit), .removal 31 39, .removal 42 51].mergeSort Edit.before =
      [.removal 31 39, .removal 42 51, ⟨62, 62, encode "\nthis.x = x;\nthis.y = y;"⟩] := by
    simp [List.mergeSort, List.MergeSort.Internal.splitInTwo, Edit.before, Edit.removal]
  rw [eraseTree, edits, applyEdits, sorted]
  decide +kernel

/-! Where the call of the parent constructor is not the first statement, the assignments stand in front of it. -/

def lateCallText : List Char := "class A extends B \x7bconstructor(private x) \x7bf()\nsuper()\x7d\x7d\n".toList

def lateCallBody : Tree :=
  .node .statementBlock (some .body) 42 55
    [.node (.token "\x7b") none 42 43 [],
      .node .expressionStatement none 43 46 [bareCallTree .identifier 43 44 46],
      .node .expressionStatement none 47 54 [bareCallTree .super 47 52 54],
      .node (.token "\x7d") none 54 55 []]

def lateCallTree : Tree := derivedClassTree 57 privateOnlyTree lateCallBody

/-! Where a construct that is erased begins at the place of the assignments, they are dropped. -/

def takenPlaceText : List Char :=
  "class A extends B \x7bconstructor(private x) \x7bsuper();type C = D\nf()\x7d\x7d\n".toList

def takenPlaceBody : Tree :=
  .node .statementBlock (some .body) 42 66
    [.node (.token "\x7b") none 42 43 [],
      .node .expressionStatement none 43 51 [bareCallTree .super 43 48 50, .node (.token ";") none 50 51 []],
      .node .typeAliasDeclaration none 51 61
        [.node (.token "type") none 51 55 [], .node .typeIdentifier (some .name) 56 57 [], .node (.token "=") none 58 59 [],
          .node .typeIdentifier (some .value) 60 61 []],
      .node .expressionStatement none 62 65 [bareCallTree .identifier 62 63 65],
      .node (.token "\x7d") none 65 66 []]

def takenPlaceTree : Tree := derivedClassTree 68 privateOnlyTree takenPlaceBody

set_option maxRecDepth 8000 in
theorem properties_precede_call_or_are_lost :
    (Dialect.plain.parse (encodeChars lateCallText) = .ok lateCallTree ∧
      Declares (encodeChars lateCallText) privateOnlyTree.children ["x"] ∧
      (∃ statement ∈ lateCallBody.parts, isParentCall statement = true) ∧
      erase .plain (encodeChars lateCallText) =
        .ok (encode "class A extends B \x7bconstructor(x) \x7b\nthis.x = x;f()\nsuper()\x7d\x7d\n")) ∧
    Dialect.plain.parse (encodeChars takenPlaceText) = .ok takenPlaceTree ∧
      Declares (encodeChars takenPlaceText) privateOnlyTree.children ["x"] ∧
      IsPlace takenPlaceBody 51 ∧
      erase .plain (encodeChars takenPlaceText) =
        .ok (encode "class A extends B \x7bconstructor(x) \x7bsuper();f()\x7d\x7d\n") := by
  have lateParsed : Dialect.plain.parse (encodeChars lateCallText) = .ok lateCallTree := by decide +kernel
  have takenParsed : Dialect.plain.parse (encodeChars takenPlaceText) = .ok takenPlaceTree := by decide +kernel
  refine ⟨⟨lateParsed, ?_, ?_, ?_⟩, takenParsed, ?_, ?_, ?_⟩
  · have declared := declares_filterMap (encodeChars lateCallText) privateOnlyTree.children
    have same : privateOnlyTree.children.filterMap (propertyName? (encodeChars lateCallText)) = ["x"] := by decide +kernel
    rwa [same] at declared
  · exact ⟨.node .expressionStatement none 47 54 [bareCallTree .super 47 52 54], by decide +kernel, rfl⟩
  · have edits : erasureEdits (encodeChars lateCallText) lateCallTree =
        [⟨43, 43, encode "\nthis.x = x;"⟩, .removal 31 39] := by
      decide +kernel
    have sorted : [(⟨43, 43, encode "\nthis.x = x;"⟩ : Edit), .removal 31 39].mergeSort Edit.before =
        [.removal 31 39, ⟨43, 43, encode "\nthis.x = x;"⟩] := by
      simp [List.mergeSort, List.MergeSort.Internal.splitInTwo, Edit.before, Edit.removal]
    rw [erase, lateParsed]
    dsimp only
    rw [eraseTree, edits, applyEdits, sorted]
    decide +kernel
  · have declared := declares_filterMap (encodeChars takenPlaceText) privateOnlyTree.children
    have same : privateOnlyTree.children.filterMap (propertyName? (encodeChars takenPlaceText)) = ["x"] := by decide +kernel
    rwa [same] at declared
  · have parts : takenPlaceBody.parts =
        .node .expressionStatement none 43 51 [bareCallTree .super 43 48 50, .node (.token ";") none 50 51 []] ::
          takenPlaceBody.parts.tail :=
      rfl
    exact .behindCall parts rfl
  · have edits : erasureEdits (encodeChars takenPlaceText) takenPlaceTree =
        [⟨51, 51, encode "\nthis.x = x;"⟩, .removal 31 39, .removal 51 62] := by
      decide +kernel
    have sorted : [(⟨51, 51, encode "\nthis.x = x;"⟩ : Edit), .removal 31 39, .removal 51 62].mergeSort Edit.before =
        [.removal 31 39, .removal 51 62, ⟨51, 51, encode "\nthis.x = x;"⟩] := by
      simp [List.mergeSort, List.MergeSort.Internal.splitInTwo, Edit.before, Edit.removal]
    rw [erase, takenParsed]
    dsimp only
    rw [eraseTree, edits, applyEdits, sorted]
    decide +kernel

end Scaffold.Erasure
