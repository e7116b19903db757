import Scaffold.Proofs.Erasure.Bindings
import Scaffold.Proofs.Erasure.Survival
import Scaffold.Proofs.Erasure.Usage

/-! # Which imports stay

A name that an import brings in stays exactly when it is counted as used, or when the edit that would drop it
is not applied. A token with that name may be left in the output and yet not be counted: in a construct of
types whose edit is not applied, as the name of an enumeration, or in a string or a template that is the value
of one of its members.
-/

namespace Scaffold.Erasure

open Scaffold.Text Scaffold.Syntax

/-! ## The edit of an import -/

/-- A character that a name may hold. -/
def isNameChar (c : Char) : Bool := !isNameBreak c

variable {text : List Char} {root : Tree} {position : Nat}

/-- A byte of a name is neither white space nor a semicolon. -/
theorem plain_of_isNameChar (named : InCharacter isNameChar text position) {byte : UInt8}
    (at_ : (encodeChars text)[position]? = some byte) : isBlankByte byte = false ∧ byte ≠ 59 := by
  obtain ⟨c, found, accepted, found_at, value⟩ := named.byte
  rw [at_] at found_at
  cases found_at
  simp only [isNameChar, isNameBreak, Bool.not_eq_true', Bool.or_eq_false_iff, decide_eq_false_iff_not] at accepted
  obtain ⟨⟨low, separator⟩, marks⟩ := accepted
  have past : 0x20 < byte.toNat ∧ byte.toNat ≠ 59 := by
    rcases value with same | high
    · have notSpace : c.toNat ≠ 32 := by
        intro space
        simp [isSeparator, space] at separator
      have notSemicolon : c.toNat ≠ 59 := by
        intro semicolon
        have : c = ';' := Char.toNat_inj.mp semicolon
        simp [this] at marks
      omega
    · omega
  refine ⟨?_, ?_⟩
  · simp only [isBlankByte, Bool.or_eq_false_iff, Bool.and_eq_false_iff, decide_eq_false_iff_not, UInt8.le_iff_toNat_le,
      ← UInt8.toNat_inj]
    exact ⟨.inr (Nat.not_le.mpr (Nat.lt_trans (by decide) past.1)), fun space => by
      rw [space] at past
      exact absurd past.1 (by decide)⟩
  · rintro rfl
    exact past.2 rfl

/-- No import reaches into the stretch from an element to its comma. -/
private theorem own_of_stretch (describes : root.Describes text) {statement parent tree : Tree}
    (found : .site (.importing statement) ∈ blocks (encodeChars text) [root] root)
    (other : .site (.element parent.children tree) ∈ blocks (encodeChars text) [root] root)
    (inside : parent ∈ root.preorder) (member : tree ∈ parent.children) (notComment : tree.isComment = false)
    (covers : statement.Covers position) (after : (tree.stretch parent.children).1 ≤ position)
    (before : position < (tree.stretch parent.children).2) : tree.Covers position := by
  have placed := (describes.placed.inner inside).1.children
  have stretch := placed.stretch_bounds member notComment
  have bounds := placed.bounds member
  obtain ⟨begins, ends⟩ := covers
  obtain ⟨statementInside, kind⟩ : statement ∈ root.preorder ∧ statement.kind = .importStatement := by
    cases Block.met_of_mem_blocks describes.kind_eq found with
    | whole inside member whole =>
      cases whole with
      | importing kind => exact ⟨Tree.mem_preorder_of_mem_children inside member, kind⟩
  have apart (inner : tree ∈ statement.preorder) : False := by
    have within := (describes.placed.inner statementInside).1.inner inner
    have shared : statement.start ≤ tree.start ∧ tree.start < statement.stop :=
      ⟨within.2.1, Nat.lt_of_lt_of_le bounds.2.1 within.2.2⟩
    have same := Site.eq_of_common describes.placed found other shared ⟨Nat.le_refl _, bounds.2.1⟩
    cases same
  rcases describes.placed.nested_or_apart statementInside inside with nested | nested | before_ | after_
  · rcases Tree.mem_preorder_iff.mp nested with rfl | ⟨sibling, siblingMember, nested⟩
    · exact (apart (Tree.mem_preorder_of_mem_children (Tree.mem_preorder_self _) member)).elim
    · have within := (placed.placed siblingMember).inner nested
      have simple (childless : sibling.kind.isComposite = false) : statement = sibling := by
        have shaped := describes.shaped sibling (Tree.mem_preorder_of_mem_children inside siblingMember)
        rcases Tree.mem_preorder_iff.mp nested with same | ⟨child, member, -⟩
        · exact same
        · rw [shaped.children_eq_nil childless] at member
          cases member
      rcases placed.apart_stretch member notComment siblingMember with rfl | comment | comma | front | back
      · exact ⟨by omega, by omega⟩
      · have commentKind : sibling.kind = .comment := of_decide_eq_true comment
        have same := simple (by rw [commentKind]; rfl)
        rw [same, commentKind] at kind
        cases kind
      · have commaKind : sibling.kind = .token "," :=
          of_decide_eq_true (placed.isComma_of_listComma? member notComment comma)
        have same := simple (by rw [commaKind]; rfl)
        rw [same, commaKind] at kind
        cases kind
      · omega
      · omega
  · exact (apart (Tree.mem_preorder_of_mem_children nested member)).elim
  · have parentBounds := (describes.placed.inner inside)
    omega
  · omega

/-- The edit that takes a character of a name of an import is that of the import. -/
theorem importEdit?_of_covers (describes : root.Describes text) {statement : Tree} {edit : Edit}
    (found : .site (.importing statement) ∈ blocks (encodeChars text) [root] root)
    (mem : edit ∈ erasureEdits (encodeChars text) root) (covers : edit.Covers position)
    (inside : statement.Covers position) (named : InCharacter isNameChar text position) :
    importEdit? (encodeChars text) (usedIn (encodeChars text) root) statement = some edit := by
  have le := describes.stop_le
  have own {site : Site} (other : .site site ∈ blocks (encodeChars text) [root] root)
      (eq : site.edit? (encodeChars text) (usedIn (encodeChars text) root) = some edit)
      (within : site.start ≤ position ∧ position < site.stop) :
      importEdit? (encodeChars text) (usedIn (encodeChars text) root) statement = some edit := by
    have same := Site.eq_of_common describes.placed found other inside within
    subst same
    exact eq
  rcases mem_erasureEdits_iff.mp mem with ⟨site, other, eq⟩ | ⟨method, other, member⟩
  · have met := Block.met_of_mem_blocks describes.kind_eq other
    cases (Site.bounded_of_met describes.placed le met eq).1.reaches position covers with
    | own after before => exact own other eq ⟨after, before⟩
    | blank at_ blank =>
      rw [(plain_of_isNameChar named at_).1] at blank
      cases blank
    | semicolon _ at_ => exact absurd rfl (plain_of_isNameChar named at_).2
    | @beside siblings tree _ after before =>
      cases met with
      | whole within member whole =>
        cases whole with
        | element element =>
          exact own other eq
            (own_of_stretch describes found other within member (Site.isComment_of_element element) inside after before)
  · cases Block.met_of_mem_blocks describes.kind_eq other with
    | constructor inside constructor =>
      have blank := (fits_of_mem_assignProperties describes.placed describes.shaped le inside constructor member).2
      obtain ⟨byte, at_, isBlank⟩ := blank position covers.1 covers.2
      rw [(plain_of_isNameChar named at_).1] at isBlank
      cases isBlank

/-- The output imports a binding of a clause: the statement is left as it was, or but for the clause, which
then lists the binding. -/
structure Imported (text : List Char) (root : Tree) (output : List Origin) (statement clause : Tree)
    (binding : Binding) : Prop where
  frame : ∀ position, statement.Covers position → ¬ clause.Covers position → InCharacter isNameChar text position →
    .kept position ∈ output
  listed : (∀ position, clause.Covers position → InCharacter isNameChar text position → .kept position ∈ output) ∨
    ∃ kept, binding ∈ kept ∧ .mk clause.start clause.stop (encode (clauseText (encodeChars text) kept)) ∈
      appliedEdits (encodeChars text) root

/-- Nothing is left of a binding, and a clause that takes the place of its own does not list it. -/
structure Elided (text : List Char) (root : Tree) (output : List Origin) (statement clause : Tree)
    (binding : Binding) : Prop where
  gone : ∀ position, binding.written.Covers position → .kept position ∉ output
  unlisted : statementRemoval (encodeChars text) statement ∈ appliedEdits (encodeChars text) root ∨
    ∃ kept, binding ∉ kept ∧ .mk clause.start clause.stop (encode (clauseText (encodeChars text) kept)) ∈
      appliedEdits (encodeChars text) root

/-- The edit that would drop names of an import begins inside another one. -/
def Spared (source : Bytes) (root statement : Tree) : Prop :=
  ∃ edit, importEdit? source (usedIn source root) statement = some edit ∧ edit ∉ appliedEdits source root

theorem kept_of_statement (describes : root.Describes text) {statement : Tree}
    (found : .site (.importing statement) ∈ blocks (encodeChars text) [root] root) (covers : statement.Covers position)
    (named : InCharacter isNameChar text position)
    (free : ∀ edit ∈ appliedEdits (encodeChars text) root,
      importEdit? (encodeChars text) (usedIn (encodeChars text) root) statement = some edit → ¬ edit.Covers position) :
    .kept position ∈ erasedOrigins (encodeChars text) root := by
  obtain ⟨c, byte, -, at_, -⟩ := named.byte
  refine (kept_mem_erasedOrigins_iff describes).mpr ⟨(List.getElem?_eq_some_iff.mp at_).1, ?_⟩
  rintro ⟨edit, taken, inside⟩
  exact free edit taken (importEdit?_of_covers describes found (mem_of_mem_applied taken) inside covers named) inside

variable {statement clause : Tree} {binding : Binding}

/-- A binding that stays is imported, and so are all those of an import that is spared. -/
theorem imported_of_stays (describes : root.Describes text) (reached : Reached root statement)
    (kind : statement.kind = .importStatement)
    (plain : (statement.hasToken "type" || statement.hasToken "typeof") = false)
    (found : statement.children.find? (fun child => child.kind = .importClause) = some clause)
    (mem : binding ∈ bindings clause)
    (stays : binding.stays (encodeChars text) (usedIn (encodeChars text) root) = true ∨
      Spared (encodeChars text) root statement) :
    Imported text root (erasedOrigins (encodeChars text) root) statement clause binding := by
  have site := mem_blocks_of_importStatement (encodeChars text) describes.shaped reached kind
  have clauseBounds := (describes.placed.inner reached.mem_preorder).1.children.bounds (List.mem_of_find?_eq_some found)
  have verbatim (free : ∀ edit, importEdit? (encodeChars text) (usedIn (encodeChars text) root) statement = some edit →
      edit ∉ appliedEdits (encodeChars text) root) :
      Imported text root (erasedOrigins (encodeChars text) root) statement clause binding := by
    refine ⟨fun position covers _ named => ?_, .inl fun position covers named => ?_⟩
    · exact kept_of_statement describes site covers named fun edit taken eq => absurd taken (free edit eq)
    · have covers : statement.Covers position :=
        ⟨Nat.le_trans clauseBounds.1 covers.1, Nat.lt_of_lt_of_le covers.2 clauseBounds.2.2⟩
      exact kept_of_statement describes site covers named fun edit taken eq => absurd taken (free edit eq)
  have unspared (spared : Spared (encodeChars text) root statement) :
      Imported text root (erasedOrigins (encodeChars text) root) statement clause binding := by
    obtain ⟨edit, eq, untaken⟩ := spared
    apply verbatim
    intro other same
    rw [eq] at same
    cases same
    exact untaken
  rcases stays with stays | spared
  · have listed := List.mem_filter.mpr ⟨mem, stays⟩
    have fate := importFate (encodeChars text) (usedIn (encodeChars text) root) statement
    generalize eq : importEdit? (encodeChars text) (usedIn (encodeChars text) root) statement = judged at fate
    cases fate with
    | typed marked =>
      rw [plain] at marked
      cases marked
    | bare _ missing =>
      rw [found] at missing
      cases missing
    | unchanged => exact verbatim fun edit same => nomatch eq.symm.trans same
    | dropped _ same _ nothing =>
      rw [found] at same
      cases same
      rw [count_keptBindings, List.length_eq_zero_iff] at nothing
      rw [nothing] at listed
      cases listed
    | rewritten _ same =>
      rw [found] at same
      cases same
      by_cases taken : .mk clause.start clause.stop
          (encode (keptBindings (encodeChars text) (usedIn (encodeChars text) root) clause).text) ∈
          appliedEdits (encodeChars text) root
      · refine ⟨fun position covers outside named => ?_, .inr ⟨_, listed, ?_⟩⟩
        · apply kept_of_statement describes site covers named
          intro edit _ same
          rw [eq] at same
          cases same
          exact outside
        · rwa [← text_keptBindings]
      · exact unspared ⟨_, eq, taken⟩
  · exact unspared spared

/-- Nothing is left of a binding that does not stay, unless its import is spared. -/
theorem elided_of_not_stays (describes : root.Describes text) (reached : Reached root statement)
    (plain : (statement.hasToken "type" || statement.hasToken "typeof") = false)
    (found : statement.children.find? (fun child => child.kind = .importClause) = some clause)
    (mem : binding ∈ bindings clause)
    (leaves_ : binding.stays (encodeChars text) (usedIn (encodeChars text) root) = false)
    (unspared : ¬ Spared (encodeChars text) root statement) :
    Elided text root (erasedOrigins (encodeChars text) root) statement clause binding := by
  have inner := describes.placed.inner reached.mem_preorder
  have clauseMember := List.mem_of_find?_eq_some found
  have clauseBounds := inner.1.children.bounds clauseMember
  have written := (inner.1.children.placed clauseMember).inner (written_mem_preorder mem)
  have gone {edit : Edit} (taken : edit ∈ appliedEdits (encodeChars text) root) (front : edit.start ≤ clause.start)
      (back : clause.stop ≤ edit.stop) (position : Nat) (covers : binding.written.Covers position) :
      .kept position ∉ erasedOrigins (encodeChars text) root := by
    intro kept
    obtain ⟨begins, ends⟩ := covers
    exact ((kept_mem_erasedOrigins_iff describes).mp kept).2 ⟨edit, taken, by omega, by omega⟩
  have taken {edit : Edit} (eq : importEdit? (encodeChars text) (usedIn (encodeChars text) root) statement = some edit) :
      edit ∈ appliedEdits (encodeChars text) root :=
    Classical.not_not.mp fun untaken => unspared ⟨edit, eq, untaken⟩
  have fate := importFate (encodeChars text) (usedIn (encodeChars text) root) statement
  generalize eq : importEdit? (encodeChars text) (usedIn (encodeChars text) root) statement = judged at fate
  cases fate with
  | typed marked =>
    rw [plain] at marked
    cases marked
  | bare _ missing =>
    rw [found] at missing
    cases missing
  | unchanged _ same all =>
    rw [found] at same
    cases same
    rw [count_keptBindings, keptBindings_eq] at all
    rw [List.length_filter_eq_length_iff.mp all binding mem] at leaves_
    cases leaves_
  | dropped =>
    have wider := widened_statementRemoval inner.1.start_le_stop (Nat.le_trans inner.2.2 describes.stop_le)
    have past := le_pastSemicolon (encodeChars text) statement.stop
    have front := wider.start_le
    have back := wider.le_stop
    exact ⟨gone (taken eq) (by omega) (by omega), .inl (taken eq)⟩
  | rewritten _ same =>
    rw [found] at same
    cases same
    refine ⟨gone (taken eq) (Nat.le_refl _) (Nat.le_refl _), .inr ⟨_, fun listed => ?_, text_keptBindings _ _ _ ▸ taken eq⟩⟩
    rw [(List.mem_filter.mp listed).2] at leaves_
    cases leaves_

/-- A binding that is not marked as one of a type stays exactly when its local name is counted. -/
theorem stays_iff_counted (source : Bytes) (shaped : root.Everywhere Tree.WellShaped) {name : Tree}
    (unmarked : binding.isTyped = false) (local_ : binding.name? = some name) (identifier : name.kind = .identifier) :
    binding.stays source (usedIn source root) = true ↔ Counted source root (name.text source) := by
  rw [← mem_usedIn_iff shaped]
  simp [Binding.stays, unmarked, local_, identifier]

/-! ## Imports that the walk does not reach -/

/-- A tree lies in a construct of types, in an import or in an enumeration, and is not all of it. -/
inductive Enclosed (root tree : Tree) : Prop
  | closed {outer child : Tree} (inside : outer ∈ root.preorder) (closed : isClosed outer = true)
      (member : child ∈ outer.children) (mem : tree ∈ child.preorder)
  | marker {parent child : Tree} (inside : parent ∈ root.preorder) (member : child ∈ parent.children)
      (marker : isMarker parent.kind child = true) (mem : tree ∈ child.preorder)
  | tail {parent expression child : Tree} {others : List Tree} (inside : parent ∈ root.preorder)
      (assertion : isAssertion parent.kind = true) (children : parent.children = expression :: others)
      (member : child ∈ others) (mem : tree ∈ child.preorder)

theorem reached_or_enclosed {tree inner : Tree} (reached : Reached root tree) (mem : inner ∈ tree.preorder) :
    Reached root inner ∨ Enclosed root inner := by
  induction tree using Tree.induction_on_children with
  | step tree below =>
    have inside := reached.mem_preorder
    rcases Tree.mem_preorder_iff.mp mem with rfl | ⟨child, member, mem⟩
    · exact .inl reached
    · cases entered : isClosed tree with
      | true => exact .inr (.closed inside entered member mem)
      | false =>
        cases assertion : isAssertion tree.kind with
        | true =>
          obtain ⟨expression, others, children⟩ := List.exists_cons_of_ne_nil (List.ne_nil_of_mem member)
          rcases List.mem_cons.mp (children ▸ member : child ∈ expression :: others) with rfl | later
          · exact below _ member (.expression reached entered assertion children) mem
          · exact .inr (.tail inside assertion children later mem)
        | false =>
          cases marker : isMarker tree.kind child with
          | true => exact .inr (.marker inside member marker mem)
          | false => exact below _ member (.child reached entered assertion member marker) mem

/-! ## Tokens with the name of a binding -/

/-- A token appears in the output: a part of it is kept, or it stands where an enumeration is written anew from
its name and its values. -/
inductive Appears (source : Bytes) (root : Tree) (output : List Origin) (token : Tree) : Prop
  | kept {position : Nat} (covers : token.Covers position) (kept : .kept position ∈ output)
  | name {enumeration : Tree} (reached : Reached root enumeration) (kind : enumeration.kind = .enumDeclaration)
      (name : enumeration.child? .name = some token)
  | value {enumeration value : Tree} (initialised : Initialised root enumeration value) (mem : token ∈ value.leaves)

/-- A token is not counted, though it may appear in the output. -/
inductive Overlooked (source : Bytes) (root token : Tree) : Prop
  /-- The edit that would take it begins inside another one. -/
  | types {removal : Edit} (inTypes : InTypes root token) (found : removal ∈ erasureEdits source root)
      (spans : removal.start ≤ token.start ∧ token.stop ≤ removal.stop) (untaken : removal ∉ appliedEdits source root)
  /-- It names an enumeration. -/
  | name {enumeration : Tree} (reached : Reached root enumeration) (kind : enumeration.kind = .enumDeclaration)
      (name : enumeration.child? .name = some token)
  /-- It stands in a string or a template that is the value of a member. -/
  | text {enumeration value : Tree} (initialised : Initialised root enumeration value) (text : isText value = true)
      (mem : token ∈ value.leaves)
  /-- Its enumeration is not written anew. -/
  | unwritten {enumeration : Tree} (reached : Reached root enumeration) (kind : enumeration.kind = .enumDeclaration)
      (mem : token ∈ enumeration.leaves)
      (untaken : .mk enumeration.start enumeration.stop (encode (enumerationText source enumeration)) ∉
        appliedEdits source root)

/-- A token outside imports that appears in the output is counted or overlooked. -/
theorem counted_or_overlooked (describes : root.Describes text) {token : Tree} (mem : token ∈ root.leaves)
    (valueName : isValueName token.kind = true)
    (outside : ∀ declaration ∈ root.preorder, declaration.kind = .importStatement → token ∉ declaration.leaves)
    (appears : Appears (encodeChars text) root (erasedOrigins (encodeChars text) root) token) :
    Counted (encodeChars text) root (token.text (encodeChars text)) ∨ Overlooked (encodeChars text) root token := by
  cases appears with
  | name reached kind name => exact .inr (.name reached kind name)
  | @value enumeration value initialised member =>
    cases text_ : isText value with
    | true => exact .inr (.text initialised text_ member)
    | false => exact .inl (.value initialised text_ (Tree.mem_preorder_of_mem_leaves member) valueName rfl)
  | @kept position covers kept =>
    obtain ⟨-, free⟩ := (kept_mem_erasedOrigins_iff describes).mp kept
    obtain ⟨block, found, member⟩ := exists_block_of_leaf (encodeChars text) [root] mem
    cases block with
    | constructor method => cases member
    | token tree =>
      have reached : Reached root tree := Block.stands_of_mem_blocks found
      have childless : tree.children = [] := by
        cases Block.met_of_mem_blocks describes.kind_eq found with
        | token inside simple =>
          rcases simple with childless | name
          · exact childless
          · exact (describes.shaped tree inside).children_eq_nil (isComposite_of_isValueName name)
      have same : token ∈ tree.leaves := member
      rw [Tree.leaves_of_children_eq_nil childless] at same
      obtain rfl := List.mem_singleton.mp same
      exact .inl (.token reached valueName rfl)
    | site site =>
      have stands := Block.stands_of_mem_blocks found
      have met := Block.met_of_mem_blocks describes.kind_eq found
      have bounds := Site.leaf_bounds_of_met describes.placed met member
      obtain ⟨begins, ends⟩ := covers
      cases isRemoval : site.isRemoval with
      | true =>
        obtain ⟨removal, eq, -⟩ :=
          exists_edit_of_isRemoval (encodeChars text) (usedIn (encodeChars text) root) isRemoval
        have spanned := Site.spanned_of_isRemoval describes.placed describes.stop_le met isRemoval eq
        have front := Nat.le_trans spanned.1 bounds.1
        have back := Nat.le_trans bounds.2.2 spanned.2
        refine .inr (.types (inTypes_of_met met isRemoval member) (mem_erasureEdits_iff.mpr (.inl ⟨site, found, eq⟩))
          ⟨front, back⟩ fun taken => free ⟨removal, taken, ?_⟩)
        exact ⟨Nat.le_trans front begins, Nat.lt_of_lt_of_le ends back⟩
      | false =>
        cases site with
        | importing declaration =>
          exact absurd member (outside declaration stands.1.mem_preorder stands.2)
        | enumeration enumeration =>
          refine .inr (.unwritten stands.1 stands.2 member fun taken => free ⟨_, taken, ?_⟩)
          exact ⟨Nat.le_trans bounds.1 begins, Nat.lt_of_lt_of_le ends bounds.2.2⟩
        | _ => cases isRemoval

/-! ## What becomes of the imports of a file -/

/-- A name is imported by the output exactly when it is counted as used or its import is spared, in so far as
the walk reaches the import. A token with that name that appears in the output is counted or overlooked. -/
theorem imports_follow_use {dialect : Dialect} (parsed : dialect.parse (encodeChars text) = .ok root)
    (inside : statement ∈ root.preorder) (kind : statement.kind = .importStatement)
    (plain : (statement.hasToken "type" || statement.hasToken "typeof") = false)
    (found : statement.children.find? (fun child => child.kind = .importClause) = some clause)
    (mem : binding ∈ bindings clause) (unmarked : binding.isTyped = false) {name : Tree}
    (local_ : binding.name? = some name) (identifier : name.kind = .identifier) :
    erase dialect (encodeChars text) =
        .ok ((erasedOrigins (encodeChars text) root).map (Origin.byte (encodeChars text))) ∧
      (Reached root statement →
        (Counted (encodeChars text) root (name.text (encodeChars text)) ∨ Spared (encodeChars text) root statement →
          Imported text root (erasedOrigins (encodeChars text) root) statement clause binding) ∧
        (¬ (Counted (encodeChars text) root (name.text (encodeChars text)) ∨ Spared (encodeChars text) root statement) →
          Elided text root (erasedOrigins (encodeChars text) root) statement clause binding)) ∧
      (¬ Reached root statement → Enclosed root statement) ∧
      ∀ token ∈ root.leaves, isValueName token.kind = true →
        token.text (encodeChars text) = name.text (encodeChars text) →
        (∀ declaration ∈ root.preorder, declaration.kind = .importStatement → token ∉ declaration.leaves) →
        Appears (encodeChars text) root (erasedOrigins (encodeChars text) root) token →
          Counted (encodeChars text) root (name.text (encodeChars text)) ∨ Overlooked (encodeChars text) root token := by
  have describes := Dialect.describes_of_parse parsed
  have stays := stays_iff_counted (encodeChars text) describes.shaped unmarked local_ identifier
  refine ⟨erase_of_parse parsed, fun reached => ⟨fun used => ?_, fun unused => ?_⟩, fun unreached => ?_, ?_⟩
  · rw [← stays] at used
    exact imported_of_stays describes reached kind plain found mem used
  · rw [← stays, not_or, Bool.not_eq_true] at unused
    exact elided_of_not_stays describes reached plain found mem unused.1 unused.2
  · exact (reached_or_enclosed .root inside).resolve_left unreached
  · intro token member valueName same outside appears
    rw [← same]
    exact counted_or_overlooked describes member valueName outside appears

def importClauseTree : Tree := .node .importClause none 7 8 [.node .identifier none 7 8 []]

/-- The tree of the import `import a from 'b'`. -/
def importTree : Tree :=
  .node .importStatement none 0 17 [.node (.token "import") none 0 6 [], importClauseTree,
    .node (.token "from") none 9 13 [], .node .string (some .source) 14 17 []]

def importBinding : Binding := ⟨false, .node .identifier none 7 8 [], some (.node .identifier none 7 8 [])⟩

theorem importBinding_mem : importBinding ∈ bindings importClauseTree := List.mem_singleton_self _

def usedText : List Char := "import a from 'b'\na\n".toList

def usedTree : Tree :=
  .node .program none 0 20 [importTree, .node .expressionStatement none 18 19 [.node .identifier none 18 19 []]]

set_option maxRecDepth 8000 in
theorem import_follows_use :
    Dialect.plain.parse (encodeChars usedText) = .ok usedTree ∧
      erase .plain (encodeChars usedText) =
        .ok ((erasedOrigins (encodeChars usedText) usedTree).map (Origin.byte (encodeChars usedText))) ∧
      Imported usedText usedTree (erasedOrigins (encodeChars usedText) usedTree) importTree importClauseTree
        importBinding := by
  have parsed : Dialect.plain.parse (encodeChars usedText) = .ok usedTree := by decide +kernel
  have inside : importTree ∈ usedTree.preorder := by decide +kernel
  have reached : Reached usedTree importTree := .child .root rfl rfl List.mem_cons_self rfl
  have statement : Reached usedTree (.node .expressionStatement none 18 19 [.node .identifier none 18 19 []]) :=
    .child .root rfl rfl (List.mem_cons_of_mem _ List.mem_cons_self) rfl
  have name : Reached usedTree (.node .identifier none 18 19 []) := .child statement rfl rfl List.mem_cons_self rfl
  obtain ⟨erased, judged, -⟩ := imports_follow_use parsed inside rfl rfl rfl importBinding_mem rfl rfl rfl
  exact ⟨parsed, erased, (judged reached).1 (.inl (.token name rfl (by decide +kernel)))⟩

/-! The name in a template is one of a value, but an enumeration does not count the names in its templates. -/

def templateText : List Char := "import a from 'b'\nenum E \x7b F = \x60$\x7ba\x7d\x60 \x7d\n".toList

/-- The tree of a template, as in an enumeration whose member has it as value. -/
def templateTree : Tree :=
  .node .templateString (some .value) 31 37 [.node (.token "\x60") none 31 32 [],
    .node .templateSubstitution none 32 36 [.node (.token "$\x7b") none 32 34 [], .node .identifier none 34 35 [],
      .node (.token "\x7d") none 35 36 []], .node (.token "\x60") none 36 37 []]

def templateEnumeration : Tree :=
  .node .enumDeclaration none 18 39 [.node (.token "enum") none 18 22 [], .node .identifier (some .name) 23 24 [],
    .node .enumBody (some .body) 25 39 [.node (.token "\x7b") none 25 26 [],
      .node .enumAssignment none 27 37 [.node .propertyIdentifier (some .name) 27 28 [],
        .node (.token "=") none 29 30 [], templateTree], .node (.token "\x7d") none 38 39 []]]

def templateFile : Tree := .node .program none 0 40 [importTree, templateEnumeration]

def templateOutput : String :=
  "var E;\n(function (E) \x7b\n    E[\"F\"] = \x60$\x7ba\x7d\x60;\n\x7d)(E || (E = \x7b\x7d));"

private theorem sorted_templateEdits :
    (erasureEdits (encodeChars templateText) templateFile).mergeSort Edit.before =
      [.removal 0 18, ⟨18, 39, encode templateOutput⟩] := by
  have edits : erasureEdits (encodeChars templateText) templateFile =
      [⟨18, 39, encode templateOutput⟩, .removal 0 18] := by decide +kernel
  rw [edits]
  simp [List.mergeSort, List.MergeSort.Internal.splitInTwo, Edit.before, Edit.removal]

set_option maxRecDepth 8000 in
theorem import_misses_template :
    Dialect.plain.parse (encodeChars templateText) = .ok templateFile ∧
      erase .plain (encodeChars templateText) = .ok (encode (templateOutput ++ "\n")) ∧
      (∃ token ∈ templateFile.leaves, token.kind = .identifier ∧ token.text (encodeChars templateText) = "a" ∧
        (∀ declaration ∈ templateFile.preorder, declaration.kind = .importStatement → token ∉ declaration.leaves) ∧
        Appears (encodeChars templateText) templateFile (erasedOrigins (encodeChars templateText) templateFile) token) ∧
      ¬ Imported templateText templateFile (erasedOrigins (encodeChars templateText) templateFile) importTree
        importClauseTree importBinding := by
  have parsed : Dialect.plain.parse (encodeChars templateText) = .ok templateFile := by decide +kernel
  refine ⟨parsed, ?_, ⟨.node .identifier none 34 35 [], by decide +kernel, rfl, by decide +kernel, by decide +kernel, ?_⟩, ?_⟩
  · rw [erase, parsed]
    dsimp only
    rw [eraseTree, applyEdits, sorted_templateEdits]
    exact congrArg Except.ok (by decide +kernel)
  · have reached : Reached templateFile templateEnumeration :=
      .child .root rfl rfl (List.mem_cons_of_mem _ List.mem_cons_self) rfl
    have initialised : Initialised templateFile templateEnumeration templateTree :=
      ⟨reached, rfl, _, List.mem_cons_self, rfl⟩
    exact .value initialised (by decide +kernel)
  · intro imported
    have named : InCharacter isNameChar templateText 0 :=
      ⟨[], 'i', templateText.tail, rfl, by decide, by decide, by decide⟩
    have kept := imported.frame 0 (by decide) (by decide) named
    rw [erasedOrigins, origins, applied, sorted_templateEdits] at kept
    revert kept
    decide +kernel

end Scaffold.Erasure
