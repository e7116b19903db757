import Scaffold.Proofs.Erasure.Imports

/-! # Files without types

Where nothing in a file is about types and every name that an import brings in is used, the walk comes to every
tree outside the imports, and neither the trees nor the imports have an edit. So the file stays as it is, byte for
byte.
-/

namespace Scaffold.Erasure

open Scaffold.Text Scaffold.Syntax

/-- A tree is no construct about types, and it has no word or mark about types among its children. -/
structure IsPlain (tree : Tree) : Prop where
  typeSyntax : isTypeSyntax tree.kind = false
  statement : isTypeStatement tree.kind = false
  clause : tree.kind ≠ .implementsClause
  assertion : isAssertion tree.kind = false
  enumeration : tree.kind ≠ .enumDeclaration
  modifier : isModifier tree.kind = false
  marker : ∀ word ∈ markers tree.kind, tree.hasToken word = false
  parameter : isThisParameter tree = false
  marked : tree.kind ∈ [.importStatement, .exportStatement, .importSpecifier, .exportSpecifier] →
    tree.hasToken "type" = false

/-- A tree is no field that is declared only, and no import of the type of a value. -/
structure IsDefined (tree : Tree) : Prop where
  field : isAmbientField tree = false
  importing : tree.kind = .importStatement → tree.hasToken "typeof" = false

/-- A tree lies in none of the imports of a file. -/
def Outside (root tree : Tree) : Prop :=
  ∀ statement ∈ root.preorder, statement.kind = .importStatement → tree ∉ statement.preorder

/-- Outside the imports of a file there is a name for each name that they bring in. -/
def UsesImports (source : Bytes) (root : Tree) : Prop :=
  ∀ clause ∈ root.preorder, clause.kind = .importClause → ∀ binding ∈ bindings clause, ∀ name ∈ binding.name?,
    ∃ tree ∈ root.preorder, Outside root tree ∧ isValueName tree.kind = true ∧ tree.text source = name.text source

instance (tree : Tree) : Decidable (IsPlain tree) :=
  decidable_of_iff
    (isTypeSyntax tree.kind = false ∧ isTypeStatement tree.kind = false ∧ tree.kind ≠ .implementsClause ∧
      isAssertion tree.kind = false ∧ tree.kind ≠ .enumDeclaration ∧ isModifier tree.kind = false ∧
      (∀ word ∈ markers tree.kind, tree.hasToken word = false) ∧ isThisParameter tree = false ∧
      (tree.kind ∈ [.importStatement, .exportStatement, .importSpecifier, .exportSpecifier] →
        tree.hasToken "type" = false))
    ⟨fun ⟨typeSyntax, statement, clause, assertion, enumeration, modifier, marker, parameter, marked⟩ =>
        ⟨typeSyntax, statement, clause, assertion, enumeration, modifier, marker, parameter, marked⟩,
      fun plain => ⟨plain.typeSyntax, plain.statement, plain.clause, plain.assertion, plain.enumeration, plain.modifier,
        plain.marker, plain.parameter, plain.marked⟩⟩

instance (tree : Tree) : Decidable (IsDefined tree) :=
  decidable_of_iff (isAmbientField tree = false ∧ (tree.kind = .importStatement → tree.hasToken "typeof" = false))
    ⟨fun ⟨field, importing⟩ => ⟨field, importing⟩, fun defined => ⟨defined.field, defined.importing⟩⟩

instance (root tree : Tree) : Decidable (Outside root tree) :=
  inferInstanceAs (Decidable (∀ statement ∈ root.preorder, statement.kind = .importStatement → tree ∉ statement.preorder))

instance (source : Bytes) (root : Tree) : Decidable (UsesImports source root) :=
  inferInstanceAs (Decidable (∀ clause ∈ root.preorder, clause.kind = .importClause → ∀ binding ∈ bindings clause,
    ∀ name ∈ binding.name?, ∃ tree ∈ root.preorder, Outside root tree ∧ isValueName tree.kind = true ∧
      tree.text source = name.text source))

variable {root tree child : Tree}

theorem IsPlain.isMarker_eq_false (plain : IsPlain tree) (member : child ∈ tree.children) (own : IsPlain child) :
    isMarker tree.kind child = false := by
  unfold isMarker
  split
  · next word kind =>
    refine decide_eq_false fun marks => ?_
    have there : tree.hasToken word = true := List.any_eq_true.mpr ⟨child, member, decide_eq_true kind⟩
    rw [plain.marker word marks] at there
    cases there
  · exact own.modifier

theorem IsPlain.isTypeExport_eq_false (plain : IsPlain tree) (children : ∀ child ∈ tree.children, IsPlain child) :
    isTypeExport tree = false := by
  refine Bool.eq_false_iff.mpr fun exported => ?_
  simp only [isTypeExport, Bool.and_eq_true, decide_eq_true_eq, List.any_eq_true, Bool.or_eq_true] at exported
  obtain ⟨kind, child, member, word | statement⟩ := exported
  · have there : tree.hasToken "type" = true := List.any_eq_true.mpr ⟨child, member, decide_eq_true word⟩
    rw [plain.marked (by simp [kind])] at there
    cases there
  · rw [(children child member).statement] at statement
    cases statement

/-- Nothing in a plain file is about types as a whole. -/
theorem isTypeConstruct_eq_false (plain : root.Everywhere IsPlain) (defined : root.Everywhere IsDefined)
    (inside : tree ∈ root.preorder) : isTypeConstruct tree = false := by
  have own := plain tree inside
  have exported := own.isTypeExport_eq_false fun child member => plain child (Tree.mem_preorder_of_mem_children inside member)
  have specifier : (tree.kind = .exportSpecifier && tree.hasToken "type") = false := by
    refine Bool.eq_false_iff.mpr fun marked => ?_
    simp only [Bool.and_eq_true, decide_eq_true_eq] at marked
    rw [own.marked (by simp [marked.1])] at marked
    cases marked.2
  simp [isTypeConstruct, own.typeSyntax, own.statement, own.clause, own.parameter, (defined tree inside).field, exported,
    specifier]

/-- The walk comes to every tree outside the imports. -/
theorem reached_of_outside (plain : root.Everywhere IsPlain) (defined : root.Everywhere IsDefined)
    (inside : tree ∈ root.preorder) (outside : Outside root tree) : Reached root tree := by
  suffices below : ∀ upper, Reached root upper → tree ∈ upper.preorder → Reached root tree from below root .root inside
  intro upper reached inside
  induction upper using Tree.induction_on_children with
  | step upper inner =>
    rcases Tree.mem_preorder_iff.mp inside with rfl | ⟨child, member, inside⟩
    · exact reached
    · have mem := reached.mem_preorder
      have childMem := Tree.mem_preorder_of_mem_children mem member
      have notImport : upper.kind ≠ .importStatement := fun kind =>
        outside upper mem kind (Tree.mem_preorder_iff.mpr (.inr ⟨child, member, inside⟩))
      have entered : isClosed upper = false := by
        simp [isClosed, isTypeConstruct_eq_false plain defined mem, notImport, (plain upper mem).enumeration]
      exact inner child member (.child reached entered (plain upper mem).assertion member
        ((plain upper mem).isMarker_eq_false member (plain child childMem))) inside

theorem propertyName?_eq_none (source : Bytes) (plain : IsPlain tree) (children : ∀ child ∈ tree.children, IsPlain child) :
    propertyName? source tree = none := by
  refine if_neg fun declares => ?_
  simp only [Bool.and_eq_true, List.any_eq_true, Bool.or_eq_true, decide_eq_true_eq] at declares
  obtain ⟨parameter, child, member, modifier | word⟩ := declares
  · rw [(children child member).modifier] at modifier
    cases modifier
  · have marks : "readonly" ∈ markers tree.kind := by
      simp only [isParameter, Bool.or_eq_true, decide_eq_true_eq] at parameter
      rcases parameter with kind | kind <;> simp [kind, markers]
    have there : tree.hasToken "readonly" = true := List.any_eq_true.mpr ⟨child, member, decide_eq_true word⟩
    rw [plain.marker _ marks] at there
    cases there

/-- No parameter of a plain constructor declares a property. -/
theorem edits_assignProperties_eq_nil (source : Bytes) (plain : root.Everywhere IsPlain) (inside : tree ∈ root.preorder) :
    (assignProperties source tree).edits = [] := by
  unfold assignProperties
  split
  · next parameters body found _ =>
    have parametersMem := Tree.mem_preorder_of_mem_children inside (List.mem_of_find?_eq_some found)
    have nothing : parameters.children.filterMap (propertyName? source) = [] := by
      refine List.filterMap_eq_nil_iff.mpr fun parameter member => ?_
      have parameterMem := Tree.mem_preorder_of_mem_children parametersMem member
      exact propertyName?_eq_none source (plain parameter parameterMem) fun child member =>
        plain child (Tree.mem_preorder_of_mem_children parameterMem member)
    dsimp only
    rw [nothing, List.isEmpty_nil, if_pos rfl]
    rfl
  · rfl

/-- An import without a mark of types stays where all its bindings do. -/
theorem importEdit?_eq_none (source : Bytes) (used : List String) {statement : Tree} (plain : root.Everywhere IsPlain)
    (defined : root.Everywhere IsDefined) (inside : statement ∈ root.preorder) (kind : statement.kind = .importStatement)
    (stay : ∀ clause ∈ statement.children, clause.kind = .importClause → ∀ binding ∈ bindings clause,
      binding.stays source used = true) : importEdit? source used statement = none := by
  have unmarked : (statement.hasToken "type" || statement.hasToken "typeof") = false := by
    rw [(plain statement inside).marked (by simp [kind]), (defined statement inside).importing kind]
    rfl
  rw [importEdit?, if_neg (by rw [unmarked]; decide)]
  split
  · rfl
  · next clause found =>
    have isClause : clause.kind = .importClause := by simpa using List.find?_some found
    refine if_pos ?_
    rw [count_keptBindings, keptBindings_eq, List.length_filter_eq_length_iff]
    exact stay clause (List.mem_of_find?_eq_some found) isClause

theorem kind_of_braced {clause : Tree} {binding : Binding} (mem : binding ∈ bindings clause)
    (braced : binding.braced = true) : binding.written.kind = .importSpecifier := by
  obtain ⟨part, -, mem⟩ := List.mem_flatMap.mp mem
  unfold bindingsOf at mem
  split at mem
  · rw [List.mem_singleton.mp mem] at braced
    cases braced
  · rw [List.mem_singleton.mp mem] at braced
    cases braced
  · obtain ⟨specifier, specifierMem, rfl⟩ := List.mem_map.mp mem
    exact of_decide_eq_true (List.mem_filter.mp specifierMem).2
  · cases mem

/-- A binding stays when its name is counted as used. -/
theorem stays_of_used {source : Bytes} {used : List String} {clause : Tree} {binding : Binding}
    (plain : root.Everywhere IsPlain) (inside : clause ∈ root.preorder) (mem : binding ∈ bindings clause)
    (counted : ∀ name ∈ binding.name?, name.text source ∈ used) : binding.stays source used = true := by
  have untyped : binding.isTyped = false := by
    refine Bool.eq_false_iff.mpr fun typed => ?_
    rw [Binding.isTyped, Bool.and_eq_true] at typed
    have written := Tree.mem_preorder_trans inside (written_mem_preorder mem)
    rw [(plain _ written).marked (by simp [kind_of_braced mem typed.1])] at typed
    cases typed.2
  rw [Binding.stays, untyped]
  cases own : binding.name? with
  | none => rfl
  | some name => simp [counted name own]

/-- A file stays as it is when nothing in it is about types, no field of a class is declared only, nothing imports
the type of a value, and every name that is imported is one of a value outside the imports. -/
theorem plain_files_stay {dialect : Dialect} {text : List Char} (parsed : dialect.parse (encodeChars text) = .ok root)
    (plain : root.Everywhere IsPlain) (defined : root.Everywhere IsDefined) (uses : UsesImports (encodeChars text) root) :
    erase dialect (encodeChars text) = .ok (encodeChars text) := by
  have describes := Dialect.describes_of_parse parsed
  suffices nothing : erasureEdits (encodeChars text) root = [] by
    rw [erase, parsed]
    dsimp only
    rw [eraseTree, nothing, applyEdits, List.mergeSort_nil]
    rfl
  refine List.eq_nil_iff_forall_not_mem.mpr fun edit mem => ?_
  rcases mem_erasureEdits_iff.mp mem with ⟨site, found, eq⟩ | ⟨method, found, mem⟩
  · cases Block.met_of_mem_blocks describes.kind_eq found with
    | @whole parent tree _ inside member whole =>
      have within := Tree.mem_preorder_of_mem_children inside member
      have about := isTypeConstruct_eq_false plain defined within
      cases whole with
      | importing kind =>
        change importEdit? (encodeChars text) (usedIn (encodeChars text) root) tree = some edit at eq
        rw [importEdit?_eq_none _ _ plain defined within kind fun clause child isClause binding mem => ?_] at eq
        · cases eq
        · have clauseMem := Tree.mem_preorder_of_mem_children within child
          refine stays_of_used plain clauseMem mem fun name own => (mem_usedIn_iff describes.shaped).mpr ?_
          obtain ⟨other, otherMem, outside, valueName, same⟩ := uses clause clauseMem isClause binding mem name own
          exact .token (reached_of_outside plain defined otherMem outside) valueName same
      | enumeration kind => exact (plain tree within).enumeration kind
      | exact whole | clause whole => simp [isTypeConstruct, whole] at about
      | statement whole | element whole =>
        rw [isTypeConstruct, whole] at about
        simp at about
    | tail inside assertion =>
      rw [(plain _ inside).assertion] at assertion
      cases assertion
    | marker inside _ member marker =>
      rw [(plain _ inside).isMarker_eq_false member (plain _ (Tree.mem_preorder_of_mem_children inside member))] at marker
      cases marker
  · cases Block.met_of_mem_blocks describes.kind_eq found with
    | constructor inside =>
      rw [edits_assignProperties_eq_nil _ plain inside] at mem
      cases mem

def plainText : List Char := "import \x7b a as b \x7d from 'x'\nclass C \x7b constructor(d = b) \x7b \x7d \x7d\n".toList

def plainImport : Tree :=
  .node .importStatement none 0 26 [.node (.token "import") none 0 6 [],
    .node .importClause none 7 17 [.node .namedImports none 7 17 [.node (.token "\x7b") none 7 8 [],
      .node .importSpecifier none 9 15 [.node .identifier (some .name) 9 10 [], .node (.token "as") none 11 13 [],
        .node .identifier (some .alias) 14 15 []],
      .node (.token "\x7d") none 16 17 []]],
    .node (.token "from") none 18 22 [], .node .string (some .source) 23 26 []]

def plainConstructor : Tree :=
  .node .methodDefinition none 37 59 [.node .propertyIdentifier (some .name) 37 48 [],
    .node .formalParameters (some .parameters) 48 55 [.node (.token "(") none 48 49 [],
      .node .requiredParameter none 49 54 [.node .identifier (some .pattern) 49 50 [], .node (.token "=") none 51 52 [],
        .node .identifier (some .value) 53 54 []],
      .node (.token ")") none 54 55 []],
    .node .statementBlock (some .body) 56 59 [.node (.token "\x7b") none 56 57 [], .node (.token "\x7d") none 58 59 []]]

def plainFile : Tree :=
  .node .program none 0 62 [plainImport,
    .node .classDeclaration none 27 61 [.node (.token "class") none 27 32 [], .node .typeIdentifier (some .name) 33 34 [],
      .node .classBody (some .body) 35 61 [.node (.token "\x7b") none 35 36 [], plainConstructor,
        .node (.token "\x7d") none 60 61 []]]]

set_option maxRecDepth 8000 in
/-- The name that the import gives is the default value of a parameter. -/
theorem plain_class_stays :
    Dialect.plain.parse (encodeChars plainText) = .ok plainFile ∧ plainFile.Everywhere IsPlain ∧
      plainFile.Everywhere IsDefined ∧ UsesImports (encodeChars plainText) plainFile ∧
      erase .plain (encodeChars plainText) = .ok (encodeChars plainText) := by
  have parsed : Dialect.plain.parse (encodeChars plainText) = .ok plainFile := by decide +kernel
  have plain : plainFile.Everywhere IsPlain := by unfold Tree.Everywhere; decide +kernel
  have defined : plainFile.Everywhere IsDefined := by unfold Tree.Everywhere; decide +kernel
  have uses : UsesImports (encodeChars plainText) plainFile := by decide +kernel
  exact ⟨parsed, plain, defined, uses, plain_files_stay parsed plain defined uses⟩

/-! An import of the type of a value goes with its statement, though its name is used, and so does a field that is
declared only. -/

def typeofText : List Char := "import typeof A from 'x'\nA\n".toList

def typeofFile : Tree :=
  .node .program none 0 27 [
    .node .importStatement none 0 24 [.node (.token "import") none 0 6 [], .node (.token "typeof") none 7 13 [],
      .node .importClause none 14 15 [.node .identifier none 14 15 []], .node (.token "from") none 16 20 [],
      .node .string (some .source) 21 24 []],
    .node .expressionStatement none 25 26 [.node .identifier none 25 26 []]]

def declaredText : List Char := "class A \x7b declare b \x7d\n".toList

def declaredFile : Tree :=
  .node .program none 0 22 [
    .node .classDeclaration none 0 21 [.node (.token "class") none 0 5 [], .node .typeIdentifier (some .name) 6 7 [],
      .node .classBody (some .body) 8 21 [.node (.token "\x7b") none 8 9 [],
        .node .publicFieldDefinition none 10 19 [.node (.token "declare") none 10 17 [],
          .node .propertyIdentifier (some .name) 18 19 []],
        .node (.token "\x7d") none 20 21 []]]]

set_option maxRecDepth 8000 in
theorem unmarked_types_go :
    (Dialect.plain.parse (encodeChars typeofText) = .ok typeofFile ∧ typeofFile.Everywhere IsPlain ∧
      UsesImports (encodeChars typeofText) typeofFile ∧
      erase .plain (encodeChars typeofText) = .ok (encodeChars "A\n".toList)) ∧
    Dialect.plain.parse (encodeChars declaredText) = .ok declaredFile ∧ declaredFile.Everywhere IsPlain ∧
      UsesImports (encodeChars declaredText) declaredFile ∧
      erase .plain (encodeChars declaredText) = .ok (encodeChars "class A \x7b  \x7d\n".toList) := by
  have typeofParsed : Dialect.plain.parse (encodeChars typeofText) = .ok typeofFile := by decide +kernel
  have typeofEdits : erasureEdits (encodeChars typeofText) typeofFile = [.removal 0 25] := by decide +kernel
  have declaredParsed : Dialect.plain.parse (encodeChars declaredText) = .ok declaredFile := by decide +kernel
  have declaredEdits : erasureEdits (encodeChars declaredText) declaredFile = [.removal 10 19] := by decide +kernel
  refine ⟨⟨typeofParsed, by unfold Tree.Everywhere; decide +kernel, by decide +kernel, ?_⟩, declaredParsed,
    by unfold Tree.Everywhere; decide +kernel, by decide +kernel, ?_⟩
  · rw [erase, typeofParsed]
    dsimp only
    rw [eraseTree, applyEdits, typeofEdits, List.mergeSort_singleton]
    exact congrArg Except.ok (by decide +kernel)
  · rw [erase, declaredParsed]
    dsimp only
    rw [eraseTree, applyEdits, declaredEdits, List.mergeSort_singleton]
    exact congrArg Except.ok (by decide +kernel)

end Scaffold.Erasure
