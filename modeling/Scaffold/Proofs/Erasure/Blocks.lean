import Scaffold.Erasure.Walk
import Scaffold.Proofs.Syntax.Placement

/-! # The blocks of a source file

The walk of a tree meets tokens, which it leaves alone, and sites: constructs that it cuts out or that
are written anew. Tokens and sites are the blocks of the file, and the findings of the walk are those of
its blocks.
-/

namespace Scaffold.Erasure

open Scaffold.Text Scaffold.Syntax

/-- A construct that erasure cuts out or writes anew. -/
inductive Site where
  /-- Syntax of types. -/
  | exact (tree : Tree)
  /-- What follows the expression of an assertion. -/
  | tail (start stop : Nat) (trees : List Tree)
  | clause (tree : Tree)
  | statement (tree : Tree)
  /-- An element of a list, which goes with a comma. -/
  | element (siblings : List Tree) (tree : Tree)
  /-- A word or a mark about types. -/
  | marker (tree : Tree)
  | enumeration (tree : Tree)
  | importing (tree : Tree)

namespace Site

def start : Site → Nat
  | tail start _ _ => start
  | exact tree | clause tree | statement tree | element _ tree | marker tree | enumeration tree
  | importing tree => tree.start

def stop : Site → Nat
  | tail _ stop _ => stop
  | exact tree | clause tree | statement tree | element _ tree | marker tree | enumeration tree
  | importing tree => tree.stop

/-- The leaves of the construct. -/
def leaves : Site → List Tree
  | tail _ _ trees => Tree.leavesAll trees
  | exact tree | clause tree | statement tree | element _ tree | marker tree | enumeration tree
  | importing tree => tree.leaves

/-- Whether the construct is cut out, whatever else the file holds. -/
def isRemoval : Site → Bool
  | enumeration _ | importing _ => false
  | _ => true

/-- What the walk finds at a site. -/
def findings (source : Bytes) : Site → Findings
  | exact tree => eraseRange tree.start tree.stop
  | tail start stop _ => eraseRange start stop
  | clause tree => eraseClause source tree
  | statement tree => eraseStatement source tree
  | element siblings tree => eraseElement source siblings tree
  | marker tree => eraseToken source tree
  | enumeration tree => rewriteEnumeration source tree
  | importing tree => ⟨[], [], [tree]⟩

end Site

/-- A token that the walk leaves alone, a site, or a method that is entered as a constructor. -/
inductive Block where
  | token (tree : Tree)
  | site (site : Site)
  | constructor (method : Tree)

namespace Block

def leaves : Block → List Tree
  | token tree => tree.leaves
  | .site found => found.leaves
  | constructor _ => []

def findings (source : Bytes) : Block → Findings
  | token tree => if isValueName tree.kind then ⟨[], [tree.text source], []⟩ else .empty
  | .site found => found.findings source
  | constructor method => assignProperties source method

end Block

/-- A site that takes a tree whole. -/
def wholeSite? (siblings : List Tree) (tree : Tree) : Option Site :=
  let kind := tree.kind
  if isTypeSyntax kind then some (.exact tree)
  else if kind = .implementsClause then some (.clause tree)
  else if isTypeStatement kind || isAmbientField tree || isTypeExport tree then some (.statement tree)
  else if kind = .importStatement then some (.importing tree)
  else if (kind = .exportSpecifier && tree.hasToken "type") || isThisParameter tree then
    some (.element siblings tree)
  else if kind = .enumDeclaration then some (.enumeration tree)
  else none

def isAssertion (kind : Kind) : Bool := kind = .asExpression || kind = .satisfiesExpression

mutual

/-- The blocks of a tree, in the order in which the walk meets them. -/
def blocks (source : Bytes) (siblings : List Tree) : Tree → List Block
  | .node kind role start stop children =>
    let tree : Tree := .node kind role start stop children
    match wholeSite? siblings tree with
    | some site => [.site site]
    | none =>
      if children.isEmpty || isValueName kind then [.token tree]
      else if isAssertion kind then assertionBlocks source children stop
      else (if isConstructor source tree then [.constructor tree] else []) ++
        childBlocks source kind children children

/-- The blocks of an assertion. -/
def assertionBlocks (source : Bytes) : List Tree → Nat → List Block
  | [], _ => []
  | expression :: others, stop =>
    .site (.tail expression.stop stop others) :: blocks source (expression :: others) expression

/-- The blocks of the children of a construct. -/
def childBlocks (source : Bytes) (parent : Kind) (siblings : List Tree) : List Tree → List Block
  | [] => []
  | child :: later =>
    (if isMarker parent child then [.site (.marker child)] else blocks source siblings child) ++
      childBlocks source parent siblings later

end

/-- The findings of blocks, one after the other. -/
def allFindings (source : Bytes) (blocks : List Block) : Findings :=
  blocks.foldr (fun block later => block.findings source ++ later) .empty

namespace Findings

theorem append_eq (first second : Findings) :
    first ++ second = ⟨first.edits ++ second.edits, first.used ++ second.used, first.imports ++ second.imports⟩ :=
  rfl

theorem append_assoc (first second third : Findings) : first ++ second ++ third = first ++ (second ++ third) := by
  simp only [append_eq, List.append_assoc]

theorem append_empty (findings : Findings) : findings ++ Findings.empty = findings := by
  simp only [append_eq, Findings.empty, List.append_nil]

end Findings

theorem allFindings_append (source : Bytes) (first second : List Block) :
    allFindings source (first ++ second) = allFindings source first ++ allFindings source second := by
  induction first with
  | nil => rfl
  | cons head later eq =>
    change head.findings source ++ allFindings source (later ++ second) = _
    rw [eq, ← Findings.append_assoc]
    rfl

theorem allFindings_singleton (source : Bytes) (block : Block) :
    allFindings source [block] = block.findings source :=
  Findings.append_empty _

/-- The walk takes the trees whole that are sites, and treats the others by their kind. -/
theorem treatment_eq (source : Bytes) (siblings : List Tree) (tree : Tree) :
    treatment source siblings tree =
      match wholeSite? siblings tree with
      | some site => .whole (site.findings source)
      | none =>
        if isAssertion tree.kind then .assertion
        else if isValueName tree.kind then .whole ⟨[], [tree.text source], []⟩
        else if isConstructor source tree then .enter (assignProperties source tree)
        else .enter .empty := by
  unfold treatment wholeSite?
  dsimp only
  split
  · rfl
  split
  · rfl
  split
  · rfl
  split
  · rfl
  split
  · rfl
  split
  · rfl
  · rfl

theorem isConstructor_of_children_eq_nil {source : Bytes} {tree : Tree} (childless : tree.children = []) :
    isConstructor source tree = false := by
  simp [isConstructor, Tree.child?, childless]

theorem not_isValueName_of_isAssertion {kind : Kind} (assertion : isAssertion kind = true) :
    isValueName kind = false := by
  simp only [isAssertion, Bool.or_eq_true, decide_eq_true_eq] at assertion
  rcases assertion with rfl | rfl <;> rfl

theorem findings_token_of_not_isValueName (source : Bytes) {kind : Kind} {role : Option Role} {start stop : Nat}
    {children : List Tree} (plain : isValueName kind = false) :
    allFindings source [.token (.node kind role start stop children)] = .empty := by
  rw [allFindings_singleton]
  exact if_neg (by rw [show (Syntax.Tree.node kind role start stop children).kind = kind from rfl, plain]; simp)

mutual

/-- The walk finds what its blocks hold. -/
theorem walk_eq_allFindings (source : Bytes) (siblings : List Tree) : ∀ tree,
    walk source siblings tree = allFindings source (blocks source siblings tree)
  | .node kind role start stop children => by
    unfold walk blocks
    rw [treatment_eq]
    dsimp only
    cases wholeSite? siblings (.node kind role start stop children) with
    | some site => exact (allFindings_singleton source (.site site)).symm
    | none =>
      change (match (if isAssertion kind then Treatment.assertion
        else if isValueName kind then .whole ⟨[], [(Syntax.Tree.node kind role start stop children).text source], []⟩
        else if isConstructor source (.node kind role start stop children) then
          .enter (assignProperties source (.node kind role start stop children))
        else .enter .empty) with
        | .whole findings => findings
        | .assertion => walkAssertion source children stop
        | .enter findings => findings ++ walkChildren source kind children children) = _
      by_cases assertion : isAssertion kind = true
      · rw [if_pos assertion, not_isValueName_of_isAssertion assertion, Bool.or_false]
        cases children with
        | nil => exact (findings_token_of_not_isValueName source (not_isValueName_of_isAssertion assertion)).symm
        | cons expression others =>
          dsimp only [List.isEmpty_cons]
          rw [if_neg Bool.false_ne_true, if_pos assertion, walkAssertion_eq_allFindings]
      · rw [if_neg assertion]
        by_cases valueName : isValueName kind = true
        · rw [if_pos valueName, if_pos (by rw [valueName, Bool.or_true]), allFindings_singleton]
          exact (if_pos valueName).symm
        · rw [if_neg valueName, Bool.eq_false_iff.mpr valueName, Bool.or_false]
          cases children with
          | nil =>
            rw [isConstructor_of_children_eq_nil rfl]
            exact (findings_token_of_not_isValueName source (Bool.eq_false_iff.mpr valueName)).symm
          | cons child later =>
            dsimp only [List.isEmpty_cons]
            rw [if_neg Bool.false_ne_true, if_neg assertion, allFindings_append, ← walkChildren_eq_allFindings]
            by_cases constructor : isConstructor source (.node kind role start stop (child :: later)) = true
            · rw [if_pos constructor, if_pos constructor, allFindings_singleton]
              rfl
            · rw [if_neg constructor, if_neg constructor]
              rfl

theorem walkAssertion_eq_allFindings (source : Bytes) : ∀ children stop,
    walkAssertion source children stop = allFindings source (assertionBlocks source children stop)
  | [], _ => rfl
  | expression :: others, stop => by
    unfold walkAssertion assertionBlocks
    rw [walk_eq_allFindings source (expression :: others) expression]
    rfl

theorem walkChildren_eq_allFindings (source : Bytes) (parent : Kind) (siblings : List Tree) : ∀ children,
    walkChildren source parent siblings children =
      allFindings source (childBlocks source parent siblings children)
  | [] => rfl
  | child :: later => by
    unfold walkChildren childBlocks
    rw [allFindings_append, walkChildren_eq_allFindings source parent siblings later]
    split
    · rfl
    · rw [walk_eq_allFindings source siblings child]

end

/-! ## How the blocks of a tree are found -/

/-- A construct that is about types as a whole. -/
def isTypeConstruct (tree : Tree) : Bool :=
  isTypeSyntax tree.kind || tree.kind = .implementsClause ||
    (isTypeStatement tree.kind || isAmbientField tree || isTypeExport tree) ||
    ((tree.kind = .exportSpecifier && tree.hasToken "type") || isThisParameter tree)

/-- The sites of trees that are taken whole. -/
inductive WholeSite (siblings : List Tree) (tree : Tree) : Site → Prop
  | exact (syntax_ : isTypeSyntax tree.kind = true) : WholeSite siblings tree (.exact tree)
  | clause (kind : tree.kind = .implementsClause) : WholeSite siblings tree (.clause tree)
  | statement (statement : (isTypeStatement tree.kind || isAmbientField tree || isTypeExport tree) = true) :
      WholeSite siblings tree (.statement tree)
  | importing (kind : tree.kind = .importStatement) : WholeSite siblings tree (.importing tree)
  | element (element : ((tree.kind = .exportSpecifier && tree.hasToken "type") || isThisParameter tree) = true) :
      WholeSite siblings tree (.element siblings tree)
  | enumeration (kind : tree.kind = .enumDeclaration) : WholeSite siblings tree (.enumeration tree)

theorem WholeSite.of_wholeSite? {siblings : List Tree} {tree : Tree} {site : Site}
    (found : wholeSite? siblings tree = some site) : WholeSite siblings tree site := by
  unfold wholeSite? at found
  dsimp only at found
  split at found
  · next syntax_ =>
    cases found
    exact .exact syntax_
  split at found
  · next kind =>
    cases found
    exact .clause kind
  split at found
  · next statement =>
    cases found
    exact .statement statement
  split at found
  · next kind =>
    cases found
    exact .importing kind
  split at found
  · next element =>
    cases found
    exact .element element
  split at found
  · next kind =>
    cases found
    exact .enumeration kind
  · cases found

/-- A tree that is no site is neither about types as a whole, nor an import, nor an enumeration. -/
theorem wholeSite?_eq_none {siblings : List Tree} {tree : Tree} (plain : wholeSite? siblings tree = none) :
    isTypeConstruct tree = false ∧ tree.kind ≠ .importStatement ∧ tree.kind ≠ .enumDeclaration := by
  unfold wholeSite? at plain
  dsimp only at plain
  repeat' split at plain
  all_goals cases plain
  simp_all [isTypeConstruct]

/-- The site of a tree that is taken whole is where the tree is. -/
theorem WholeSite.spec {siblings : List Tree} {tree : Tree} {site : Site} (whole : WholeSite siblings tree site) :
    site.start = tree.start ∧ site.stop = tree.stop ∧ site.leaves = tree.leaves := by
  cases whole <;> exact ⟨rfl, rfl, rfl⟩

/-- The blocks of a child of a construct. -/
def blocksOfChild (source : Bytes) (parent : Kind) (siblings : List Tree) (child : Tree) : List Block :=
  if isMarker parent child then [.site (.marker child)] else blocks source siblings child

theorem childBlocks_eq_flatMap (source : Bytes) (parent : Kind) (siblings children : List Tree) :
    childBlocks source parent siblings children = children.flatMap (blocksOfChild source parent siblings) := by
  induction children with
  | nil => rfl
  | cons child later eq =>
    unfold childBlocks
    rw [List.flatMap_cons, eq]
    rfl

/-- How the blocks of a tree are made of those of its children. -/
inductive Layout (source : Bytes) (siblings : List Tree) (tree : Tree) : List Block → Prop
  | whole {site : Site} (whole : WholeSite siblings tree site) : Layout source siblings tree [.site site]
  | token (simple : tree.children = [] ∨ isValueName tree.kind = true) : Layout source siblings tree [.token tree]
  | assertion {expression : Tree} {others : List Tree} (assertion : isAssertion tree.kind = true)
      (children : tree.children = expression :: others) :
      Layout source siblings tree
        (.site (.tail expression.stop tree.stop others) :: blocks source tree.children expression)
  | construct {front : List Block} (inner : tree.children ≠ []) (plain : isAssertion tree.kind = false)
      (constructor : front = [] ∨ front = [.constructor tree] ∧ isConstructor source tree = true) :
      Layout source siblings tree (front ++ tree.children.flatMap (blocksOfChild source tree.kind tree.children))

theorem blocks_of_wholeSite? (source : Bytes) {siblings : List Tree} {tree : Tree} {site : Site}
    (found : wholeSite? siblings tree = some site) : blocks source siblings tree = [.site site] := by
  obtain ⟨kind, role, start, stop, children⟩ := tree
  unfold blocks
  dsimp only
  rw [found]

theorem layout_blocks (source : Bytes) (siblings : List Tree) (tree : Tree) :
    Layout source siblings tree (blocks source siblings tree) := by
  obtain ⟨kind, role, start, stop, children⟩ := tree
  unfold blocks
  dsimp only
  split
  · next site found => exact .whole (.of_wholeSite? found)
  · split
    · next simple =>
      rw [Bool.or_eq_true, List.isEmpty_iff] at simple
      exact .token simple
    · next inner =>
      have nonempty : children ≠ [] := by
        rintro rfl
        simp at inner
      split
      · next assertion =>
        obtain ⟨expression, others, rfl⟩ := List.exists_cons_of_ne_nil nonempty
        unfold assertionBlocks
        exact .assertion assertion rfl
      · next plain =>
        rw [childBlocks_eq_flatMap]
        refine .construct nonempty (Bool.eq_false_iff.mpr plain) ?_
        split
        · next constructor => exact .inr ⟨rfl, constructor⟩
        · exact .inl rfl

end Scaffold.Erasure
