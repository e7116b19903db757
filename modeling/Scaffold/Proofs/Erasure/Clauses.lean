import Scaffold.Proofs.Erasure.Bindings
import Scaffold.Proofs.Erasure.Edits
import Scaffold.Proofs.Syntax.Bodies
import Scaffold.Proofs.Syntax.Relocation

/-! # Import clauses that are written anew

A clause that loses some of its bindings is put together again from the texts of the others. It is a clause again, in
which every binding that is left means what it meant before.
-/

namespace Scaffold.Syntax

open Scaffold.Text

namespace Shape

open Rule

/-! ## The shape of a clause -/

/-- What an import brings in beside a default name. -/
def bundle : Shape := .alt namespaceImport namedImports

/-- What a clause consists of. -/
def clauseBody : Shape := .alt bundle (.seq (name .identifier []) (opt (.seq (sign ",") bundle)))

theorem givesOnly_importClause (dialect : Dialect) (symbol : Symbol) :
    givesOnly .importClause clauseBody (dialect.rule symbol) = true := by
  cases symbol with
  | expression place binding assertions =>
    change (true && passAll _ _ _) = true
    simp only [passAll_append, operatorTails, binaryOperators, List.flatMap_cons, List.flatMap_nil, Bool.and_eq_true,
      true_and]
    and_intros <;> first | rfl | exact passAll_ite rfl
  | declarators first => cases first <;> rfl
  | destructuring assigned => cases assigned <;> rfl
  | operand place =>
    obtain ⟨openEnded, typedArrows⟩ := place
    cases openEnded <;> cases typedArrows <;> rfl
  | type place =>
    obtain ⟨ending, functions, inCall, shortNames⟩ := place
    cases functions <;> cases inCall <;> rfl
  | simpleType place =>
    obtain ⟨ending, functions, inCall, shortNames⟩ := place
    cases inCall <;> cases shortNames <;> rfl
  | typeArguments inCall => cases inCall <;> rfl
  | angled place => cases dialect <;> rfl
  | _ => rfl

end Shape

end Scaffold.Syntax

namespace Scaffold.Erasure

open Scaffold.Text Scaffold.Syntax

variable {dialect : Dialect} {text back final : List Char} {at_ next : Cursor} {trees more : List Tree} {tree : Tree}

/-! ## What a binding means -/

/-- The ways in which an import brings in a name. -/
inductive ImportRole where
  | byDefault | namespace | named
  deriving DecidableEq, Repr

/-- What an import brings in: in which way, under which name of its module, and under which name here. -/
structure Meaning where
  role : ImportRole
  name? : Option String
  local? : Option String
  deriving DecidableEq, Repr

deriving instance DecidableEq for Binding

namespace Binding

def role (binding : Binding) : ImportRole :=
  if binding.braced then .named else if binding.written.kind = .namespaceImport then .namespace else .byDefault

def meaning (source : Bytes) (binding : Binding) : Meaning :=
  ⟨binding.role, (binding.written.child? .name).map (Tree.text source), binding.name?.map (Tree.text source)⟩

/-- The binding of a default name. -/
def ofDefault (name : Tree) : Binding := ⟨false, name, some name⟩

/-- The binding of a namespace. -/
def ofNamespace (part : Tree) : Binding := ⟨false, part, part.parts.find? fun name => name.kind = .identifier⟩

/-- The binding of a name in braces. -/
def ofSpecifier (specifier : Tree) : Binding := ⟨true, specifier, (specifier.child? .alias).or (specifier.child? .name)⟩

/-- A binding whose text has moved. -/
def moved (source target : Nat) (binding : Binding) : Binding :=
  ⟨binding.braced, binding.written.moved source target, binding.name?.map (Tree.moved source target)⟩

variable {source target : Nat}

theorem ofDefault_moved (name : Tree) : ofDefault (name.moved source target) = (ofDefault name).moved source target := rfl

theorem ofNamespace_moved (part : Tree) : ofNamespace (part.moved source target) = (ofNamespace part).moved source target := by
  rw [ofNamespace, Tree.find?_parts_moved]
  rfl

theorem ofSpecifier_moved (specifier : Tree) :
    ofSpecifier (specifier.moved source target) = (ofSpecifier specifier).moved source target := by
  rw [ofSpecifier, Tree.child?_moved, Tree.child?_moved, ← Option.map_or]
  rfl

/-- The name of a binding stands in what is written for it. -/
structure IsOwn (binding : Binding) : Prop where
  name_mem : ∀ name ∈ binding.name?, name ∈ binding.written.preorder

theorem mem_preorder_of_child? {parent child : Tree} {role : Role} (found : parent.child? role = some child) :
    child ∈ parent.preorder :=
  Tree.mem_preorder_of_mem_children (Tree.mem_preorder_self _) (List.mem_of_find?_eq_some found)

theorem isOwn_ofDefault (name : Tree) : (ofDefault name).IsOwn where
  name_mem _ same := Option.some.inj same ▸ Tree.mem_preorder_self name

theorem isOwn_ofNamespace (part : Tree) : (ofNamespace part).IsOwn where
  name_mem _ found := Tree.mem_preorder_of_mem_children (Tree.mem_preorder_self _)
    (List.mem_of_mem_filter (List.mem_of_find?_eq_some found))

theorem isOwn_ofSpecifier (specifier : Tree) : (ofSpecifier specifier).IsOwn where
  name_mem _ found := (Option.or_eq_some_iff.mp found).elim mem_preorder_of_child? fun found => mem_preorder_of_child? found.2

/-- A binding means the same where its text has moved. -/
theorem meaning_moved {rule : Shape} {allowed : List Char → Prop} {binding : Binding} (own : binding.IsOwn)
    (portable : binding.written.Portable dialect text rule allowed) {other : List Char}
    (there : Cursor.In final ⟨target, binding.written.chars text ++ other⟩) :
    (binding.moved binding.written.start target).meaning (encodeChars final) = binding.meaning (encodeChars text) := by
  have same (found? : Option Tree) (inside : ∀ inner ∈ found?, inner ∈ binding.written.preorder) :
      (found?.map (Tree.moved binding.written.start target)).map (Tree.text (encodeChars final)) =
        found?.map (Tree.text (encodeChars text)) := by
    cases found? with
    | none => rfl
    | some inner => exact congrArg some (portable.text_moved there (inside inner rfl))
  rw [meaning, meaning, moved, Tree.child?_moved, same _ fun _ => mem_preorder_of_child?, same _ own.name_mem]
  simp only [role, Tree.kind_moved]

end Binding

open Binding

/-! ## The bindings among some trees -/

/-- The bindings that the parts of a clause bring in. -/
def bindingsIn (trees : List Tree) : List Binding :=
  (trees.filter fun child => child.isNamed && !child.isComment).flatMap bindingsOf

theorem bindings_eq (clause : Tree) : bindings clause = bindingsIn clause.children := rfl

theorem bindingsIn_append (trees more : List Tree) : bindingsIn (trees ++ more) = bindingsIn trees ++ bindingsIn more := by
  rw [bindingsIn, List.filter_append, List.flatMap_append]
  rfl

theorem bindingsIn_of_comments (comment : ∀ tree ∈ trees, tree.isComment = true) : bindingsIn trees = [] := by
  rw [bindingsIn, List.filter_eq_nil_iff.mpr fun tree mem => by simp [comment tree mem]]
  rfl

theorem bindingsIn_dropWhile (trees : List Tree) : bindingsIn (trees.dropWhile Tree.isComment) = bindingsIn trees := by
  have front := @bindingsIn_of_comments (trees.takeWhile Tree.isComment)
    fun tree mem => List.all_eq_true.mp List.all_takeWhile tree mem
  have whole := bindingsIn_append (trees.takeWhile Tree.isComment) (trees.dropWhile Tree.isComment)
  rw [List.takeWhile_append_dropWhile, front, List.nil_append] at whole
  exact whole.symm

theorem bindingsIn_singleton (named : tree.isNamed = true) (plain : tree.isComment = false) :
    bindingsIn [tree] = bindingsOf tree := by
  simp [bindingsIn, named, plain]

theorem bindingsIn_of_sign {mark : String} (derived : (dialect.grammar false).Derives (Rule.sign mark) at_ trees next) :
    bindingsIn trees = [] := by
  cases derived with
  | leaf found =>
    obtain ⟨comments, start, stop, rfl, comment⟩ := exists_of_readLeaf found
    have areComments : ∀ tree ∈ comments, tree.isComment = true := fun tree mem => by
      obtain ⟨start, stop, rfl⟩ := comment tree mem
      rfl
    rw [bindingsIn_append, bindingsIn_of_comments areComments]
    rfl

/-- The specifiers among some trees. -/
def specifiersIn (trees : List Tree) : List Tree := trees.filter fun tree => tree.kind = .importSpecifier

theorem bindingsOf_namedImports (part : Tree) (kind : part.kind = .namedImports) :
    bindingsOf part = (specifiersIn part.children).map ofSpecifier := by
  simp only [bindingsOf, kind, Tree.parts, List.filter_filter, specifiersIn]
  refine congrArg (List.map ofSpecifier) (List.filter_congr fun child _ => ?_)
  by_cases specifier : child.kind = .importSpecifier <;> simp [specifier, Tree.isNamed, Tree.isComment, Kind.isNamed]

theorem specifiersIn_of_comments (comment : ∀ tree ∈ trees, tree.isComment = true) : specifiersIn trees = [] := by
  refine List.filter_eq_nil_iff.mpr fun tree mem => ?_
  have kind : tree.kind = .comment := of_decide_eq_true (comment tree mem)
  simp [kind]

/-- The bindings of braces are those of the specifiers in them. -/
theorem bindingsIn_gather (trees : List Tree) :
    bindingsIn (gather .namedImports trees) = (specifiersIn trees).map ofSpecifier := by
  rcases comments_or_split trees with comments | ⟨comments, first, later, rfl, comment, plain⟩
  · rw [gather_of_comments comments, bindingsIn_of_comments comments, specifiersIn_of_comments comments]
    rfl
  · have behind : specifiersIn (comments ++ first :: later) = specifiersIn (first :: later) := by
      rw [specifiersIn, List.filter_append]
      exact congrArg (· ++ _) (specifiersIn_of_comments comment)
    rw [gather_eq comment plain, bindingsIn_append, bindingsIn_of_comments comment, List.nil_append,
      bindingsIn_singleton rfl rfl, behind]
    exact bindingsOf_namedImports _ rfl

/-! ## The order of the bindings -/

/-- A namespace or names in braces. The names may stand elsewhere, and the namespace in front of the same text. -/
structure InBundle (dialect : Dialect) (text back : List Char) (spaces specifiers : List Tree) : Prop where
  oneSpace : spaces.length ≤ 1
  oneSort : spaces = [] ∨ specifiers = []
  ofSpaces : ∀ tree ∈ spaces, tree.kind = .namespaceImport ∧
    tree.Portable dialect text Shape.namespaceImport (· = back)
  ofSpecifiers : ∀ tree ∈ specifiers, tree.kind = .importSpecifier ∧
    tree.Portable dialect text Shape.importSpecifier Halts

/-- Bindings in the order of a clause: a default name in front of a bundle. -/
inductive InOrder (dialect : Dialect) (text back : List Char) : List Binding → Prop
  | mk (names spaces specifiers : List Tree) (oneName : names.length ≤ 1)
      (ofNames : ∀ tree ∈ names, tree.kind = .identifier ∧
        tree.Portable dialect text (Rule.name .identifier []) fun other => nameTailLength 0 other = 0)
      (bundle : InBundle dialect text back spaces specifiers) :
      InOrder dialect text back (names.map ofDefault ++ (spaces.map ofNamespace ++ specifiers.map ofSpecifier))

/-- Where some of the bindings go, the others keep their order. -/
theorem InOrder.filter {bindings : List Binding} (ordered : InOrder dialect text back bindings) (stays : Binding → Bool) :
    InOrder dialect text back (bindings.filter stays) := by
  obtain ⟨names, spaces, specifiers, oneName, ofNames, bundle⟩ := ordered
  rw [List.filter_append, List.filter_append, List.filter_map, List.filter_map, List.filter_map]
  refine .mk _ _ _ (Nat.le_trans (List.length_filter_le ..) oneName) (fun tree mem => ofNames tree (List.mem_of_mem_filter mem))
    ⟨Nat.le_trans (List.length_filter_le ..) bundle.oneSpace, ?_, fun tree mem => bundle.ofSpaces tree (List.mem_of_mem_filter mem),
      fun tree mem => bundle.ofSpecifiers tree (List.mem_of_mem_filter mem)⟩
  rcases bundle.oneSort with rfl | rfl
  · exact .inl rfl
  · exact .inr rfl

/-- The specifiers among the trees of a list may stand wherever a token halts behind them. -/
def HoldsSpecifiers (dialect : Dialect) (text : List Char) (trees : List Tree) : Prop :=
  ∀ tree ∈ trees, tree.kind = .importSpecifier → tree.Portable dialect text Shape.importSpecifier Halts

theorem holdsSpecifiers_append (front : HoldsSpecifiers dialect text trees) (back : HoldsSpecifiers dialect text more) :
    HoldsSpecifiers dialect text (trees ++ more) := fun tree mem => (List.mem_append.mp mem).elim (front tree) (back tree)

theorem holdsSpecifiers_of_sign {mark : String}
    (derived : (dialect.grammar false).Derives (Rule.sign mark) at_ trees next) : HoldsSpecifiers dialect text trees := by
  cases derived with
  | leaf found =>
    obtain ⟨comments, start, stop, rfl, comment⟩ := exists_of_readLeaf found
    intro tree mem specifier
    rcases List.mem_append.mp mem with mem | mem
    · obtain ⟨start, stop, rfl⟩ := comment tree mem
      cases specifier
    · rw [List.mem_singleton.mp mem] at specifier
      cases specifier

theorem holdsSpecifiers_of_specifier (inside : at_.In text)
    (derived : (dialect.grammar false).Derives Shape.importSpecifier at_ trees next) : HoldsSpecifiers dialect text trees := by
  rcases portable_of_node inside rfl (by decide) (show (dialect.grammar false).Derives (.node _ _) _ _ _ from derived)
    with rfl | ⟨specifier, rfl, -, -, portable⟩
  · exact nofun
  · intro tree mem kind
    rcases List.mem_append.mp mem with mem | mem
    · have comment : tree.kind = .comment := of_decide_eq_true (isComment_trivia at_ tree mem)
      rw [comment] at kind
      cases kind
    · rw [List.mem_singleton.mp mem]
      exact portable.mono fun other halts => .inr ⟨[], next.rest, other, rfl, rfl, halts⟩

theorem holdsSpecifiers_of_many (inside : at_.In text)
    (derived : (dialect.grammar false).Derives (.many (.seq (Rule.sign ",") Shape.importSpecifier)) at_ trees next) :
    HoldsSpecifiers dialect text trees := by
  generalize same : Rule.many (.seq (Rule.sign ",") Shape.importSpecifier) = rule at derived
  induction derived with
  | manyNone => exact nofun
  | manyMore front _ _ later =>
    cases same
    have here := (front.span inside).2
    cases front with
    | seq comma specifier =>
      exact holdsSpecifiers_append (holdsSpecifiers_append (holdsSpecifiers_of_sign comma)
        (holdsSpecifiers_of_specifier (comma.span inside).2 specifier)) (later here rfl)
  | _ => cases same

/-- Names in braces may stand elsewhere. -/
theorem holdsSpecifiers_of_braces (inside : at_.In text)
    (derived : (dialect.grammar false).Derives (Rule.braces (Rule.trailing Shape.importSpecifier)) at_ trees next) :
    HoldsSpecifiers dialect text trees := by
  cases derived with
  | seq opening rest =>
    have afterOpening := (opening.span inside).2
    cases rest with
    | seq items closing =>
      refine holdsSpecifiers_append (holdsSpecifiers_of_sign opening)
        (holdsSpecifiers_append ?_ (holdsSpecifiers_of_sign closing))
      cases items with
      | seq list comma =>
        refine holdsSpecifiers_append ?_ ?_
        · cases list with
          | first list =>
            cases list with
            | seq first others =>
              exact holdsSpecifiers_append (holdsSpecifiers_of_specifier afterOpening first)
                (holdsSpecifiers_of_many (first.span afterOpening).2 others)
          | second nothing =>
            cases nothing
            exact nofun
        · cases comma with
          | first comma => exact holdsSpecifiers_of_sign comma
          | second nothing =>
            cases nothing
            exact nofun

theorem bindingsIn_leaf (kind : tree.kind = .identifier) : bindingsIn [tree] = [tree].map ofDefault := by
  rw [bindingsIn_singleton (by simp [Tree.isNamed, kind, Kind.isNamed]) (by simp [Tree.isComment, kind])]
  simp only [bindingsOf, kind]
  rfl

theorem bindingsIn_namespace (kind : tree.kind = .namespaceImport) : bindingsIn [tree] = [tree].map ofNamespace := by
  rw [bindingsIn_singleton (by simp [Tree.isNamed, kind, Kind.isNamed]) (by simp [Tree.isComment, kind])]
  simp only [bindingsOf, kind]
  rfl

theorem inBundle_of_derives (inside : at_.In text)
    (derived : (dialect.grammar false).Derives Shape.bundle at_ trees next) :
    ∃ spaces specifiers : List Tree, bindingsIn trees = spaces.map ofNamespace ++ specifiers.map ofSpecifier ∧
      InBundle dialect text next.rest spaces specifiers := by
  cases derived with
  | first space =>
    rcases portable_of_node inside rfl (by decide) (show (dialect.grammar false).Derives (.node _ _) _ _ _ from space)
      with rfl | ⟨tree, rfl, kind, -, portable⟩
    · exact ⟨[], [], rfl, Nat.zero_le _, .inl rfl, nofun, nofun⟩
    · refine ⟨[tree], [], ?_, Nat.le_refl _, .inr rfl, fun other mem => ?_, nofun⟩
      · rw [bindingsIn_append, bindingsIn_of_comments (isComment_trivia _), bindingsIn_namespace kind]
        rfl
      · rw [List.mem_singleton.mp mem]
        exact ⟨kind, portable.mono fun other same => .inl same⟩
  | second braces =>
    cases braces with
    | @node _ _ _ _ inner braces =>
      refine ⟨[], specifiersIn inner, bindingsIn_gather inner, Nat.zero_le _, .inl rfl, nofun, fun tree mem => ?_⟩
      obtain ⟨mem, kind⟩ := List.mem_filter.mp mem
      exact ⟨of_decide_eq_true kind, holdsSpecifiers_of_braces inside braces tree mem (of_decide_eq_true kind)⟩

/-- What a clause derives are bindings in order. -/
theorem inOrder_of_clause (inside : at_.In text)
    (derived : (dialect.grammar false).Derives Shape.clauseBody at_ trees next) :
    InOrder dialect text next.rest (bindingsIn trees) := by
  cases derived with
  | first derived =>
    obtain ⟨spaces, specifiers, eq, bundle⟩ := inBundle_of_derives inside derived
    rw [eq]
    exact .mk [] spaces specifiers (Nat.zero_le _) nofun bundle
  | second derived =>
    cases derived with
    | seq name rest =>
      have afterName := (name.span inside).2
      cases name with
      | leaf found =>
        obtain ⟨tree, rfl, kind, -, portable⟩ := @portable_of_leaf dialect _ _ _ _ _ _ rfl inside found
        have ofNames : ∀ other ∈ [tree], other.kind = .identifier ∧
            other.Portable dialect text (Rule.name .identifier []) fun other => nameTailLength 0 other = 0 := by
          intro other mem
          rw [List.mem_singleton.mp mem]
          exact ⟨kind, portable⟩
        rw [bindingsIn_append, bindingsIn_append, bindingsIn_of_comments (isComment_trivia _), List.nil_append,
          bindingsIn_leaf kind]
        cases rest with
        | first rest =>
          cases rest with
          | seq comma derived =>
            obtain ⟨spaces, specifiers, eq, bundle⟩ := inBundle_of_derives (comma.span afterName).2 derived
            rw [bindingsIn_append, bindingsIn_of_sign comma, List.nil_append, eq]
            exact .mk [tree] spaces specifiers (Nat.le_refl _) ofNames bundle
        | second nothing =>
          cases nothing
          exact .mk [tree] [] [] (Nat.le_refl _) ofNames ⟨Nat.zero_le _, .inl rfl, nofun, nofun⟩

/-! ## Writing a clause -/

/-- The specifiers behind the first one, as they are written. -/
def laterChars (text : List Char) (specifiers : List Tree) : List Char :=
  specifiers.flatMap fun specifier => ',' :: ' ' :: specifier.chars text

theorem halts_laterChars (specifiers : List Tree) (other : List Char) :
    Halts (laterChars text specifiers ++ ' ' :: other) := by
  cases specifiers with
  | nil => exact ⟨' ', other, rfl, .inl rfl⟩
  | cons first later => exact ⟨',', _, rfl, .inr rfl⟩

/-- The meanings of the specifiers among some trees. -/
def specifiersMean (text : List Char) (trees : List Tree) : List Meaning :=
  (specifiersIn trees).map fun specifier => (ofSpecifier specifier).meaning (encodeChars text)

theorem specifiersMean_append (trees more : List Tree) :
    specifiersMean text (trees ++ more) = specifiersMean text trees ++ specifiersMean text more := by
  rw [specifiersMean, specifiersIn, List.filter_append, List.map_append]
  rfl

theorem specifiersMean_moved {target : Nat} {other : List Char} (kind : tree.kind = .importSpecifier)
    (portable : tree.Portable dialect text Shape.importSpecifier Halts)
    (there : Cursor.In final ⟨target, tree.chars text ++ other⟩) :
    specifiersMean final [tree.moved tree.start target] = [(ofSpecifier tree).meaning (encodeChars text)] := by
  have same := meaning_moved (isOwn_ofSpecifier tree) portable there
  rw [specifiersMean, specifiersIn, List.filter_cons_of_pos (by simpa using kind), List.filter_nil, List.map_singleton,
    ofSpecifier_moved]
  exact congrArg ([·]) same

/-- Specifiers with commas in front are read again, and mean the same. -/
theorem derives_laterChars {specifiers : List Tree} (ofSpecifiers : ∀ tree ∈ specifiers, tree.kind = .importSpecifier ∧
    tree.Portable dialect text Shape.importSpecifier Halts) {target : Nat} {other : List Char}
    (inside : Cursor.In final ⟨target, laterChars text specifiers ++ ' ' :: other⟩) :
    ∃ trees, (dialect.grammar false).Derives (.many (.seq (Rule.sign ",") Shape.importSpecifier))
        ⟨target, laterChars text specifiers ++ ' ' :: other⟩ trees
        ⟨target + width (laterChars text specifiers), ' ' :: other⟩ ∧
      specifiersMean final trees = specifiers.map fun specifier => (ofSpecifier specifier).meaning (encodeChars text) := by
  induction specifiers generalizing target with
  | nil => exact ⟨[], .manyNone, rfl⟩
  | cons first later rest =>
    obtain ⟨kind, portable⟩ := ofSpecifiers first List.mem_cons_self
    have shape : laterChars text (first :: later) ++ ' ' :: other =
        ",".toList ++ ' ' :: (first.chars text ++ (laterChars text later ++ ' ' :: other)) := by
      simp [laterChars]
    rw [shape] at inside ⊢
    have comma := @derives_sign dialect "," ⟨target, _⟩ _ (' ' :: (first.chars text ++ (laterChars text later ++ ' ' :: other)))
      (by decide) (trivia_of_inky (by rintro c ⟨⟩; decide) target)
    have afterComma := (comma.span inside).2
    have gap := trivia_of_blank (@inky_append _ (laterChars text later ++ ' ' :: other) portable.solid portable.inky)
      (target + width ",".toList)
    have here := (Cursor.In.trivia afterComma).2
    rw [gap] at here
    have specifier := portable.elsewhere _ _ _ (halts_laterChars later other) gap
    obtain ⟨trees, derived, eq⟩ := rest (fun tree mem => ofSpecifiers tree (List.mem_cons_of_mem _ mem))
      (specifier.span afterComma).2
    have whole := Grammar.Derives.manyMore (.seq comma specifier) derived
    have moves : target + width ",".toList + 1 + width (first.chars text) + width (laterChars text later) =
        target + width (laterChars text (first :: later)) := by
      have spaced : laterChars text (first :: later) = ",".toList ++ " ".toList ++ first.chars text ++ laterChars text later := by
        simp [laterChars]
      have blank : width " ".toList = 1 := rfl
      rw [spaced]
      simp only [width_append]
      omega
    rw [moves] at whole
    refine ⟨_, whole, ?_⟩
    rw [specifiersMean_append, specifiersMean_append, eq, specifiersMean_moved kind portable here]
    rfl

/-- Specifiers in braces, as they are written. -/
def bracesChars (text : List Char) (first : Tree) (later : List Tree) : List Char :=
  "\x7b".toList ++ ' ' :: (first.chars text ++ (laterChars text later ++ ' ' :: "\x7d".toList))

/-- A text is read as what a clause brings in beside a default name, and means what these bindings mean. -/
def ReadsBundle (dialect : Dialect) (text final back written : List Char) (bindings : List Binding) : Prop :=
  ∀ cursor target, cursor.trivia = ([], ⟨target, written ++ back⟩) → Cursor.In final ⟨target, written ++ back⟩ →
    ∃ tree, (dialect.grammar false).Derives Shape.bundle cursor [tree] ⟨target + width written, back⟩ ∧
      tree.isComment = false ∧ (bindingsIn [tree]).map (meaning (encodeChars final)) = bindings.map (meaning (encodeChars text))

theorem readsBundle_space (kind : tree.kind = .namespaceImport)
    (portable : tree.Portable dialect text Shape.namespaceImport (· = back)) :
    ReadsBundle dialect text final back (tree.chars text) [ofNamespace tree] := by
  intro cursor target trivia there
  refine ⟨_, .first (portable.elsewhere cursor back target rfl trivia), by simp [Tree.isComment, kind], ?_⟩
  rw [bindingsIn_namespace (by rw [Tree.kind_moved, kind]), List.map_singleton, List.map_singleton, List.map_singleton,
    ofNamespace_moved]
  exact congrArg ([·]) (meaning_moved (isOwn_ofNamespace tree) portable there)

/-- Names in braces are a bundle that means what the specifiers mean. -/
theorem exists_namedImports (plain : tree.isComment = false)
    (derived : (dialect.grammar false).Derives (Rule.braces (Rule.trailing Shape.importSpecifier)) at_ (tree :: more) next) :
    ∃ part, (dialect.grammar false).Derives Shape.bundle at_ [part] next ∧ part.isComment = false ∧
      (bindingsIn [part]).map (meaning (encodeChars text)) = specifiersMean text (tree :: more) := by
  have node := @Grammar.Derives.node _ _ .namedImports _ _ _ _ derived
  have bindings := bindingsIn_gather (tree :: more)
  rw [← List.nil_append (tree :: more), @gather_eq _ [] _ _ (by simp) plain, List.nil_append] at node bindings
  refine ⟨_, .second node, rfl, ?_⟩
  rw [bindings, List.map_map]
  rfl

/-- Specifiers that are written in braces are read again, and mean the same. -/
theorem readsBundle_braces {first : Tree} {later : List Tree}
    (ofSpecifiers : ∀ tree ∈ first :: later, tree.kind = .importSpecifier ∧
      tree.Portable dialect text Shape.importSpecifier Halts) :
    ReadsBundle dialect text final back (bracesChars text first later) ((first :: later).map ofSpecifier) := by
  intro cursor target trivia there
  obtain ⟨kind, portable⟩ := ofSpecifiers first List.mem_cons_self
  have shape : bracesChars text first later ++ back =
      "\x7b".toList ++ ' ' :: (first.chars text ++ (laterChars text later ++ ' ' :: ("\x7d".toList ++ back))) := by
    simp [bracesChars]
  rw [shape] at trivia there
  have opening := @derives_sign dialect _ _ _ _ (by decide) trivia
  have afterOpening := there.advance 1
  change Cursor.In final ⟨target + width "\x7b".toList, ' ' :: (first.chars text ++ _)⟩ at afterOpening
  have gap := trivia_of_blank
    (@inky_append _ (laterChars text later ++ ' ' :: ("\x7d".toList ++ back)) portable.solid portable.inky)
    (target + width "\x7b".toList)
  have here := (Cursor.In.trivia afterOpening).2
  rw [gap] at here
  have specifier := portable.elsewhere _ _ _ (halts_laterChars later _) gap
  obtain ⟨trees, others, eq⟩ := derives_laterChars (fun tree mem => ofSpecifiers tree (List.mem_cons_of_mem _ mem))
    (specifier.span afterOpening).2
  have closing := @derives_sign dialect "\x7d" ⟨_, ' ' :: ("\x7d".toList ++ back)⟩ _ back (by decide)
    (trivia_of_blank (by rintro c ⟨⟩; decide)
      (target + width "\x7b".toList + 1 + width (first.chars text) + width (laterChars text later)))
  obtain ⟨tree, derived, plain, mean⟩ := @exists_namedImports _ final _ _ _ _ rfl
    (.seq opening (.seq (.seq (.first (.seq specifier others)) (.second .empty)) closing))
  have moves : target + width "\x7b".toList + 1 + width (first.chars text) + width (laterChars text later) + 1 +
      width "\x7d".toList = target + width (bracesChars text first later) := by
    have spaced : bracesChars text first later =
        "\x7b".toList ++ " ".toList ++ first.chars text ++ laterChars text later ++ " ".toList ++ "\x7d".toList := by
      simp [bracesChars]
    have blank : width " ".toList = 1 := rfl
    rw [spaced]
    simp only [width_append]
    omega
  refine ⟨tree, moves ▸ derived, plain, mean.trans ?_⟩
  have parts := @specifiersMean_append final [first.moved first.start (target + width "\x7b".toList + 1)] trees
  rw [eq, specifiersMean_moved kind portable here] at parts
  change specifiersMean final ([_] ++ trees ++ [] ++ [_]) = _
  rw [List.append_nil, specifiersMean_append, parts, List.map_map]
  exact List.append_nil _

/-- The parts of a clause beside its default name, as they are written. -/
def bundleChars (text : List Char) (spaces : List Tree) : List Tree → List (List Char)
  | [] => spaces.map (Tree.chars text)
  | first :: later => spaces.map (Tree.chars text) ++ [bracesChars text first later]

theorem intercalate_chars (first : Tree) (later : List Tree) :
    ", ".toList.intercalate ((first :: later).map (Tree.chars text)) = first.chars text ++ laterChars text later := by
  induction later generalizing first with
  | nil => simp [laterChars]
  | cons next later eq =>
    rw [List.map_cons, List.map_cons, List.intercalate_cons_cons, ← List.map_cons, eq]
    simp [laterChars]

theorem toList_clauseText (names spaces specifiers : List Tree) :
    (clauseText (encodeChars text)
      (names.map ofDefault ++ (spaces.map ofNamespace ++ specifiers.map ofSpecifier))).toList =
        ", ".toList.intercalate (names.map (Tree.chars text) ++ bundleChars text spaces specifiers) := by
  have whole : writtenIn (encodeChars text) false
      (names.map ofDefault ++ (spaces.map ofNamespace ++ specifiers.map ofSpecifier)) =
        (names ++ spaces).map (Tree.text (encodeChars text)) := by
    simp [writtenIn, List.filter_map, Function.comp_def, ofDefault, ofNamespace, ofSpecifier]
  have named : writtenIn (encodeChars text) true
      (names.map ofDefault ++ (spaces.map ofNamespace ++ specifiers.map ofSpecifier)) =
        specifiers.map (Tree.text (encodeChars text)) := by
    simp [writtenIn, List.filter_map, Function.comp_def, ofDefault, ofNamespace, ofSpecifier]
  have chars (trees : List Tree) : (trees.map (Tree.text (encodeChars text))).map String.toList = trees.map (Tree.chars text) :=
    List.map_map
  rw [clauseText, whole, named, KeptBindings.text, String.toList_intercalate, List.map_append, chars, List.map_append,
    List.append_assoc]
  cases specifiers with
  | nil => exact congrArg (fun parts => ", ".toList.intercalate (names.map (Tree.chars text) ++ parts)) (List.append_nil _)
  | cons first later =>
    have braces : ("\x7b " ++ ", ".intercalate ((first :: later).map (Tree.text (encodeChars text))) ++ " \x7d").toList =
        bracesChars text first later := by
      rw [String.toList_append, String.toList_append, String.toList_intercalate, chars, intercalate_chars, bracesChars,
        List.append_assoc, List.append_assoc]
      rfl
    exact congrArg (fun part => ", ".toList.intercalate
      (names.map (Tree.chars text) ++ (spaces.map (Tree.chars text) ++ [part]))) braces

/-- What is beside the default name is nothing, or one part that is read again. -/
theorem InBundle.reads {spaces specifiers : List Tree} (bundle : InBundle dialect text back spaces specifiers) :
    spaces = [] ∧ specifiers = [] ∨ ∃ written, bundleChars text spaces specifiers = [written] ∧ written ≠ [] ∧ Inky written ∧
      ReadsBundle dialect text final back written (spaces.map ofNamespace ++ specifiers.map ofSpecifier) := by
  rcases bundle.oneSort with rfl | rfl
  · cases specifiers with
    | nil => exact .inl ⟨rfl, rfl⟩
    | cons first later =>
      exact .inr ⟨_, rfl, by simp [bracesChars], by rintro c ⟨⟩; decide, readsBundle_braces bundle.ofSpecifiers⟩
  · cases spaces with
    | nil => exact .inl ⟨rfl, rfl⟩
    | cons space later =>
      obtain rfl : later = [] := List.length_eq_zero_iff.mp (Nat.le_zero.mp (Nat.le_of_succ_le_succ bundle.oneSpace))
      obtain ⟨kind, portable⟩ := bundle.ofSpaces space List.mem_cons_self
      exact .inr ⟨_, rfl, portable.solid, portable.inky, readsBundle_space kind portable⟩

theorem exists_clause (plain : tree.isComment = false)
    (derived : (dialect.grammar false).Derives Shape.clauseBody at_ (tree :: more) next) :
    ∃ clause, (dialect.grammar false).Derives Shape.importClause at_ [clause] next ∧
      bindings clause = bindingsIn (tree :: more) := by
  have node := @Grammar.Derives.node _ _ .importClause _ _ _ _ derived
  rw [← List.nil_append (tree :: more), @gather_eq _ [] _ _ (by simp) plain, List.nil_append] at node
  exact ⟨_, node, rfl⟩

/-- A text between two others is an import clause that brings in these bindings in this order, with the meanings that they
have in the source. -/
def IsClauseOf (dialect : Dialect) (text before written back : List Char) (kept : List Binding) : Prop :=
  ∃ clause, (dialect.grammar false).Derives Shape.importClause ⟨width before, written ++ back⟩ [clause]
      ⟨width before + width written, back⟩ ∧
    (bindings clause).map (meaning (encodeChars (before ++ (written ++ back)))) = kept.map (meaning (encodeChars text))

/-- Bindings in order are written as a clause that brings them in. Where the default name is alone, the text behind must not
go on with it. -/
theorem InOrder.rebuild {kept : List Binding} (ordered : InOrder dialect text back kept) (some_ : kept ≠ [])
    (ends : (∀ binding ∈ kept, binding.role = .byDefault) → nameTailLength 0 back = 0) {front written : List Char}
    (text_eq : (clauseText (encodeChars text) kept).toList = written) : IsClauseOf dialect text front written back kept := by
  obtain ⟨names, spaces, specifiers, oneName, ofNames, bundle⟩ := ordered
  rw [toList_clauseText] at text_eq
  have inside : Cursor.In (front ++ (written ++ back)) ⟨width front, written ++ back⟩ := ⟨front, rfl, rfl⟩
  have reads := @InBundle.reads _ _ _ (front ++ (written ++ back)) _ _ bundle
  unfold IsClauseOf
  cases names with
  | nil =>
    rcases reads with ⟨rfl, rfl⟩ | ⟨part, eq, solid, inky, reads⟩
    · exact absurd rfl some_
    · rw [eq, List.map_nil, List.nil_append, List.intercalate_singleton] at text_eq
      subst text_eq
      obtain ⟨tree, derived, plain, mean⟩ := reads _ _ (trivia_of_inky (inky_append solid inky) _) inside
      obtain ⟨clause, derived, same⟩ := exists_clause plain (.first derived)
      exact ⟨clause, derived, by rw [same, mean]; rfl⟩
  | cons name later =>
    obtain rfl : later = [] := List.length_eq_zero_iff.mp (Nat.le_zero.mp (Nat.le_of_succ_le_succ oneName))
    obtain ⟨kind, portable⟩ := ofNames name List.mem_cons_self
    have plain : (name.moved name.start (width front)).isComment = false := by simp [Tree.isComment, kind]
    have own {other : List Char} (there : Cursor.In (front ++ (written ++ back)) ⟨width front, name.chars text ++ other⟩) :
        (bindingsIn [name.moved name.start (width front)]).map (meaning (encodeChars (front ++ (written ++ back)))) =
          [(ofDefault name).meaning (encodeChars text)] := by
      rw [bindingsIn_leaf (by rw [Tree.kind_moved, kind]), List.map_singleton, List.map_singleton, ofDefault_moved]
      exact congrArg ([·]) (meaning_moved (isOwn_ofDefault name) portable there)
    rcases reads with ⟨rfl, rfl⟩ | ⟨part, eq, solid, inky, reads⟩
    · have alone : nameTailLength 0 back = 0 := by
        refine ends fun binding mem => ?_
        rw [List.mem_singleton.mp mem]
        simp [role, ofDefault, kind]
      rw [bundleChars, List.map_singleton, List.map_nil, List.append_nil, List.intercalate_singleton] at text_eq
      subst text_eq
      have derived := portable.elsewhere _ _ _ alone (trivia_of_inky (inky_append portable.solid portable.inky) (width front))
      obtain ⟨clause, derived, same⟩ := exists_clause plain (.second (.seq derived (.second .empty)))
      exact ⟨clause, derived, (congrArg (List.map _) same).trans (own inside)⟩
    · rw [eq, List.map_singleton, List.singleton_append, List.intercalate_cons_cons, List.intercalate_singleton] at text_eq
      have shape : written ++ back = name.chars text ++ (",".toList ++ ' ' :: (part ++ back)) := by
        rw [← text_eq]
        simp
      have moves : width front + width (name.chars text) + width ",".toList + 1 + width part = width front + width written := by
        have blank : width ", ".toList = width ",".toList + 1 := rfl
        rw [← text_eq, width_append, width_append, blank]
        omega
      rw [shape] at inside ⊢
      rw [shape] at reads own
      have first := portable.elsewhere ⟨width front, _⟩ (",".toList ++ ' ' :: (part ++ back)) (width front)
        (quiet_of_halts ⟨',', _, rfl, .inr rfl⟩) (trivia_of_inky (inky_append portable.solid portable.inky) _)
      have comma := @derives_sign dialect "," ⟨_, ",".toList ++ ' ' :: (part ++ back)⟩ _ _ (by decide)
        (trivia_of_inky (by rintro c ⟨⟩; decide) (width front + width (name.chars text)))
      have gap := trivia_of_blank (@inky_append _ back solid inky)
        (width front + width (name.chars text) + width ",".toList)
      have there := (Cursor.In.trivia (comma.span (first.span inside).2).2).2
      rw [gap] at there
      obtain ⟨tree, second, -, mean⟩ := reads _ _ gap there
      obtain ⟨clause, derived, same⟩ := exists_clause plain (.second (.seq first (.first (.seq comma second))))
      refine ⟨clause, moves ▸ derived, (congrArg (List.map _) same).trans ?_⟩
      change (bindingsIn ([_] ++ ([_] ++ [tree]))).map _ = _
      rw [bindingsIn_append, bindingsIn_append, bindingsIn_of_sign comma, List.nil_append, List.map_append, own inside, mean]
      simp only [List.map_append, List.map_singleton]

/-- Where a clause with bindings stands in a file, and in what order it brings them in. -/
theorem exists_inOrder {root clause : Tree} (parsed : dialect.parse (encodeChars text) = .ok root)
    (mem : clause ∈ root.preorder) (isClause : clause.kind = .importClause) (some_ : bindings clause ≠ []) :
    ∃ before old back, text = before ++ (old ++ back) ∧ clause.start = width before ∧
      clause.stop = width before + width old ∧ InOrder dialect text back (bindings clause) := by
  have inner : clause.children ≠ [] := fun none_ => some_ (by rw [bindings_eq, none_]; rfl)
  obtain ⟨at_, trees, next, first, others, inside, derived, left, eq⟩ :=
    Dialect.isDerived_of_parse parsed (Shape.givesOnly_importClause dialect) nofun mem isClause inner
  have ordered := inOrder_of_clause inside derived
  have own : bindings clause = bindingsIn trees := by
    rw [eq, bindings_eq, Tree.children, ← left, bindingsIn_dropWhile]
  obtain ⟨front, split, offset⟩ := (derived.span inside).2
  have stretch := ((Dialect.describes_of_parse parsed).placed.inner mem).1.start_le_stop
  rcases derived.delimited rfl inside with ⟨rfl, -⟩ | ⟨comments, token, later, comment, plain, ⟨before, rest, split', starts⟩, stops⟩
  · cases left
  · rw [List.dropWhile_append_of_pos comment, List.dropWhile_cons_of_neg (by simp [plain])] at left
    obtain ⟨rfl, rfl⟩ := List.cons.inj left
    have start_eq : clause.start = width before := by rw [eq, ← starts]; rfl
    have stop_eq : clause.stop = width front := by rw [eq, ← offset, ← stops]; rfl
    obtain ⟨old, rfl⟩ : ∃ old, front = before ++ old := by
      rcases List.append_eq_append_iff.mp (split'.symm.trans split) with ⟨old, same, -⟩ | ⟨more, rfl, -⟩
      · exact ⟨old, same⟩
      · cases more with
        | nil => exact ⟨[], by simp⟩
        | cons c more =>
          have := charWidth_pos c
          rw [start_eq, stop_eq, width_append, width_cons] at stretch
          omega
    refine ⟨before, old, next.rest, by rw [split, List.append_assoc], start_eq, by rw [stop_eq, width_append], own ▸ ordered⟩

/-- An import that is marked as one of types goes. Any other one stays where all its bindings stay, goes where it has
bindings and none stays, and otherwise gets a clause that brings in those that stay, in the same order and with the same
meanings, unless a name goes on behind a default name that stays alone. -/
theorem clauses_keep_bindings {root statement : Tree} (parsed : dialect.parse (encodeChars text) = .ok root)
    (mem : statement ∈ root.preorder) (used : List String) :
    let source := encodeChars text
    let marked := statement.hasToken "type" || statement.hasToken "typeof"
    (marked = true → importEdit? source used statement = some (statementRemoval source statement)) ∧
    (marked = false → (∀ child ∈ statement.children, child.kind ≠ .importClause) →
      importEdit? source used statement = none) ∧
    ∀ clause, marked = false → statement.children.find? (fun child => child.kind = .importClause) = some clause →
      let kept := (bindings clause).filter (Binding.stays source used)
      (kept = bindings clause → importEdit? source used statement = none) ∧
      (kept ≠ bindings clause → kept = [] →
        importEdit? source used statement = some (statementRemoval source statement)) ∧
      (kept ≠ bindings clause → kept ≠ [] → ∃ before old written back, text = before ++ (old ++ back) ∧
        clause.start = width before ∧ clause.stop = width before + width old ∧
          importEdit? source used statement = some ⟨clause.start, clause.stop, encodeChars written⟩ ∧
          (((∀ binding ∈ kept, binding.role = .byDefault) → nameTailLength 0 back = 0) →
            IsClauseOf dialect text before written back kept)) := by
  intro source marked
  have count (clause : Tree) : (keptBindings source used clause).count = (keptBindings source used clause).total ↔
      (bindings clause).filter (Binding.stays source used) = bindings clause := by
    rw [count_keptBindings, keptBindings_eq, List.length_filter_eq_length_iff, List.filter_eq_self]
  have none_ (clause : Tree) : (keptBindings source used clause).count = 0 ↔
      (bindings clause).filter (Binding.stays source used) = [] := by
    rw [count_keptBindings, List.length_eq_zero_iff]
  have isClause {clause : Tree} (found : statement.children.find? (fun child => child.kind = .importClause) = some clause) :
      clause.kind = .importClause := by simpa using List.find?_some found
  have fate := importFate source used statement
  generalize importEdit? source used statement = edit at fate
  cases fate with
  | typed marking =>
    refine ⟨fun _ => rfl, fun plain => absurd (plain.symm.trans marking) nofun, fun clause plain => absurd (plain.symm.trans marking) nofun⟩
  | bare plain missing =>
    refine ⟨fun marking => absurd (plain.symm.trans marking) nofun, fun _ _ => rfl, fun clause _ found => ?_⟩
    rw [missing] at found
    cases found
  | unchanged plain found all =>
    refine ⟨fun marking => absurd (plain.symm.trans marking) nofun, fun _ _ => rfl, fun clause _ found' => ?_⟩
    obtain rfl := Option.some.inj (found.symm.trans found')
    have same := (count _).mp all
    exact ⟨fun _ => rfl, fun differs => absurd same differs, fun differs => absurd same differs⟩
  | dropped plain found some_ nothing =>
    refine ⟨fun marking => absurd (plain.symm.trans marking) nofun, fun _ missing => ?_, fun clause _ found' => ?_⟩
    · exact absurd (isClause found) (missing _ (List.mem_of_find?_eq_some found))
    · obtain rfl := Option.some.inj (found.symm.trans found')
      exact ⟨fun same => absurd ((count _).mpr same) some_, fun _ _ => rfl,
        fun _ something => absurd ((none_ _).mp nothing) something⟩
  | rewritten plain found some_ something =>
    refine ⟨fun marking => absurd (plain.symm.trans marking) nofun, fun _ missing => ?_, fun clause _ found' => ?_⟩
    · exact absurd (isClause found) (missing _ (List.mem_of_find?_eq_some found))
    · obtain rfl := Option.some.inj (found.symm.trans found')
      refine ⟨fun same => absurd ((count _).mpr same) some_, fun _ nothing => absurd ((none_ _).mpr nothing) something,
        fun _ left => ?_⟩
      have inside := Tree.mem_preorder_of_mem_children mem (List.mem_of_find?_eq_some found)
      have bound : bindings _ ≠ [] := fun nothing => left (by rw [nothing]; rfl)
      obtain ⟨before, old, back, split, start_eq, stop_eq, ordered⟩ :=
        exists_inOrder parsed inside (isClause found) bound
      refine ⟨before, old, _, back, split, start_eq, stop_eq, ?_, fun ends => (ordered.filter _).rebuild left ends rfl⟩
      rw [text_keptBindings]
      rfl

def mixedText : List Char := "import A, \x7b type B, C as D \x7d from 'x'\n".toList

def mixedAlias : Tree :=
  .node .importSpecifier none 20 26 [.node .identifier (some .name) 20 21 [], .node (.token "as") none 22 24 [],
    .node .identifier (some .alias) 25 26 []]

def mixedClause : Tree :=
  .node .importClause none 7 28 [.node .identifier none 7 8 [], .node (.token ",") none 8 9 [],
    .node .namedImports none 10 28 [.node (.token "\x7b") none 10 11 [],
      .node .importSpecifier none 12 18 [.node (.token "type") none 12 16 [], .node .identifier (some .name) 17 18 []],
      .node (.token ",") none 18 19 [], mixedAlias, .node (.token "\x7d") none 27 28 []]]

def mixedImport : Tree :=
  .node .importStatement none 0 37 [.node (.token "import") none 0 6 [], mixedClause, .node (.token "from") none 29 33 [],
    .node .string (some .source) 34 37 []]

/-- The bindings of the clause but for the one that is marked as a type. -/
def mixedKept : List Binding := [ofDefault (.node .identifier none 7 8 []), ofSpecifier mixedAlias]

theorem mixed_clause_keeps_alias :
    Dialect.plain.parse (encodeChars mixedText) = .ok (.node .program none 0 38 [mixedImport]) ∧
      mixedKept.map (meaning (encodeChars mixedText)) = [⟨.byDefault, none, some "A"⟩, ⟨.named, some "C", some "D"⟩] ∧
      ∃ before old written back, mixedText = before ++ (old ++ back) ∧ width before = 7 ∧
        importEdit? (encodeChars mixedText) ["A", "B", "D"] mixedImport = some ⟨7, 28, encodeChars written⟩ ∧
        IsClauseOf .plain mixedText before written back mixedKept := by
  have parsed : Dialect.plain.parse (encodeChars mixedText) = .ok (.node .program none 0 38 [mixedImport]) := by
    decide +kernel
  have kept : (bindings mixedClause).filter (Binding.stays (encodeChars mixedText) ["A", "B", "D"]) = mixedKept := by
    decide +kernel
  obtain ⟨before, old, written, back, split, start_eq, -, edit, isClause⟩ :=
    ((@clauses_keep_bindings _ _ _ mixedImport parsed (by decide +kernel) ["A", "B", "D"]).2.2 mixedClause
      (by decide) rfl).2.2 (by rw [kept]; decide) (by rw [kept]; decide)
  rw [kept] at isClause
  refine ⟨parsed, by decide +kernel, before, old, written, back, split, start_eq.symm, edit, isClause fun only => ?_⟩
  exact absurd (only (ofSpecifier mixedAlias) (by decide)) (by decide)

/-! An import of types goes even where its clause has no bindings at all. -/

def bareText : List Char := "import type \x7b\x7d from 'x'\n".toList

def bareClause : Tree :=
  .node .importClause none 12 14 [.node .namedImports none 12 14 [.node (.token "\x7b") none 12 13 [],
    .node (.token "\x7d") none 13 14 []]]

def bareImport : Tree :=
  .node .importStatement none 0 23 [.node (.token "import") none 0 6 [], .node (.token "type") none 7 11 [], bareClause,
    .node (.token "from") none 15 19 [], .node .string (some .source) 20 23 []]

set_option maxRecDepth 8000 in
theorem bare_type_import_goes :
    Dialect.plain.parse (encodeChars bareText) = .ok (.node .program none 0 24 [bareImport]) ∧
      bareImport.children.find? (fun child => child.kind = .importClause) = some bareClause ∧ bindings bareClause = [] ∧
      importEdit? (encodeChars bareText) [] bareImport = some (statementRemoval (encodeChars bareText) bareImport) ∧
      erase .plain (encodeChars bareText) = .ok [] := by
  have parsed : Dialect.plain.parse (encodeChars bareText) = .ok (.node .program none 0 24 [bareImport]) := by decide +kernel
  have edits : erasureEdits (encodeChars bareText) (.node .program none 0 24 [bareImport]) = [.removal 0 24] := by
    decide +kernel
  refine ⟨parsed, rfl, rfl, rfl, ?_⟩
  rw [erase, parsed]
  dsimp only
  rw [eraseTree, applyEdits, edits, List.mergeSort_singleton]
  exact congrArg Except.ok (by decide +kernel)

end Scaffold.Erasure
