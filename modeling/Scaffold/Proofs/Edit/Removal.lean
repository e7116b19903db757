import Scaffold.Proofs.Edit.Standing

/-! # Files without some of their statements

Whichever statements go from the lists of a file, the grammar produces what is left of its tree, and all that is left
stands where it stood before. This holds of elements of lists only: without the statement that it needs, a condition is
none.
-/

namespace Scaffold.Syntax.Tree

mutual

/-- A tree without the trees below it that are gone. -/
def pruned (gone : Tree → Bool) : Tree → Tree
  | .node kind role start stop children => .node kind role start stop (prunedAll gone children)

def prunedAll (gone : Tree → Bool) : List Tree → List Tree
  | [] => []
  | tree :: later => if gone tree then prunedAll gone later else pruned gone tree :: prunedAll gone later

end

variable {gone : Tree → Bool} {tree : Tree} {trees more : List Tree}

@[simp]
theorem kind_pruned (gone : Tree → Bool) (tree : Tree) : (tree.pruned gone).kind = tree.kind := by
  cases tree
  rfl

@[simp]
theorem role_pruned (gone : Tree → Bool) (tree : Tree) : (tree.pruned gone).role = tree.role := by
  cases tree
  rfl

@[simp]
theorem children_pruned (gone : Tree → Bool) (tree : Tree) : (tree.pruned gone).children = prunedAll gone tree.children := by
  cases tree
  rfl

theorem prunedAll_eq (gone : Tree → Bool) (trees : List Tree) :
    prunedAll gone trees = (trees.filter fun tree => !gone tree).map (pruned gone) := by
  induction trees with
  | nil => rfl
  | cons tree later eq =>
    rw [prunedAll, eq]
    by_cases isGone : gone tree = true
    · rw [if_pos isGone, List.filter_cons_of_neg (by simp [isGone])]
    · rw [if_neg isGone, List.filter_cons_of_pos (by simp [isGone]), List.map_cons]

theorem prunedAll_append (gone : Tree → Bool) (trees more : List Tree) :
    prunedAll gone (trees ++ more) = prunedAll gone trees ++ prunedAll gone more := by
  rw [prunedAll_eq, prunedAll_eq, prunedAll_eq, List.filter_append, List.map_append]

/-- Where no tree of a list is gone, all of them are left. -/
theorem prunedAll_of_stay (stay : ∀ tree ∈ trees, gone tree = false) : prunedAll gone trees = trees.map (pruned gone) := by
  rw [prunedAll_eq, List.filter_eq_self.mpr (by simpa using stay)]

theorem prunedAll_singleton (stays : gone tree = false) : prunedAll gone [tree] = [tree.pruned gone] :=
  prunedAll_of_stay (by simpa using stays)

theorem isComment_pruned (gone : Tree → Bool) (tree : Tree) : (tree.pruned gone).isComment = tree.isComment := by
  unfold isComment
  rw [kind_pruned]

theorem pruned_withRole (gone : Tree → Bool) (tree : Tree) (role : Role) :
    (tree.withRole role).pruned gone = (tree.pruned gone).withRole role := by
  obtain ⟨kind, own, start, stop, children⟩ := tree
  cases own with
  | some own => rfl
  | none =>
    by_cases comment : kind = .comment
    · rw [withRole, if_pos comment, pruned, withRole, if_pos comment]
    · rw [withRole, if_neg comment, pruned, pruned, withRole, if_neg comment]

theorem pruned_inRole (gone : Tree → Bool) (tree : Tree) (role : Option Role) :
    (tree.inRole role).pruned gone = (tree.pruned gone).inRole role := by
  cases role with
  | none => rfl
  | some role => exact pruned_withRole gone tree role

end Scaffold.Syntax.Tree

namespace Scaffold.Edit

open Scaffold.Text Scaffold.Syntax Scaffold.Syntax.Tree

/-- Only statements are gone, whatever part they play. -/
structure TakesStatements (gone : Tree → Bool) : Prop where
  statements : ∀ tree, gone tree = true → isStatement tree.kind = true
  recast : ∀ tree role, gone (tree.recast role) = gone tree

mutual

/-- Whether all that is gone from a tree is elements of lists of statements. Inside what is gone, more may be. -/
def losesElements (gone : Tree → Bool) : Tree → Bool
  | .node kind _ _ _ children => losesElementsAll gone (isList kind) children

def losesElementsAll (gone : Tree → Bool) (list : Bool) : List Tree → Bool
  | [] => true
  | tree :: later => (if gone tree then list else losesElements gone tree) && losesElementsAll gone list later

end

section Produced

variable {dialect : Dialect} {tolerant : Bool} {shape : Shape} {gone : Tree → Bool} {tree : Tree} {trees more : List Tree}

theorem TakesStatements.stays (takes : TakesStatements gone) (other : isStatement tree.kind = false) : gone tree = false := by
  cases isGone : gone tree with
  | false => rfl
  | true =>
    rw [takes.statements tree isGone] at other
    cases other

theorem TakesStatements.withRole (takes : TakesStatements gone) (tree : Tree) (role : Role) :
    gone (tree.withRole role) = gone tree := by
  obtain ⟨own, eq, -⟩ := tree.withRole_eq_recast role
  rw [eq, takes.recast]

theorem TakesStatements.inRole (takes : TakesStatements gone) (tree : Tree) (role : Option Role) :
    gone (tree.inRole role) = gone tree := by
  cases role with
  | none => rfl
  | some role => exact takes.withRole tree role

theorem losesElementsAll_iff {list : Bool} : losesElementsAll gone list trees = true ↔
    (∀ tree ∈ trees, gone tree = true → list = true) ∧ ∀ tree ∈ trees, gone tree = false → losesElements gone tree = true := by
  induction trees with
  | nil => simp [losesElementsAll]
  | cons tree later iff =>
    rw [losesElementsAll, Bool.and_eq_true, iff, List.forall_mem_cons, List.forall_mem_cons]
    cases isGone : gone tree with
    | true => simp [and_assoc]
    | false => simp [and_left_comm]

/-- What is gone from a tree is elements of lists if that holds of its children and of all that is left in them. -/
theorem losesElements_iff : losesElements gone tree = true ↔
    (∀ child ∈ tree.children, gone child = true → isList tree.kind = true) ∧
      ∀ child ∈ tree.children, gone child = false → losesElements gone child = true := by
  cases tree
  exact losesElementsAll_iff

theorem losesElements_inRole (role : Option Role) : losesElements gone (tree.inRole role) = losesElements gone tree := by
  rw [Bool.eq_iff_iff, losesElements_iff, losesElements_iff, kind_inRole, children_inRole]

/-- A plain rule loses nothing. -/
theorem TakesStatements.stay_of_isPlain (takes : TakesStatements gone) (plain : isPlain shape = true)
    (produced : (dialect.grammar tolerant).Produces shape trees) : ∀ tree ∈ trees, gone tree = false :=
  fun tree mem => takes.stays (isStatement_of_isPlain produced plain tree mem)

/-- A rule that is plain, or of which nothing is gone, loses nothing. -/
theorem TakesStatements.stay_of_plain_or (takes : TakesStatements gone) (produced : (dialect.grammar tolerant).Produces shape trees)
    (plain : isPlain shape = true ∨ ∀ tree ∈ trees, gone tree = false) : ∀ tree ∈ trees, gone tree = false :=
  plain.elim (fun plain => takes.stay_of_isPlain plain produced) id

/-- The part that trees play has no say in which of them are left. -/
theorem TakesStatements.prunedAll_map_withRole (takes : TakesStatements gone) (role : Role) (trees : List Tree) :
    prunedAll gone (trees.map (Tree.withRole role)) = (prunedAll gone trees).map (Tree.withRole role) := by
  induction trees with
  | nil => rfl
  | cons tree later eq =>
    rw [List.map_cons, prunedAll, prunedAll, takes.withRole, eq]
    split
    · rfl
    · rw [List.map_cons, pruned_withRole]

theorem isComment_of_mem_prunedAll (comments : ∀ tree ∈ trees, tree.isComment = true) :
    ∀ tree ∈ prunedAll gone trees, tree.isComment = true := by
  intro tree mem
  rw [prunedAll_eq] at mem
  obtain ⟨original, member, rfl⟩ := List.mem_map.mp mem
  rw [isComment_pruned]
  exact comments original (List.mem_filter.mp member).1

/-- What is left of comments is comments. -/
theorem comments_of_mem_prunedAll (comments : ∀ tree ∈ trees, gone tree = false → tree.isComment = true ∧ tree.children = []) :
    ∀ tree ∈ prunedAll gone trees, tree.isComment = true ∧ tree.children = [] := by
  intro tree mem
  rw [prunedAll_eq] at mem
  obtain ⟨original, member, rfl⟩ := List.mem_map.mp mem
  obtain ⟨member, stays⟩ := List.mem_filter.mp member
  obtain ⟨isComment, childless⟩ := comments original member ((Bool.not_eq_true' _).mp stays)
  rw [isComment_pruned, children_pruned, childless]
  exact ⟨isComment, rfl⟩

/-- Where the one tree of a list is gone, comments are left. -/
theorem TakesStatements.isComment_of_stays (takes : TakesStatements gone)
    (one : (trees.filter fun tree => !tree.isComment).length ≤ 1) (mem : tree ∈ trees) (isGone : gone tree = true) :
    ∀ other ∈ trees, gone other = false → other.isComment = true := by
  intro other member stays
  cases isComment : other.isComment with
  | true => rfl
  | false =>
    have notComment : tree.isComment = false := by
      cases comment : tree.isComment with
      | false => rfl
      | true =>
        have := takes.stays (isStatement_of_isComment comment)
        rw [isGone] at this
        cases this
    have first : tree ∈ trees.filter fun tree => !tree.isComment := List.mem_filter.mpr ⟨mem, by simp [notComment]⟩
    have second : other ∈ trees.filter fun tree => !tree.isComment := List.mem_filter.mpr ⟨member, by simp [isComment]⟩
    obtain ⟨only, eq⟩ := List.length_eq_one_iff.mp (Nat.le_antisymm one (List.length_pos_of_mem first))
    rw [eq] at first second
    rw [List.mem_singleton.mp second, ← List.mem_singleton.mp first, isGone] at stays
    cases stays

/-- Where the one tree that a rule yields is gone, comments are left. -/
theorem TakesStatements.stay_or_comments (takes : TakesStatements gone) (single : isSingle shape = true)
    (produced : (dialect.grammar tolerant).Produces shape trees) :
    (∀ tree ∈ trees, gone tree = false) ∨ ∀ tree ∈ trees, gone tree = false → tree.isComment = true := by
  by_cases some_ : ∃ tree ∈ trees, gone tree = true
  · obtain ⟨tree, mem, isGone⟩ := some_
    exact .inr (takes.isComment_of_stays (length_le_of_isSingle produced single) mem isGone)
  · exact .inl fun tree mem => Bool.eq_false_iff.mpr fun isGone => some_ ⟨tree, mem, isGone⟩

/-- A repetition goes on without an element. -/
theorem TakesStatements.produces_repeated (takes : TakesStatements gone) {item repeated : Shape}
    (front : (dialect.grammar tolerant).Produces item trees) (orderly : isOrderly item = true)
    (step : ∀ {trees more : List Tree}, (dialect.grammar tolerant).Produces item trees →
      (dialect.grammar tolerant).Produces repeated more → (dialect.grammar tolerant).Produces repeated (trees ++ more))
    (first : (∀ tree ∈ trees, gone tree = false) → (dialect.grammar tolerant).Produces item (prunedAll gone trees))
    (later : (dialect.grammar tolerant).Produces repeated (prunedAll gone more))
    (listing : isSingle item = true ∨ ∀ tree ∈ trees, gone tree = false) :
    (dialect.grammar tolerant).Produces repeated (prunedAll gone (trees ++ more)) := by
  rw [prunedAll_append]
  rcases listing.elim (fun single => takes.stay_or_comments single front) .inl with stay | comments
  · exact step (first stay) later
  · apply Grammar.Produces.behind_comments later
    apply comments_of_mem_prunedAll
    intro tree mem stays
    exact ⟨comments tree mem stays, children_of_isComment front orderly tree mem (comments tree mem stays)⟩

/-- Without elements of its lists of statements, what an orderly rule produces is still produced by it. -/
theorem TakesStatements.produces (takes : TakesStatements gone) (produced : (dialect.grammar tolerant).Produces shape trees)
    (orderly : isOrderly shape = true) (loses : ∀ tree ∈ trees, gone tree = false → losesElements gone tree = true)
    (listing : isListing shape = true ∨ ∀ tree ∈ trees, gone tree = false) :
    (dialect.grammar tolerant).Produces shape (prunedAll gone trees) := by
  induction produced with
  | empty => exact .empty
  | @leaf kind terminal start stop =>
    have produced : (dialect.grammar tolerant).Produces (.leaf kind terminal) _ := .leaf start stop
    rw [prunedAll_of_stay (takes.stay_of_plain_or produced listing)]
    exact produced
  | @glued kind terminal start stop =>
    have produced : (dialect.grammar tolerant).Produces (.glued kind terminal) _ := .glued start stop
    rw [prunedAll_of_stay (takes.stay_of_plain_or produced listing)]
    exact produced
  | ending => exact .ending
  | call body others =>
    have stay := takes.stay_of_plain_or (.call body) listing
    exact .call (others (isOrderly_rule dialect _) loses (.inr stay))
  | seq _ _ front back =>
    obtain ⟨first, second⟩ := (Bool.and_eq_true _ _).mp orderly
    obtain ⟨losesFront, losesBack⟩ := List.forall_mem_append.mp loses
    rw [isListing, Bool.and_eq_true, List.forall_mem_append] at listing
    rw [prunedAll_append]
    exact .seq (front first losesFront (listing.imp And.left And.left)) (back second losesBack (listing.imp And.right And.right))
  | first taken others =>
    have stay := takes.stay_of_plain_or (.first taken) listing
    exact .first (others ((Bool.and_eq_true _ _).mp orderly).1 loses (.inr stay))
  | second taken others =>
    have stay := takes.stay_of_plain_or (.second taken) listing
    exact .second (others ((Bool.and_eq_true _ _).mp orderly).2 loses (.inr stay))
  | manyNone => exact .manyNone
  | manyMore front _ first later =>
    obtain ⟨losesFront, losesBack⟩ := List.forall_mem_append.mp loses
    rw [List.forall_mem_append] at listing
    exact takes.produces_repeated front orderly .manyMore (fun stay => first orderly losesFront (.inr stay))
      (later orderly losesBack (listing.imp id And.right)) (listing.imp id And.left)
  | itemsNone => exact .itemsNone
  | itemsMore front _ first later =>
    obtain ⟨losesFront, losesBack⟩ := List.forall_mem_append.mp loses
    rw [List.forall_mem_append] at listing
    exact takes.produces_repeated front orderly .itemsMore (fun stay => first orderly losesFront (.inr stay))
      (later orderly losesBack (listing.imp id And.right)) (listing.imp id And.left)
  | @node kind body comments children start stop inner areComments others =>
    have stay := takes.stay_of_plain_or (.node start stop inner areComments) listing
    obtain ⟨outer, below⟩ := (Bool.and_eq_true _ _).mp orderly
    obtain ⟨own, -⟩ := (Bool.and_eq_true _ _).mp outer
    obtain ⟨stayAhead, stayOwn⟩ := List.forall_mem_append.mp stay
    obtain ⟨losesAhead, losesOwn⟩ := List.forall_mem_append.mp loses
    rw [List.forall_mem_singleton] at stayOwn losesOwn
    obtain ⟨lists, losesInside⟩ := losesElements_iff.mp (losesOwn stayOwn)
    -- a construct that is no list of statements loses no child
    have listingInside : isListing body = true ∨ ∀ tree ∈ comments ++ children, gone tree = false := by
      by_cases list : isList kind = true
      · rw [if_pos list] at own
        exact .inl own
      · refine .inr (List.forall_mem_append.mpr ⟨stayAhead, fun tree mem => ?_⟩)
        exact Bool.eq_false_iff.mpr fun isGone => list (lists tree mem isGone)
    have inside := others below (List.forall_mem_append.mpr ⟨losesAhead, losesInside⟩) listingInside
    rw [prunedAll_append] at inside
    rw [prunedAll_append, prunedAll_singleton stayOwn]
    exact .node start stop inside (isComment_of_mem_prunedAll areComments)
  | hollow inner areComments others =>
    obtain ⟨-, below⟩ := (Bool.and_eq_true _ _).mp orderly
    refine .hollow (others below loses (.inr fun tree mem => ?_)) (isComment_of_mem_prunedAll areComments)
    exact takes.stays (isStatement_of_isComment (areComments tree mem))
  | @role role body trees inner others =>
    have stay := takes.stay_of_plain_or (.role inner) listing
    have stayInner : ∀ tree ∈ trees, gone tree = false := by
      intro tree mem
      rw [← takes.withRole tree role]
      exact stay _ (List.mem_map_of_mem mem)
    have losesInner : ∀ tree ∈ trees, gone tree = false → losesElements gone tree = true := by
      intro tree mem _
      rw [← losesElements_inRole (some role)]
      exact loses _ (List.mem_map_of_mem mem) (stay _ (List.mem_map_of_mem mem))
    rw [takes.prunedAll_map_withRole]
    exact .role (others orderly losesInner (.inr stayInner))
  | without => exact .without
  | @only accepts body trees tree inner last accepted others =>
    have stay := takes.stay_of_plain_or (.only inner last accepted) listing
    have lastLeft : (prunedAll gone trees).getLast? = some (tree.pruned gone) := by
      rw [prunedAll_of_stay stay, List.getLast?_map, last]
      rfl
    exact .only (others orderly loses (.inr stay)) lastLeft (by rwa [kind_pruned])
  | base inner others =>
    have stay := takes.stay_of_plain_or (.base inner) listing
    obtain ⟨outer, -⟩ := (Bool.and_eq_true _ _).mp orderly
    exact .base (others ((Bool.and_eq_true _ _).mp outer).2 loses (.inr stay))
  | @grown base guard tails before trees tree accepts kind role body start stop smaller tail accepted behind base_ others =>
    obtain ⟨-, plain, below⟩ := orderly_of_mem ((Bool.and_eq_true _ _).mp orderly).2 tail
    have plainWhole := isPlain_grow orderly
    have staySmaller := takes.stay_of_isPlain plainWhole smaller
    obtain ⟨-, stayLast⟩ := List.forall_mem_append.mp staySmaller
    obtain ⟨-, stayMade⟩ := List.forall_mem_append.mp
      (takes.stay_of_isPlain plainWhole (.grown start stop smaller tail accepted behind))
    obtain ⟨losesAhead, losesMade⟩ := List.forall_mem_append.mp loses
    rw [List.forall_mem_singleton] at stayLast stayMade losesMade
    obtain ⟨losesLast, losesBehind⟩ := List.forall_mem_cons.mp (losesElements_iff.mp (losesMade stayMade)).2
    rw [takes.inRole, losesElements_inRole] at losesLast
    have whole := base_ orderly (List.forall_mem_append.mpr ⟨losesAhead, List.forall_mem_singleton.mpr losesLast⟩)
      (.inr staySmaller)
    rw [prunedAll_append, prunedAll_singleton stayLast] at whole
    rw [prunedAll_append, prunedAll_singleton stayMade, pruned, prunedAll, if_neg (by rw [takes.inRole, stayLast]; nofun),
      pruned_inRole]
    refine .grown start stop whole tail (by rwa [kind_pruned]) (others below losesBehind (.inr ?_))
    exact takes.stay_of_isPlain plain behind
  | @comment rule front back comment around isComment childless others =>
    have stays := takes.stays (isStatement_of_isComment isComment)
    rw [prunedAll_append, prunedAll, if_neg (by simp [stays])]
    refine .comment ?_ ?_ ?_
    · rw [← prunedAll_append]
      have inner {tree : Tree} (mem : tree ∈ front ++ back) : tree ∈ front ++ comment :: back :=
        (List.sublist_cons_self comment back).append_left front |>.subset mem
      exact others orderly (fun tree mem => loses tree (inner mem)) (listing.imp id fun stay tree mem => stay tree (inner mem))
    · rw [isComment_pruned]
      exact isComment
    · rw [children_pruned, childless]
      rfl

end Produced

/-! ## Whole files -/

/-- What a file is: perhaps a line for the shell that runs it, and statements. -/
def fileShape : Shape := .seq (Rule.opt (.glued .hashBang .hashBang)) (.items Shape.statement)

/-- A tree is that of a file of the language, whatever its text. -/
structure Conforms (dialect : Dialect) (tree : Tree) : Prop where
  kind_eq : tree.kind = .program
  produced : (dialect.grammar false).Produces fileShape tree.children

section Files

variable {dialect : Dialect} {source : Bytes} {gone : Tree → Bool} {root tree : Tree}

/-- A file of the language without elements of its lists of statements is one. -/
theorem Conforms.pruned (conforms : Conforms dialect root) (takes : TakesStatements gone)
    (loses : losesElements gone root = true) : Conforms dialect (root.pruned gone) := by
  refine ⟨by rw [kind_pruned, conforms.kind_eq], ?_⟩
  rw [children_pruned]
  exact takes.produces conforms.produced rfl (losesElements_iff.mp loses).2 (.inl rfl)

/-! ## Where the trees of a file stand -/

/-- What a tree is to the one around it: an element of a list of statements, or a numbered part of another construct. -/
inductive Step where
  | element (list : Kind) (role : Option Role)
  | part (construct : Kind) (index : Nat) (role : Option Role)

/-- A tree stands in another one at the end of a way down past trees that are not gone. -/
inductive Stands (gone : Tree → Bool) : Tree → List Step → Tree → Prop
  | here {tree : Tree} : Stands gone tree [] tree
  | element {tree child inner : Tree} {steps : List Step} (list : isList tree.kind = true) (mem : child ∈ tree.children)
      (stays : gone child = false) (below : Stands gone child steps inner) :
      Stands gone tree (.element tree.kind child.role :: steps) inner
  | part {tree child inner : Tree} {steps : List Step} {index : Nat} (other : isList tree.kind = false)
      (at_ : tree.children[index]? = some child) (stays : gone child = false) (below : Stands gone child steps inner) :
      Stands gone tree (.part tree.kind index child.role :: steps) inner

def noneGone (_ : Tree) : Bool := false

/-- A tree that loses elements of lists only keeps all its parts. -/
theorem stay_of_isList_eq_false (loses : losesElements gone tree = true) (other : isList tree.kind = false) :
    ∀ child ∈ tree.children, gone child = false := by
  refine fun child mem => Bool.eq_false_iff.mpr fun isGone => ?_
  rw [(losesElements_iff.mp loses).1 child mem isGone] at other
  cases other

/-- What is not gone stands where it stood. -/
theorem Stands.pruned {steps : List Step} (stands : Stands gone root steps tree) (loses : losesElements gone root = true) :
    Stands noneGone (root.pruned gone) steps (tree.pruned gone) := by
  induction stands with
  | here => exact .here
  | @element outer child inner steps list mem stays below stand =>
    obtain ⟨-, losesBelow⟩ := losesElements_iff.mp loses
    have left : child.pruned gone ∈ (outer.pruned gone).children := by
      rw [children_pruned, prunedAll_eq]
      exact List.mem_map_of_mem (List.mem_filter.mpr ⟨mem, by simp [stays]⟩)
    rw [← kind_pruned gone outer, ← role_pruned gone child]
    exact .element (by rwa [kind_pruned]) left rfl (stand (losesBelow child mem stays))
  | @part outer child inner steps index other at_ stays below stand =>
    obtain ⟨-, losesBelow⟩ := losesElements_iff.mp loses
    have left : (outer.pruned gone).children[index]? = some (child.pruned gone) := by
      rw [children_pruned, prunedAll_of_stay (stay_of_isList_eq_false loses other), List.getElem?_map, at_]
      rfl
    rw [← kind_pruned gone outer, ← role_pruned gone child]
    exact .part (by rwa [kind_pruned]) left rfl (stand (losesBelow child (List.mem_of_getElem? at_) stays))

end Files

end Scaffold.Edit
