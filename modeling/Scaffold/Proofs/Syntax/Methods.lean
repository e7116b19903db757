import Scaffold.Proofs.Edit.Edges

/-! # The bodies of methods

The body of a method is a block: statements between two braces, each of which is a token of one byte.
-/

namespace Scaffold.Syntax

open Scaffold.Text

/-- A brace that stands as a token. -/
structure Tree.IsBrace (text : List Char) (mark : String) (tree : Tree) : Prop where
  kind_eq : tree.kind = .token mark
  childless : tree.children = []
  stop_eq : tree.stop = tree.start + 1
  begins : BeginsToken text tree.start

/-- Statements between braces. -/
structure Tree.IsBlock (text : List Char) (tree : Tree) : Prop where
  kind_eq : tree.kind = .statementBlock
  braces : ∃ opening inner closing after, tree.children = opening :: (inner ++ closing :: after) ∧
    opening.start = tree.start ∧ opening.IsBrace text "\x7b" ∧ closing.IsBrace text "\x7d" ∧
      ∀ comment ∈ after, comment.isComment = true

/-- The body of a method is a block. -/
def Tree.HasBlock (text : List Char) (tree : Tree) : Prop :=
  tree.kind = .methodDefinition → ∀ body ∈ tree.children, body.role = some .body → body.IsBlock text

variable {dialect : Dialect} {text : List Char} {at_ next : Cursor} {trees : List Tree}

/-- A brace is read behind comments. -/
theorem exists_brace {mark : String} (inside : at_.In text) (one : width mark.toList = 1)
    (spares : (Terminal.mark mark []).sparesSemicolon = true)
    (derived : (dialect.grammar false).Derives (Rule.sign mark) at_ trees next) :
    ∃ comments brace, trees = comments ++ [brace] ∧ (∀ comment ∈ comments, comment.isComment = true) ∧
      brace.IsBrace text mark := by
  cases derived with
  | leaf found =>
    have fronted := fronted_leaf inside found spares
    obtain ⟨comments, start, rest, comment, -, some_, rfl⟩ := readLeaf_spec inside found
    refine ⟨comments, _, rfl, comment, rfl, rfl, ?_, fronted comments _ [] rfl comment rfl⟩
    rw [Terminal.take_length_mark some_, one]
    rfl

theorem isBlock_of_derives : (dialect.grammar false).Bodied text (Tree.IsBlock text) (.role .body Shape.block) := by
  intro at_ trees next inside derived tree mem isBody
  cases derived with
  | role derived =>
    obtain ⟨original, member, rfl⟩ := List.mem_map.mp mem
    obtain ⟨own, eq, taken⟩ := original.withRole_eq_recast .body
    rw [eq] at isBody ⊢
    cases derived with
    | call derived =>
      cases derived with
      | node derived =>
        rcases exists_of_mem_gather member with ⟨member, comment⟩ | ⟨first, others, same, rfl⟩
        · -- a comment takes no role
          rcases taken with rfl | ⟨-, notComment⟩
          · have none_ := derived.role_of_isComment original member comment
            rw [show (original.recast original.role).role = original.role from rfl, none_] at isBody
            cases isBody
          · rw [comment] at notComment
            cases notComment
        · cases derived with
          | seq opening rest =>
            have afterOpening := (opening.span inside).2
            cases rest with
            | @seq _ _ _ _ _ inner _ items rest =>
              have afterItems := (items.span afterOpening).2
              cases rest with
              | @seq _ _ _ _ _ _ after closing ending =>
                obtain ⟨comments, open_, rfl, comment, isOpening⟩ := exists_brace inside rfl rfl opening
                obtain ⟨others_, close_, rfl, -, isClosing⟩ := exists_brace afterItems rfl rfl closing
                have notComment : open_.isComment = false := by
                  rw [Tree.isComment, isOpening.kind_eq]
                  rfl
                rw [List.append_assoc, List.dropWhile_append_of_pos comment, List.singleton_append,
                  List.dropWhile_cons_of_neg (by simp [notComment])] at same
                obtain ⟨rfl, rfl⟩ := List.cons.inj same
                refine ⟨rfl, ⟨open_, inner ++ others_, close_, after, ?_, rfl, isOpening, isClosing, ?_⟩⟩
                · simp [Tree.recast, Tree.children]
                · cases ending with
                  | first ending =>
                    cases ending with
                    | ending found =>
                      intro comment mem
                      obtain ⟨start, stop, rfl⟩ := readEnding_comments _ _ _ _ found comment mem
                      rfl
                  | second nothing =>
                    cases nothing
                    intro comment mem
                    cases mem

theorem hasBlock_of_derives {shape : Shape} (derived : (dialect.grammar false).Derives shape at_ trees next)
    (inside : at_.In text) (all : shape.All (dialect.Forms false) Dialect.TailKind) :
    ∀ tree ∈ trees, tree.Everywhere (Tree.HasBlock text) := by
  refine derived.everywhere (Shape.all_rule Dialect.admits dialect) ?_ ?_ ?_ ?_ inside all
  · intro kind start stop _ body mem
    cases mem
  · intro tree role block
    exact block
  · intro kind body at_ trees next first others form inside derived eq same child mem isBody
    rw [Tree.children, ← eq] at mem
    exact form.bodied same text _ isBlock_of_derives at_ trees next inside derived child
      ((List.dropWhile_sublist _).subset mem) isBody
  · intro kind start stop children form same
    exact absurd same form.notMethod

/-- The body of every method in a file is a block. -/
theorem hasBlock_of_parse {root method : Tree} (parsed : dialect.parse (encodeChars text) = .ok root)
    (mem : method ∈ root.preorder) : method.HasBlock text := by
  obtain ⟨trees, comments, next, rfl, derived, comment⟩ := Dialect.exists_derivation_of_parse parsed
  have all : Shape.file.All (dialect.Forms false) Dialect.TailKind := by
    simp [Shape.file, Shape.statement, Rule.opt]
  rcases Tree.mem_preorder_iff.mp mem with rfl | ⟨child, member, mem⟩
  · intro same
    cases same
  · rcases List.mem_append.mp member with member | member
    · exact hasBlock_of_derives derived ⟨[], rfl, rfl⟩ all child member method mem
    · obtain ⟨-, childless⟩ := comment child member
      rcases Tree.mem_preorder_iff.mp mem with rfl | ⟨inner, found, -⟩
      · intro _ body mem
        rw [childless] at mem
        cases mem
      · rw [childless] at found
        cases found

end Scaffold.Syntax
