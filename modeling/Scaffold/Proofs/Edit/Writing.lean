import Scaffold.Proofs.Syntax.Objects

/-! # The setting as it is written

The edits write a pair with a word, an object around it and a pair around that. Each of them is read where its first
character is the next token, whatever is in front of it.
-/

namespace Scaffold.Syntax

open Scaffold.Text

variable {dialect : Dialect}

/-- A tree of a pair with a plain key and a value. -/
def Tree.pairOf (place : Nat) (key : List Char) (value : Tree) : Tree :=
  .node .pair none place value.stop [.node .propertyIdentifier (some .key) place (place + width key) [],
    .node (.token ":") none (place + width key) (place + width key + 1) [], value.withRole .value]

/-- A name, a colon and a value are a pair. -/
theorem derives_pair {cursor behind : Cursor} {place : Nat} {key rest : List Char} {value : Tree} (solid : key ≠ [])
    (isName : nameLength (key ++ ':' :: rest) = key.length) (trivia : cursor.trivia.2 = ⟨place, key ++ ':' :: rest⟩)
    (reads : (dialect.grammar false).Derives (Shape.expression .enclosed) ⟨place + width key + 1, rest⟩ [value] behind) :
    (dialect.grammar false).Derives Shape.pair cursor (cursor.trivia.1 ++ [Tree.pairOf place key value]) behind := by
  have length : (Terminal.name []).length (key ++ ':' :: rest) = key.length :=
    (Terminal.length_name List.not_mem_nil).trans isName
  have name : (dialect.grammar false).Derives (.call (.propertyName [])) cursor
      (cursor.trivia.1 ++ [.node .propertyIdentifier none place (place + width key) []]) ⟨place + width key, ':' :: rest⟩ :=
    .call (.first (.leaf (readLeaf_of_length solid trivia length)))
  have colon := @derives_sign dialect ":" ⟨place + width key, ':' :: rest⟩ _ _ (by decide)
    (trivia_of_inky (by rintro c ⟨⟩; decide) _)
  have derived := @Grammar.Derives.node _ (dialect.grammar false) .pair _ _ _ _
    (.seq (@Grammar.Derives.role _ _ .key _ _ _ _ name) (.seq colon (@Grammar.Derives.role _ _ .value _ _ _ _ reads)))
  rw [List.map_append, map_withRole_trivia, List.append_assoc] at derived
  rw [List.map_singleton, List.map_singleton, List.singleton_append, List.singleton_append,
    gather_eq (isComment_trivia cursor) rfl] at derived
  change (dialect.grammar false).Derives Shape.pair cursor
    (cursor.trivia.1 ++ [.node .pair none place (value.withRole .value).stop _]) behind at derived
  rw [Tree.stop_withRole] at derived
  exact derived

/-- The word is read where no name goes on behind it. -/
theorem derives_false {cursor : Cursor} {place : Nat} {rest : List Char}
    (trivia : cursor.trivia.2 = ⟨place, "false".toList ++ rest⟩) (quiet : nameTailLength 0 rest = 0) :
    (dialect.grammar false).Derives (Shape.expression .enclosed) cursor
      (cursor.trivia.1 ++ [.node .falseLiteral none place (place + 5) []]) ⟨place + 5, rest⟩ := by
  have name : nameLength ("false".toList ++ rest) = 5 := by
    change nameTailLength 0 rest + 1 + 1 + 1 + 1 + 1 = 5
    rw [quiet]
  have length : (Terminal.word "false").length ("false".toList ++ rest) = "false".toList.length := by
    have same : frontName ("false".toList ++ rest) = "false" := by
      rw [frontName, name]
      rfl
    rw [Terminal.length_word same, String.length_toList]
  have read := @readLeaf_of_length _ _ _ .falseLiteral _ _ (by decide) trivia length
  refine .call (.base (.call ?_))
  iterate 22 refine .second ?_
  exact .first (.leaf read)

/-- The object that the setting is written as, in a place. -/
def Tree.offObject (place : Nat) : Tree :=
  .node .object none place (place + 20) [Tree.brace place,
    Tree.pairOf (place + 2) "typeCheck".toList (.node .falseLiteral none (place + 13) (place + 18) []),
    .node (.token "\x7d") none (place + 19) (place + 20) []]

theorem derives_offPair {cursor : Cursor} {place : Nat} {rest : List Char}
    (trivia : cursor.trivia.2 = ⟨place, "typeCheck: false".toList ++ rest⟩) (quiet : nameTailLength 0 rest = 0) :
    (dialect.grammar false).Derives Shape.pair cursor (cursor.trivia.1 ++
      [Tree.pairOf place "typeCheck".toList (.node .falseLiteral none (place + 11) (place + 16) [])]) ⟨place + 16, rest⟩ := by
  have gap : Cursor.trivia ⟨place + 10, ' ' :: ("false".toList ++ rest)⟩ = ([], ⟨place + 11, "false".toList ++ rest⟩) :=
    trivia_of_blank (inky_append (by decide) (by rintro c ⟨⟩; decide)) _
  have value := @derives_false dialect ⟨place + 10, ' ' :: ("false".toList ++ rest)⟩ _ _ (congrArg Prod.snd gap) quiet
  rw [gap] at value
  exact derives_pair (by decide) rfl trivia value

theorem derives_offObject {cursor : Cursor} {place : Nat} {rest : List Char}
    (trivia : cursor.trivia.2 = ⟨place, "\x7b typeCheck: false \x7d".toList ++ rest⟩) :
    (dialect.grammar false).Derives (Shape.expression .enclosed) cursor (cursor.trivia.1 ++ [Tree.offObject place])
      ⟨place + 20, rest⟩ := by
  have front : Cursor.trivia ⟨place + 1, ' ' :: ("typeCheck: false".toList ++ " \x7d".toList ++ rest)⟩ =
      ([], ⟨place + 2, "typeCheck: false".toList ++ " \x7d".toList ++ rest⟩) :=
    trivia_of_blank (inky_append (by decide) (by rintro c ⟨⟩; decide)) _
  have pair_ := @derives_offPair dialect ⟨place + 1, ' ' :: ("typeCheck: false".toList ++ " \x7d".toList ++ rest)⟩ (place + 2)
    (" \x7d".toList ++ rest) (by rw [front, List.append_assoc]) rfl
  rw [front] at pair_
  have back : Cursor.trivia ⟨place + 18, ' ' :: ("\x7d".toList ++ rest)⟩ = ([], ⟨place + 19, "\x7d".toList ++ rest⟩) :=
    trivia_of_blank (inky_append (by decide) (by rintro c ⟨⟩; decide)) _
  have closing : (dialect.grammar false).Derives (Rule.sign "\x7d") ⟨place + 18, ' ' :: ("\x7d".toList ++ rest)⟩
      [.node (.token "\x7d") none (place + 19) (place + 20) []] ⟨place + 20, rest⟩ := by
    have read := @readLeaf_of_length _ rest _ (.token "\x7d") (.mark "\x7d" []) (place + 19) (by decide : "\x7d".toList ≠ [])
      (congrArg Prod.snd back) rfl
    rw [back] at read
    exact .leaf read
  exact derives_expression (derives_braces trivia (.seq (.seq (.first (.second (.first pair_))) .manyNone) closing))

/-- The setting is written as a property. -/
theorem derives_offEntry {cursor : Cursor} {place : Nat} {rest : List Char}
    (trivia : cursor.trivia.2 = ⟨place, "typescript: \x7b typeCheck: false \x7d".toList ++ rest⟩) :
    (dialect.grammar false).Derives Shape.pair cursor (cursor.trivia.1 ++
      [Tree.pairOf place "typescript".toList (Tree.offObject (place + 12))]) ⟨place + 32, rest⟩ := by
  have gap : Cursor.trivia ⟨place + 11, ' ' :: ("\x7b typeCheck: false \x7d".toList ++ rest)⟩ =
      ([], ⟨place + 12, "\x7b typeCheck: false \x7d".toList ++ rest⟩) :=
    trivia_of_blank (inky_append (by decide) (by rintro c ⟨⟩; decide)) _
  have value := @derives_offObject dialect ⟨place + 11, ' ' :: ("\x7b typeCheck: false \x7d".toList ++ rest)⟩ _ _
    (congrArg Prod.snd gap)
  rw [gap] at value
  exact derives_pair (by decide) rfl trivia value

end Scaffold.Syntax
