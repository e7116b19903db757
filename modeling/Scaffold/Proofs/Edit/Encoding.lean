import Scaffold.Proofs.Edit.Calls
import Scaffold.Proofs.Edit.Configs
import Scaffold.Proofs.Edit.Entries
import Scaffold.Proofs.Edit.Squeezing
import Scaffold.Proofs.Erasure.Encoding

/-! # Edits between characters

All edits of a file take and put texts, so what they leave is a text that can be decoded. It is enough that no tree of the
file cuts a character, and, for what goes behind a brace, that objects and the bodies of methods begin with one.
-/

namespace Scaffold.Edit

open Scaffold.Text Scaffold.Syntax Scaffold.Erasure

variable {source : Bytes} {text : List Char} {root tree object : Tree} {edit : Text.Edit} {moduleName entry name : String}

/-! ## Removals -/

theorem keepsCharacters_removeLines (own : tree.IsBetween text) :
    KeepsCharacters text (removeLines (encodeChars text) tree.start tree.stop) :=
  keepsCharacters_removal (atBoundaries_lineRange own.1 own.2)

theorem keepsCharacters_of_mem_importEdits (kept : root.KeepsCharacters text)
    (mem : edit ∈ importEdits (encodeChars text) moduleName root) : KeepsCharacters text edit := by
  obtain ⟨statement, member, rfl⟩ := List.mem_map.mp mem
  exact keepsCharacters_removeLines (kept.of_mem_children root.mem_preorder_self (List.mem_filter.mp member).1)

theorem keepsCharacters_of_mem_callEdits {target : CallTarget} (kept : root.KeepsCharacters text)
    (mem : edit ∈ callEdits (encodeChars text) target root) : KeepsCharacters text edit := by
  obtain ⟨range, member, rfl⟩ := List.mem_map.mp mem
  obtain ⟨statement, inside, -, -, rfl⟩ := mem_callRanges_iff.mp (mem_of_mem_outermost member)
  exact keepsCharacters_removeLines (kept statement inside)

theorem keepsCharacters_of_mem_entryEdits {target : EntryTarget} (kept : root.KeepsCharacters text)
    (mem : edit ∈ entryEdits (encodeChars text) target root) : KeepsCharacters text edit := by
  obtain ⟨array, element, is, -, rfl⟩ := mem_entryEdits_iff.mp mem
  have own := kept.of_mem_children is.inside (List.mem_filter.mp is.member).1
  exact keepsCharacters_removal (atBoundaries_elementRange own fun _ mem => kept.of_mem_children is.inside mem)

theorem isEncoded_removeEntries {target : EntryTarget} (kept : root.KeepsCharacters text) :
    IsEncoded (removeEntries (encodeChars text) target root) := by
  unfold removeEntries
  dsimp only
  split
  · exact ⟨text, rfl⟩
  · exact isEncoded_squeezeLines (isEncoded_applyEdits fun _ => keepsCharacters_of_mem_entryEdits kept)

/-! ## Settings -/

theorem mem_preorder_of_pair? {pair : Tree} (inside : object ∈ root.preorder) (found : pair? source object name = some pair) :
    pair ∈ root.preorder :=
  Tree.mem_preorder_of_mem_children inside (List.mem_filter.mp (List.mem_of_find?_eq_some found)).1

/-- An entry is put behind the brace of an object. -/
theorem keepsCharacters_insertFirst (kept : root.KeepsCharacters text) (inside : object ∈ root.preorder)
    (opens : object.Opens) (entry : String) : KeepsCharacters text (insertFirst (encodeChars text) object entry) := by
  have brace := opens.isBoundary kept inside
  refine ⟨⟨brace, brace⟩, ?_⟩
  have spaced (offset : Nat) := (isIndent_indentationAt (encodeChars text) offset).isEncoded
  unfold insertFirst
  dsimp only
  split
  · exact (((isEncoded_encode _).append (spaced _)).append (isEncoded_encode _)).append (spaced _)
  · split
    · exact isEncoded_encode _
    · exact ((isEncoded_encode _).append (spaced _)).append (isEncoded_encode _)

theorem keepsCharacters_of_mem_typeCheckEdits {config : Tree} (kept : root.KeepsCharacters text) (braced : root.IsBraced)
    (inside : config ∈ root.preorder) (isObject : config.kind = .object)
    (mem : edit ∈ typeCheckEdits (encodeChars text) config) : KeepsCharacters text edit := by
  unfold typeCheckEdits at mem
  split at mem
  · obtain rfl := List.mem_singleton.mp mem
    exact keepsCharacters_insertFirst kept inside (braced.object config inside isObject) _
  · next typescript found =>
    have within := mem_preorder_of_pair? inside found
    split at mem
    · obtain rfl := List.mem_singleton.mp mem
      have own := kept typescript within
      exact ⟨⟨own.2, own.2⟩, isEncoded_encode _⟩
    · next value taken =>
      have valueInside := Tree.mem_preorder_of_mem_children within (List.mem_of_find?_eq_some taken)
      split at mem
      · obtain rfl := List.mem_singleton.mp mem
        exact ⟨kept value valueInside, isEncoded_encode _⟩
      · next valueObject =>
        split at mem
        · obtain rfl := List.mem_singleton.mp mem
          exact keepsCharacters_insertFirst kept valueInside (braced.object value valueInside (not_not.mp valueObject)) _
        · next check checkFound =>
          have checkInside := mem_preorder_of_pair? valueInside checkFound
          split at mem
          · cases mem
          · next current currentFound =>
            split at mem
            · cases mem
            · obtain rfl := List.mem_singleton.mp mem
              exact ⟨kept.of_mem_children checkInside (List.mem_of_find?_eq_some currentFound), isEncoded_encode _⟩

/-! ## Files -/

/-- No range that is found in a file, and no edit of it, cuts a character. -/
structure Spares (source : Bytes) (text : List Char) (root : Tree) : Prop where
  lines (start stop : Nat) : IsBoundary text start → IsBoundary text stop → AtBoundaries text (lineRange source start stop)
  element : ∀ parent ∈ root.preorder, ∀ tree ∈ parent.children, AtBoundaries text (elementRange source parent.children tree)
  token : ∀ tree ∈ root.preorder, ∀ edit ∈ (eraseToken source tree).edits, KeepsCharacters text edit
  statement : ∀ tree ∈ root.preorder, ∀ edit ∈ (eraseStatement source tree).edits, KeepsCharacters text edit
  imports (moduleName : String) : ∀ edit ∈ importEdits source moduleName root, KeepsCharacters text edit
  calls (target : CallTarget) : ∀ edit ∈ callEdits source target root, KeepsCharacters text edit
  entries (target : EntryTarget) : ∀ edit ∈ entryEdits source target root, KeepsCharacters text edit
  erasure : root.IsBraced → ∀ edit ∈ erasureEdits source root, KeepsCharacters text edit
  typeCheck : root.IsBraced → ∀ config, configObject? source root = some config →
    ∀ edit ∈ typeCheckEdits source config, KeepsCharacters text edit

/-- Bytes that are accepted as UTF-8. -/
def IsDecodable (bytes : Bytes) : Prop := ∃ text, decode bytes = .ok text

theorem isDecodable_of_isEncoded (encoded : IsEncoded source) : IsDecodable source := by
  obtain ⟨text, rfl⟩ := encoded
  exact ⟨text, decode_encodeChars text⟩

/-- What the edits leave of a file is UTF-8. -/
structure LeavesText (source : Bytes) (root : Tree) : Prop where
  imports (moduleName : String) : IsDecodable (removeImport source moduleName root)
  calls (target : CallTarget) : IsDecodable (removeCall source target root)
  entries (target : EntryTarget) : IsDecodable (removeEntries source target root)
  erasure : root.IsBraced → IsDecodable (eraseTree source root)
  typeCheck : root.IsBraced → IsDecodable (match configObject? source root with
    | some config => applyEdits source (typeCheckEdits source config)
    | none => encodeChars (typeCheckText (decodeLossy 0 source)))

theorem spares_of_keepsCharacters (kept : root.KeepsCharacters text) : Spares (encodeChars text) text root where
  lines _ _ := atBoundaries_lineRange
  element _ inside _ mem := atBoundaries_elementRange (kept.of_mem_children inside mem) fun _ mem => kept.of_mem_children inside mem
  token tree inside _ mem :=
    List.mem_singleton.mp mem ▸ keepsCharacters_removal ⟨(kept tree inside).1, isBoundary_skipSpaces (kept tree inside).2⟩
  statement tree inside _ mem := List.mem_singleton.mp mem ▸ keepsCharacters_statementRemoval (kept tree inside)
  imports _ _ := keepsCharacters_of_mem_importEdits kept
  calls _ _ := keepsCharacters_of_mem_callEdits kept
  entries _ _ := keepsCharacters_of_mem_entryEdits kept
  erasure braced _ := keepsCharacters_of_mem_erasureEdits kept braced
  typeCheck braced _ found _ :=
    have ⟨inside, isObject⟩ := mem_of_configObject? found
    keepsCharacters_of_mem_typeCheckEdits kept braced inside isObject

theorem leavesText_of_keepsCharacters (kept : root.KeepsCharacters text) : LeavesText (encodeChars text) root where
  imports _ := isDecodable_of_isEncoded (isEncoded_applyEdits fun _ => keepsCharacters_of_mem_importEdits kept)
  calls _ := isDecodable_of_isEncoded (isEncoded_applyEdits fun _ => keepsCharacters_of_mem_callEdits kept)
  entries _ := isDecodable_of_isEncoded (isEncoded_removeEntries kept)
  erasure braced := isDecodable_of_isEncoded (isEncoded_eraseTree kept braced)
  typeCheck braced := by
    split
    · next config found =>
      exact isDecodable_of_isEncoded (isEncoded_applyEdits ((spares_of_keepsCharacters kept).typeCheck braced config found))
    · exact ⟨_, decode_encodeChars _⟩

/-- No edit cuts a character: where the trees of a file begin and end between characters, so do all ranges that are made of
them, and what the edits leave can be decoded. The tree that is read of a file is of this kind, so its erasure can be decoded. -/
theorem edits_keep_characters (decoded : decode source = .ok text) :
    (∀ root : Tree, root.KeepsCharacters text → Spares source text root ∧ LeavesText source root) ∧
    (∀ (dialect : Dialect) (root : Tree), dialect.parse source = .ok root → root.KeepsCharacters text ∧ root.IsBraced) ∧
    ∀ (dialect : Dialect) (output : Bytes), erase dialect source = .ok output → IsDecodable output := by
  obtain rfl := encodeChars_of_decode decoded
  refine ⟨fun root kept => ⟨spares_of_keepsCharacters kept, leavesText_of_keepsCharacters kept⟩,
    fun dialect root parsed => ⟨.of_parse parsed, .of_parse parsed⟩, fun dialect output erased => ?_⟩
  unfold erase at erased
  split at erased
  · next root parsed =>
    cases erased
    exact isDecodable_of_isEncoded (isEncoded_eraseTree (.of_parse parsed) (.of_parse parsed))
  · cases erased

/-- The tree of `é as ü;`, in which each name takes two bytes. -/
def accentedAssertion : Tree :=
  .node .program none 0 10 [.node .expressionStatement none 0 9 [.node .asExpression none 0 8
    [.node .identifier none 0 2 [], .node (.token "as") none 3 5 [], .node .typeIdentifier none 6 8 []],
    .node (.token ";") none 8 9 []]]

set_option maxRecDepth 8000 in
theorem edits_keep_accented_characters :
    Dialect.plain.parse (encodeChars "é as ü;\n".toList) = .ok accentedAssertion ∧
      accentedAssertion.KeepsCharacters "é as ü;\n".toList ∧
      Spares (encodeChars "é as ü;\n".toList) "é as ü;\n".toList accentedAssertion ∧
      IsDecodable (eraseTree (encodeChars "é as ü;\n".toList) accentedAssertion) := by
  obtain ⟨spared, ofParse, -⟩ := edits_keep_characters (decode_encodeChars "é as ü;\n".toList)
  have parsed : Dialect.plain.parse (encodeChars "é as ü;\n".toList) = .ok accentedAssertion := by decide +kernel
  obtain ⟨kept, braced⟩ := ofParse .plain accentedAssertion parsed
  obtain ⟨spares, leaves⟩ := spared accentedAssertion kept
  exact ⟨parsed, kept, spares, leaves.erasure braced⟩

end Scaffold.Edit
