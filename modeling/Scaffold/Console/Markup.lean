/-! # Marked-up text

A line for the console may hold tags in brackets that style what they enclose. The console has no
styles here, so the tags vanish; a closing tag that closes nothing is a fault. A backslash in front
of a tag makes it plain text.
-/

namespace Scaffold.Console

/-- A closing tag without an open one. -/
inductive MarkupFault where
  | unmatched (tag : String) (position : Nat)
  | nothingToClose (position : Nat)
  deriving DecidableEq, Repr, Inhabited

def MarkupFault.message : MarkupFault → String
  | unmatched tag position => s!"closing tag '[{tag}]' at position {position} doesn't match any open tag"
  | nothingToClose position => s!"closing tag '[/]' at position {position} has nothing to close"

/-- A stretch of a marked-up text. -/
inductive Piece where
  | plain (text : List Char)
  | tag (position : Nat) (text : List Char)
  deriving DecidableEq, Repr, Inhabited

/-- A character that may begin a tag. -/
def beginsTag (c : Char) : Bool := ('a' ≤ c && c ≤ 'z') || c = '#' || c = '/' || c = '@'

/-- What stands between the brackets of the tag at the front of a text. -/
def tagAt? : List Char → Option (List Char)
  | '[' :: c :: rest =>
    if beginsTag c then
      let inner := rest.takeWhile fun d => d ≠ '[' && d ≠ ']'
      if (rest.drop inner.length).head? = some ']' then some (c :: inner) else none
    else none
  | _ => none

/-- The pieces of a text, from `position` on. `plain` holds the plain characters read last, in reverse,
and `skip` characters still belong to a tag. -/
def pieces (position : Nat) (plain : List Char) : Nat → List Char → List Piece
  | _, [] => [.plain plain.reverse]
  | skip + 1, _ :: rest => pieces (position + 1) plain skip rest
  | 0, c :: rest =>
    let backslashes := ((c :: rest).takeWhile (· = '\\')).length
    match tagAt? ((c :: rest).drop backslashes) with
    | none => pieces (position + 1) (c :: plain) 0 rest
    | some inner =>
      let kept := List.replicate (backslashes / 2) '\\'
      let skip := backslashes + inner.length + 1
      if backslashes % 2 = 1 then
        .plain plain.reverse :: .plain kept :: .plain ('[' :: inner ++ [']']) ::
          pieces (position + 1) [] skip rest
      else
        .plain plain.reverse :: .plain kept :: .tag (position + 2 * (backslashes / 2)) inner ::
          pieces (position + 1) [] skip rest

/-- A text with its tags made plain: backslashes in front of a tag are doubled, and one is added.
`held` are the backslashes read last. -/
def escapeFrom (held : Nat) : List Char → List Char
  | [] => if held = 1 then ['\\', '\\'] else List.replicate held '\\'
  | c :: rest =>
    if c = '\\' then escapeFrom (held + 1) rest
    else
      let count := if (tagAt? (c :: rest)).isSome then 2 * held + 1 else held
      List.replicate count '\\' ++ c :: escapeFrom 0 rest

/-- The marked-up text that shows a text as it is. -/
def escapeMarkup (text : String) : String := String.ofList (escapeFrom 0 text.toList)

/-- The short names of styles. -/
def styleNames : List (String × String) :=
  [("b", "bold"), ("d", "dim"), ("i", "italic"), ("u", "underline"), ("uu", "underline2"),
    ("r", "reverse"), ("s", "strike"), ("c", "conceal"), ("o", "overline")]

/-- The name of a tag without its parameters, in the form in which it is compared. -/
def styleName (tag : List Char) : String :=
  let blank (c : Char) := c.isWhitespace
  let trimmed := ((tag.takeWhile (· ≠ '=')).dropWhile blank).reverse.dropWhile blank
  let name := String.ofList (trimmed.reverse.map Char.toLower)
  (styleNames.lookup name).getD name

/-- A plain character in front of a bracket may have a backslash that is not shown. Control characters
that move the cursor are not shown either. -/
def shown : List Char → List Char
  | [] => []
  | '\\' :: '[' :: rest => '[' :: shown rest
  | c :: rest => if c.toNat ∈ [7, 8, 11, 12, 13] then shown rest else c :: shown rest

/-- The text that the pieces show; `opened` are the names of the open tags, the last one first. -/
def showPieces (opened : List String) : List Piece → Except MarkupFault (List Char)
  | [] => .ok []
  | .plain text :: later =>
    match showPieces opened later with
    | .ok rest => .ok (shown text ++ rest)
    | .error fault => .error fault
  | .tag position text :: later =>
    match text with
    | '/' :: name =>
      let style := styleName name
      if style = "" then
        match opened with
        | [] => .error (.nothingToClose position)
        | _ :: others => showPieces others later
      else if style ∈ opened then showPieces (opened.erase style) later
      else .error (.unmatched (String.ofList text) position)
    | _ => showPieces (styleName text :: opened) later

/-- The text that a marked-up text shows. -/
def showMarkup (text : String) : Except MarkupFault String :=
  match showPieces [] (pieces 0 [] 0 text.toList) with
  | .ok shown => .ok (String.ofList shown)
  | .error fault => .error fault

end Scaffold.Console
