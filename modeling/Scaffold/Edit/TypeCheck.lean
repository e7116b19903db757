import Scaffold.Syntax.Outline
import Scaffold.Text.Edit
import Scaffold.Text.Pattern
import Scaffold.Text.Word

/-! # Switching the type check off

The configuration of a project is an object that is given to `defineNuxtConfig`. Its setting for the
type check is replaced where there is one and put in front where there is none. In a file without
such an object the setting is looked for in the text.
-/

namespace Scaffold.Edit

open Scaffold.Text Scaffold.Syntax Pattern

/-- The object that configures the project. -/
def configObject? (source : Bytes) (file : Tree) : Option Tree :=
  (calls file).findSome? fun call =>
    if calleeName? source call = some "defineNuxtConfig" then
      (firstArgument? call).filter fun argument => argument.kind = .object
    else none

/-- The first pair of an object that has a key. -/
def pair? (source : Bytes) (object : Tree) (key : String) : Option Tree :=
  object.parts.find? fun pair =>
    pair.kind = .pair && (pair.child? .key).any fun name =>
      (name.stringValue? source).getD (name.text source) = key

/-- The edit that puts an entry in front of an object. -/
def insertFirst (source : Bytes) (object : Tree) (entry : String) : Text.Edit :=
  let anchor := object.start + 1
  let text := match object.parts with
    | [] =>
      let indent := indentationAt source object.start
      encode "\n" ++ indent ++ encode ("  " ++ entry ++ "\n") ++ indent
    | first :: _ =>
      if lineOf source first.start = lineOf source object.start then encode (" " ++ entry)
      else encode "\n" ++ indentationAt source first.start ++ encode entry
  ⟨anchor, anchor, text⟩

/-- The setting in full. -/
def checkEntry : String := "typescript: \x7b typeCheck: false \x7d,"

/-- The edits that switch the type check off in an object. -/
def typeCheckEdits (source : Bytes) (config : Tree) : List Text.Edit :=
  match pair? source config "typescript" with
  | none => [insertFirst source config checkEntry]
  | some typescript =>
    match typescript.child? .value with
    | none => [⟨typescript.stop, typescript.stop, encode "\x7b typeCheck: false \x7d"⟩]
    | some value =>
      if value.kind ≠ .object then [⟨value.start, value.stop, encode "\x7b typeCheck: false \x7d"⟩]
      else match pair? source value "typeCheck" with
        | none => [insertFirst source value "typeCheck: false,"]
        | some check =>
          match check.child? .value with
          | none => []
          | some current =>
            if current.text source = "false" then [] else [⟨current.start, current.stop, encode "false"⟩]

/-- A character of a word or a quote. -/
def isValueChar (c : Char) : Bool := isWord c || c = '\'' || c = '"'

def chars (text : String) : Pattern Char := Pattern.literal text.toList

/-- The word `false`, not the beginning of a longer one. -/
def falseWord : Pattern Char := seq (chars "false") (notBefore (one isWord))

/-- The name of the setting and a colon. -/
def checkName : Pattern Char := seqs [chars "typeCheck", many isBlank, chars ":", many isBlank]

/-- The setting with a value other than `false`. -/
def checkPattern : Pattern Char := seqs [checkName, notBefore falseWord, some_ isValueChar]

/-- A match of the setting with `false` as its value. -/
def withFalse (setting : List Char) : List Char :=
  (setting.reverse.dropWhile isValueChar).reverse ++ "false".toList

/-- What opens the configuration in a file that is written in the usual way. -/
def configOpening : List Char := "export default defineNuxtConfig(\x7b".toList

/-- Puts a text behind the first place where another occurs. -/
def insertAfter (mark text : List Char) : List Char → Option (List Char)
  | [] => none
  | c :: rest =>
    if mark.isPrefixOf (c :: rest) then some (mark ++ text ++ (c :: rest).drop mark.length)
    else (insertAfter mark text rest).map (c :: ·)

/-- Switches the type check off in a text. -/
def typeCheckText (text : List Char) : List Char :=
  let entry := "\n  ".toList ++ checkEntry.toList
  if checkPattern.occurs text then checkPattern.replaceFirst withFalse text
  else if (seq checkName falseWord).occurs text then text
  else match insertAfter configOpening entry text with
    | some changed => changed
    | none =>
      let separator := if text.isEmpty || text.getLast? = some '\n' then [] else ['\n']
      text ++ separator ++ '\n' :: configOpening ++ entry ++ "\n\x7d)\n".toList

end Scaffold.Edit
