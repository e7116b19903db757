import Scaffold.Project.Failure

/-! # Sessions

A session is the disk, what has been shown on the console, and what the user will still type. An
operation either yields a result or stops with a failure; what it did before stays done.
-/

namespace Scaffold.Project

open Scaffold.Text Scaffold.Files

/-- A piece of what is shown on the console. -/
inductive Shown where
  | text (text : String)
  /-- A table of what has been done, by its title and rows. -/
  | summary (title : String) (rows : List (String × String))
  deriving DecidableEq, Repr, Inhabited

/-- The world that the operations act on. -/
structure Session where
  disk : Disk
  /-- What has been shown on the console. -/
  shown : List Shown
  /-- The lines that the user will type. -/
  typed : List String
  deriving Inhabited

/-- The text that has been shown, without the summaries. -/
def Session.text (session : Session) : String :=
  String.join (session.shown.map fun
    | .text text => text
    | .summary _ _ => "")

/-- The summaries that have been shown. -/
def Session.summaries (session : Session) : List (String × List (String × String)) :=
  session.shown.filterMap fun
    | .text _ => none
    | .summary title rows => some (title, rows)

/-- An operation in a session. -/
abbrev Operation (α : Type) := ExceptT Failure (StateM Session) α

namespace Operation

/-- What the disk answers to a question. -/
def ask {α : Type} (question : Disk → α) : Operation α := do
  return question (← get).disk

def liftTrouble {α : Type} : Except Trouble α → Operation α
  | .ok value => return value
  | .error trouble => throw (.text (.trouble trouble))

def setDisk (disk : Disk) : Operation Unit := modify fun session => { session with disk := disk }

/-- Carries out a change of the disk. -/
def change (act : Disk → Except Trouble Disk) : Operation Unit := do
  setDisk (← liftTrouble (act (← get).disk))

def readBytes (path : Path) : Operation Bytes := do
  liftTrouble ((← get).disk.read path)

def writeBytes (path : Path) (content : Bytes) : Operation Unit := change fun disk => disk.write path content

/-- Line breaks of all kinds as line feeds. -/
def unifyLines : List Char → List Char
  | [] => []
  | '\r' :: '\n' :: rest => '\n' :: unifyLines rest
  | c :: rest => (if c = '\r' then '\n' else c) :: unifyLines rest

/-- The text of a file, its lines ended by line feeds. -/
def readText (path : Path) : Operation (List Char) := do
  match decode (← readBytes path) with
  | .ok text => return unifyLines text
  | .error fault => throw (.text (.encoding fault))

def writeText (path : Path) (text : List Char) : Operation Unit := writeBytes path (encodeChars text)

/-- The JSON document in a file. -/
def readJson (path : Path) : Operation Json.Value := do
  let text ← readText path
  match Json.parse text with
  | .ok value => return value
  | .error fault => throw (.text (.json text fault))

def display (piece : Shown) : Operation Unit :=
  modify fun session => { session with shown := session.shown ++ [piece] }

/-- Shows a plain text on the console. -/
def put (text : String) : Operation Unit := display (.text text)

def liftMarkup {α : Type} : Except Console.MarkupFault α → Operation α
  | .ok value => return value
  | .error fault => throw (.markup fault)

/-- Shows a marked-up line. -/
def say (text : String) : Operation Unit := do
  put ((← liftMarkup (Console.showMarkup text)) ++ "\n")

/-- Removes what is at a path. Tells whether anything was. -/
def removePath (path : Path) : Operation Bool := do
  let (removed, disk) := (← get).disk.removePath path
  setDisk disk
  return removed

end Operation

end Scaffold.Project
