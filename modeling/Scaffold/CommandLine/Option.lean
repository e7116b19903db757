import Scaffold.Text.Quoted

/-! # Options of a command line

A command knows a list of options. A word of the command line is compared with their names, and
gives an option in full, by an unambiguous beginning of a long name, or by a cluster of short names;
a value may be attached to it.
-/

namespace Scaffold.CommandLine

open Scaffold.Text

/-- What an option is for. -/
inductive Switch where
  | help
  | version
  | template
  | features
  | all
  | none
  | directory
  | templates
  | force
  | yes
  deriving DecidableEq, Repr, Inhabited

/-- An option of a command. -/
structure CommandOption where
  switch : Switch
  names : List String
  /-- What stands for its value in a help text, when it takes one. -/
  placeholder : Option String
  help : String
  deriving DecidableEq, Repr, Inhabited

def CommandOption.takesValue (option : CommandOption) : Bool := option.placeholder.isSome

def CommandOption.title (option : CommandOption) : String := "/".intercalate option.names

/-- What is wrong with a command line. -/
inductive UsageFault where
  | ambiguous (word : String) (candidates : List String)
  | missingValue (option : CommandOption)
  | needlessValue (option : CommandOption) (value : String)
  | conflict (option other : CommandOption)
  | unknownCommand (word : String) (choices : List String)
  | unrecognized (words : List String)
  deriving DecidableEq, Repr, Inhabited

/-- Texts one after the other, with commas between them. -/
def commaList (texts : List String) : String := ", ".intercalate texts

def UsageFault.message : UsageFault → String
  | ambiguous word candidates => "ambiguous option: " ++ word ++ " could match " ++ commaList candidates
  | missingValue option => "argument " ++ option.title ++ ": expected one argument"
  | needlessValue option value =>
    "argument " ++ option.title ++ ": ignored explicit argument " ++ quoted value
  | conflict option other => "argument " ++ option.title ++ ": not allowed with argument " ++ other.title
  | unknownCommand word choices =>
    "argument command: invalid choice: " ++ quoted word ++ " (choose from " ++
      commaList (choices.map quoted) ++ ")"
  | unrecognized words => "unrecognized arguments: " ++ " ".intercalate words

/-- What is attached to the name of an option in one word. -/
inductive Attached where
  | nothing
  /-- Behind an equals sign. -/
  | assigned (text : List Char)
  /-- Directly behind a short name. -/
  | joined (text : List Char)
  deriving DecidableEq, Repr, Inhabited

/-- What a word of the command line is taken for. -/
inductive Meaning where
  | plain
  | unknown
  | given (option : CommandOption) (attached : Attached)
  deriving DecidableEq, Repr, Inhabited

/-- A word of the command line. -/
structure Word where
  text : String
  meaning : Meaning
  deriving DecidableEq, Repr, Inhabited

/-- The options by all of their names. -/
def optionNames (options : List CommandOption) : List (List Char × CommandOption) :=
  options.flatMap fun option => option.names.map fun name => (name.toList, option)

/-- The option of a name. -/
def option? (options : List CommandOption) (name : List Char) : Option CommandOption :=
  (optionNames options).lookup name

/-- A word up to its first equals sign, and what is attached behind it. -/
def splitAssignment (word : List Char) : List Char × Attached :=
  let name := word.takeWhile (· ≠ '=')
  match word.drop name.length with
  | [] => (name, .nothing)
  | _ :: value => (name, .assigned value)

/-- The options that a word may stand for when it has no name in full: those with a long name that
begins like it, or the one whose short name it begins with. -/
def candidates (options : List CommandOption) (word : List Char) :
    List (List Char × CommandOption × Attached) :=
  if ['-', '-'].isPrefixOf word then
    let (beginning, attached) := splitAssignment word
    (optionNames options).filterMap fun (name, option) =>
      if beginning.isPrefixOf name then some (name, option, attached) else none
  else
    (optionNames options).filterMap fun (name, option) =>
      if name = word.take 2 then some (name, option, .joined (word.drop 2)) else none

/-- Whether a word is a negative number, which is no option. -/
def isNegativeNumber : List Char → Bool
  | '-' :: digits =>
    let whole := digits.takeWhile Char.isDigit
    match digits.drop whole.length with
    | [] => !whole.isEmpty
    | '.' :: fraction => !fraction.isEmpty && fraction.all Char.isDigit
    | _ => false
  | _ => false

/-- What a word is taken for. -/
def meaning (options : List CommandOption) (word : String) : Except UsageFault Meaning :=
  let chars := word.toList
  match chars with
  | '-' :: _ :: _ =>
    match option? options chars with
    | some option => .ok (.given option .nothing)
    | none =>
      match splitAssignment chars with
      | (name, .assigned value) =>
        match option? options name with
        | some option => .ok (.given option (.assigned value))
        | none => guess chars
      | _ => guess chars
  | _ => .ok .plain
where
  /-- What a word is taken for that has no name of an option in full. -/
  guess (chars : List Char) : Except UsageFault Meaning :=
    match candidates options chars with
    | [(_, option, attached)] => .ok (.given option attached)
    | [] => .ok (if isNegativeNumber chars || ' ' ∈ chars then .plain else .unknown)
    | several => .error (.ambiguous (String.ofList chars) (several.map fun found => String.ofList found.1))

/-- A command line: the words in front of the first divider `--`, and the words behind it, if it is
there. -/
structure Line where
  front : List Word
  behind : Option (List String)
  deriving DecidableEq, Repr, Inhabited

/-- What the words of a command line are taken for. -/
def Line.ofWords (options : List CommandOption) : List String → Except UsageFault Line
  | [] => .ok ⟨[], none⟩
  | word :: later =>
    if word = "--" then .ok ⟨[], some later⟩
    else do
      let found ← meaning options word
      let line ← Line.ofWords options later
      return { line with front := ⟨word, found⟩ :: line.front }

/-- The options that one word gives. -/
structure Cluster where
  /-- Options that take no value. -/
  flags : List CommandOption
  /-- The last option, with its value when that is in the word too. -/
  last : Option (CommandOption × Option String)
  /-- What is left of the word when a short name is unknown. -/
  rest : Option String
  deriving DecidableEq, Repr, Inhabited

/-- The cluster of one option with what is attached by an equals sign, if anything. -/
def Cluster.single (option : CommandOption) (value : Option (List Char)) : Except UsageFault Cluster :=
  match value with
  | none => .ok ⟨[], some (option, none), none⟩
  | some value =>
    if option.takesValue then .ok ⟨[], some (option, some (String.ofList value)), none⟩
    else .error (.needlessValue option (String.ofList value))

/-- The cluster of an option with a short name and the characters behind it. -/
def Cluster.ofJoined (options : List CommandOption) (option : CommandOption) :
    List Char → Except UsageFault Cluster
  | [] => Cluster.single option none
  | c :: rest =>
    if option.takesValue then Cluster.single option (some (c :: rest))
    else if c = '-' then .error (.needlessValue option (String.ofList (c :: rest)))
    else
      match option? options ['-', c] with
      | none => .ok ⟨[option], none, some (String.ofList ('-' :: c :: rest))⟩
      | some next => do
        let found ← match rest with
          | '=' :: value => Cluster.single next (some value)
          | _ => Cluster.ofJoined options next rest
        return { found with flags := option :: found.flags }

/-- The cluster of an option and what is attached to it. -/
def Cluster.of (options : List CommandOption) (option : CommandOption) : Attached → Except UsageFault Cluster
  | .nothing => Cluster.single option none
  | .assigned value => Cluster.single option (some value)
  | .joined text => Cluster.ofJoined options option text

end Scaffold.CommandLine
