import Scaffold.CommandLine.Command

/-! # Requests

What a command line asks for. Words are read from left to right: options with their values, and the
words that a command takes apart from them. A word that nothing takes is reported once all the others
have been read.
-/

namespace Scaffold.CommandLine

/-- Which features a command line asks for. -/
inductive FeatureChoice where
  | unstated
  | all
  | none
  | listed (text : String)
  deriving DecidableEq, Repr, Inhabited

/-- What is to be created. -/
structure CreateArguments where
  name : Option String
  template : Option String
  features : FeatureChoice
  directory : Option String
  templates : Option String
  force : Bool
  /-- Whether defaults are accepted without asking. -/
  yes : Bool
  deriving DecidableEq, Repr, Inhabited

/-- What the program is asked to do. -/
inductive Request where
  | help (text : String)
  | version
  | create (arguments : CreateArguments)
  | templates
  | init (force : Bool)
  deriving DecidableEq, Repr, Inhabited

/-- A command line that asks for nothing that can be done. -/
structure UsageError where
  /-- The usage line of the command that reports it. -/
  usage : String
  program : String
  fault : UsageFault
  deriving DecidableEq, Repr, Inhabited

/-- The line that reports an error. -/
def UsageError.message (error : UsageError) : String :=
  error.program ++ ": error: " ++ error.fault.message ++ "\n"

/-- What ends the reading of a command line before its end. -/
inductive Halt where
  | fault (fault : UsageFault)
  | help
  | version
  deriving DecidableEq, Repr, Inhabited

/-- The words of a command that have been read. -/
structure Reading where
  given : List (CommandOption × Option String)
  /-- The word that it takes apart from the options. -/
  argument : Option String
  /-- Words that nothing takes. -/
  extras : List String
  deriving DecidableEq, Repr, Inhabited

def Reading.empty : Reading := ⟨[], none, []⟩

/-- Whether an option has been given. -/
def Reading.has (reading : Reading) (switch : Switch) : Bool :=
  reading.given.any fun entry => entry.1.switch = switch

/-- The value that an option has been given last. -/
def Reading.value? (reading : Reading) (switch : Switch) : Option String :=
  (reading.given.reverse.find? fun entry => entry.1.switch = switch).bind (·.2)

/-- An option that has been given and does not go with another one. -/
def Reading.conflict? (reading : Reading) (command : Command) (option : CommandOption) : Option CommandOption :=
  if option.switch ∈ command.exclusive then
    let others := command.exclusive.filter (· ≠ option.switch)
    (others.filterMap fun switch => (reading.given.map (·.1)).find? (·.switch = switch)).head?
  else none

/-- Takes note of an option. -/
def Reading.give (reading : Reading) (command : Command) (option : CommandOption) (value : Option String) :
    Except Halt Reading :=
  match option.switch with
  | .help => .error .help
  | .version => .error .version
  | _ =>
    match reading.conflict? command option with
    | some other => .error (.fault (.conflict option other))
    | none => .ok { reading with given := reading.given ++ [(option, value)] }

/-- Takes note of options without values. -/
def Reading.giveAll (reading : Reading) (command : Command) (options : List CommandOption) :
    Except Halt Reading :=
  options.foldlM (fun reading option => reading.give command option none) reading

/-- Whether a command still takes a word apart from the options. -/
def Reading.isFree (reading : Reading) (command : Command) : Bool :=
  command.argument.isSome && reading.argument.isNone

/-- The words behind a divider: the first is taken where one still is, and the others are extras. -/
def Reading.behind (reading : Reading) (command : Command) : Option (List String) → Reading
  | none => reading
  | some words =>
    if reading.isFree command then
      { reading with argument := words.head?, extras := reading.extras ++ words.tail }
    else { reading with extras := reading.extras ++ "--" :: words }

def liftFault {α : Type} : Except UsageFault α → Except Halt α
  | .ok value => .ok value
  | .error fault => .error (.fault fault)

/-- Reads the words of a command. A divider right behind the word that the command takes apart from the
options goes with it. -/
def Reading.words (command : Command) (behind : Option (List String)) (reading : Reading) :
    List Word → Except Halt Reading
  | [] => .ok (reading.behind command behind)
  | word :: later =>
    match word.meaning with
    | .unknown =>
      Reading.words command behind { reading with extras := reading.extras ++ [word.text] } later
    | .plain =>
      if reading.isFree command then
        let reading := { reading with argument := some word.text }
        if later.isEmpty then .ok { reading with extras := reading.extras ++ behind.getD [] }
        else Reading.words command behind reading later
      else Reading.words command behind { reading with extras := reading.extras ++ [word.text] } later
    | .given option attached => do
      let cluster ← liftFault (Cluster.of command.options option attached)
      match cluster.last with
      | none =>
        let reading ← reading.giveAll command cluster.flags
        Reading.words command behind { reading with extras := reading.extras ++ cluster.rest.toList } later
      | some (last, some value) =>
        let reading ← reading.giveAll command cluster.flags
        let reading ← reading.give command last (some value)
        Reading.words command behind reading later
      | some (last, none) =>
        if last.takesValue then
          match later with
          | ⟨value, .plain⟩ :: later =>
            let reading ← reading.giveAll command cluster.flags
            let reading ← reading.give command last (some value)
            Reading.words command behind reading later
          | _ => .error (.fault (.missingValue last))
        else
          let reading ← reading.giveAll command (cluster.flags ++ [last])
          Reading.words command behind reading later

/-- Reads the command line of a command. -/
def Reading.ofWords (command : Command) (words : List String) : Except Halt Reading := do
  let line ← liftFault (Line.ofWords command.options words)
  Reading.words command line.behind .empty line.front

/-- What `create` is asked to do. -/
def createArguments (reading : Reading) : CreateArguments where
  name := reading.argument
  template := reading.value? .template
  features :=
    if reading.has .all then .all
    else if reading.has .none then .none
    else ((reading.value? .features).map FeatureChoice.listed).getD .unstated
  directory := reading.value? .directory
  templates := reading.value? .templates
  force := reading.has .force
  yes := reading.has .yes

/-- What a command is asked to do. -/
def requestOf (name : String) (reading : Reading) : Request :=
  if name = "create" then .create (createArguments reading)
  else if name = "templates" then .templates
  else .init (reading.has .force)

/-- Reads the words of a command of a name. `extras` are words that nothing took before. -/
def readCommand (extras : List String) (name : String) (words : List String) : Except UsageError Request :=
  match commands.lookup name with
  | none => .error ⟨programUsage, programName, .unknownCommand name commandNames⟩
  | some command =>
    match Reading.ofWords command words with
    | .error (.fault fault) => .error ⟨command.usage, command.program, fault⟩
    | .error .help => .ok (.help command.helpText)
    | .error .version => .ok .version
    | .ok reading =>
      match extras ++ reading.extras with
      | [] => .ok (requestOf name reading)
      | words => .error ⟨programUsage, programName, .unrecognized words⟩

/-- Reads the words in front of the name of a command, and then the command. A divider is no name. -/
def readProgram (behind : Option (List String)) (extras : List String) : List Word → Except UsageError Request
  | [] =>
    match behind with
    | some (_ :: _) => readCommand extras "--" []
    | _ =>
      match extras ++ (behind.map fun _ => "--").toList with
      | [] => readCommand [] "create" []
      | words => .error ⟨programUsage, programName, .unrecognized words⟩
  | word :: later =>
    match word.meaning with
    | .unknown => readProgram behind (extras ++ [word.text]) later
    | .plain =>
      readCommand extras word.text (later.map Word.text ++ ((behind.map fun words => "--" :: words).getD []))
    | .given option attached =>
      match Cluster.of programOptions option attached with
      | .error fault => .error ⟨programUsage, programName, fault⟩
      | .ok cluster =>
        let given := cluster.flags ++ (cluster.last.map (·.1)).toList
        if (given.head?.map CommandOption.switch) = some .version then .ok .version else .ok (.help programHelp)

/-- What a command line asks for. Without any words it is a project. -/
def readRequest (words : List String) : Except UsageError Request :=
  match Line.ofWords programOptions words with
  | .error fault => .error ⟨programUsage, programName, fault⟩
  | .ok line => readProgram line.behind [] line.front

end Scaffold.CommandLine
