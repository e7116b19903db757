import Scaffold.CommandLine.Option

/-! # Commands

The commands of the program, their options, and their help texts. A help text has a usage line and
tables of words with their explanations in a column of their own.
-/

namespace Scaffold.CommandLine

/-- A command, as the command line sees it. -/
structure Command where
  /-- What it is called in a usage line. -/
  program : String
  /-- What it does, in the help text of the whole program. -/
  summary : String
  options : List CommandOption
  /-- Options of which only one may be given. -/
  exclusive : List Switch
  /-- A word that it takes apart from the options, and its explanation. -/
  argument : Option (String × String)
  deriving DecidableEq, Repr, Inhabited

def programName : String := "hs-cli"
def versionText : String := programName ++ " 0.1.0\n"

def helpOption : CommandOption := ⟨.help, ["-h", "--help"], none, "show this help message and exit"⟩

/-- The options of the program itself. -/
def programOptions : List CommandOption :=
  [helpOption, ⟨.version, ["--version"], none, "show program's version number and exit"⟩]

def createCommand : Command where
  program := programName ++ " create"
  summary := "Create a new project"
  options := [
    helpOption,
    ⟨.template, ["--template", "-t"], some "TEMPLATE", "Template family (vue3, nuxt3)"⟩,
    ⟨.features, ["--features", "-f"], some "FEATURES",
      "Comma-separated features to enable; all others are removed"⟩,
    ⟨.all, ["--all"], none, "Enable every feature"⟩,
    ⟨.none, ["--none"], none, "Disable every feature"⟩,
    ⟨.directory, ["--directory", "-d"], some "DIRECTORY",
      "Parent directory for the project (default: configured output_dir)"⟩,
    ⟨.templates, ["--templates-dir"], some "TEMPLATES_DIR", "Use templates from this directory"⟩,
    ⟨.force, ["--force"], none, "Overwrite a non-empty target directory"⟩,
    ⟨.yes, ["--yes", "-y"], none, "Accept defaults, never prompt"⟩]
  exclusive := [.features, .all, .none]
  argument := some ("project_name", "Project directory name")

def templatesCommand : Command where
  program := programName ++ " templates"
  summary := "List available templates and their features"
  options := [helpOption]
  exclusive := []
  argument := none

def initCommand : Command where
  program := programName ++ " init"
  summary := "Write hs-cli.config.json in the current directory"
  options := [helpOption, ⟨.force, ["--force"], none, "Overwrite an existing config file"⟩]
  exclusive := []
  argument := none

/-- The commands by name. -/
def commands : List (String × Command) :=
  [("create", createCommand), ("templates", templatesCommand), ("init", initCommand)]

def commandNames : List String := commands.map (·.1)

/-! ## Help texts -/

/-- A name of an option, with what stands for its value. -/
def CommandOption.form (option : CommandOption) (name : String) : String :=
  match option.placeholder with
  | some placeholder => name ++ " " ++ placeholder
  | none => name

/-- An option in a usage line. -/
def CommandOption.usage (option : CommandOption) : String := option.form (option.names.headD "")

/-- An option in a table. -/
def CommandOption.heading (option : CommandOption) : String := ", ".intercalate (option.names.map option.form)

/-- The options in a usage line, each in brackets; those of which only one may be given share a pair. -/
def usageOptions (exclusive : List Switch) : List CommandOption → List String
  | [] => []
  | option :: later =>
    let closes := match later with
      | next :: _ => !(option.switch ∈ exclusive && next.switch ∈ exclusive)
      | [] => true
    match closes, usageOptions exclusive later with
    | false, next :: rest => (option.usage ++ " | " ++ next) :: rest
    | _, rest => option.usage :: rest

/-- A usage line. -/
def usageLine (program : String) (options : List CommandOption) (exclusive : List Switch)
    (argument : List String) : String :=
  "usage: " ++ " ".intercalate
    (program :: (usageOptions exclusive options).map (fun text => "[" ++ text ++ "]") ++ argument) ++ "\n"

def Command.usage (command : Command) : String :=
  usageLine command.program command.options command.exclusive
    ((command.argument.map fun argument => "[" ++ argument.1 ++ "]").toList)

/-- A row of a help table: its indentation, what it explains, and the explanation. -/
structure HelpRow where
  indent : Nat
  heading : String
  text : String
  deriving DecidableEq, Repr, Inhabited

def blankText (count : Nat) : String := String.ofList (List.replicate count ' ')

/-- A row whose explanation begins at a column; a heading that reaches it has a line of its own. -/
def HelpRow.render (column : Nat) (row : HelpRow) : String :=
  let start := blankText row.indent ++ row.heading
  if row.text.isEmpty then start ++ "\n"
  else if start.length + 2 ≤ column then start ++ blankText (column - start.length) ++ row.text ++ "\n"
  else start ++ "\n" ++ blankText column ++ row.text ++ "\n"

/-- The column at which the explanations of the rows begin. -/
def helpColumn (rows : List HelpRow) : Nat :=
  min 24 (rows.foldl (fun column row => max column (row.heading.length + 4)) 0)

/-- A table under a title, or nothing when it has no rows. -/
def helpSection (column : Nat) (title : String) (rows : List HelpRow) : List String :=
  if rows.isEmpty then []
  else [title ++ ":\n" ++ String.join (rows.map (HelpRow.render column))]

def optionRows (options : List CommandOption) : List HelpRow :=
  options.map fun option => ⟨2, option.heading, option.help⟩

/-- A help text of a usage line, an introduction, two tables and an ending. -/
def helpText (usage : String) (introduction : List String) (arguments options : List HelpRow)
    (ending : List String) : String :=
  let column := helpColumn (arguments ++ options)
  "\n".intercalate ([usage] ++ introduction ++ helpSection column "positional arguments" arguments ++
    helpSection column "options" options ++ ending)

def Command.helpText (command : Command) : String :=
  CommandLine.helpText command.usage []
    ((command.argument.map fun argument => HelpRow.mk 2 argument.1 argument.2).toList)
    (optionRows command.options) []

/-- The names of the commands as a choice. -/
def commandChoice : String := "\x7b" ++ ",".intercalate commandNames ++ "\x7d"

def programUsage : String := usageLine programName programOptions [] [commandChoice ++ " ..."]

/-- The help text of the whole program. -/
def programHelp : String :=
  helpText programUsage ["Scaffold Vue 3 and Nuxt 3 projects with selectable features\n"]
    (⟨2, commandChoice, ""⟩ :: commands.map fun (name, command) => ⟨4, name, command.summary⟩)
    (optionRows programOptions)
    ["Examples:\n  hs-cli create demo-app -t vue3 -f typescript,router -y\n" ++
      "  hs-cli create shop -t nuxt3 --all -d ./projects\n  hs-cli templates\n"]

end Scaffold.CommandLine
