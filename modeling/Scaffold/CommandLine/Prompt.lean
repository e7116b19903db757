import Scaffold.Project.Feature
import Scaffold.Project.Session

/-! # Prompts

A prompt asks for a line until the line that is typed is an answer. The lines that will be typed are
finite, so a prompt ends: with an answer, or with a failure when no line is left.
-/

namespace Scaffold.CommandLine

open Scaffold.Text Scaffold.Project

/-- Asks until one of the lines is an answer. -/
def askAmong {α : Type} (prompt complaint : String) (answer? : String → Option α) :
    List String → Operation α
  | [] => do
    Operation.put prompt
    throw .endOfInput
  | line :: later => do
    Operation.put prompt
    modify fun session => { session with typed := later }
    match answer? line with
    | some answer => return answer
    | none =>
      Operation.put (complaint ++ "\n")
      askAmong prompt complaint answer? later

/-- Asks until the line that is typed is an answer. The question is marked up. -/
def ask {α : Type} (question hint complaint : String) (answer? : String → Option α) : Operation α := do
  let question ← Operation.liftMarkup (Console.showMarkup question)
  askAmong (question ++ hint ++ ": ") complaint answer? (← get).typed

/-- A line without the white space at its ends; an empty line stands for the default. -/
def typedText (default line : String) : String :=
  if line.isEmpty then default else String.ofList (strip line.toList)

/-- Asks for a text that satisfies a test. -/
def askText (question default complaint : String) (accepts : String → Bool) : Operation String :=
  ask question (" (" ++ default ++ ")") complaint fun line =>
    let text := typedText default line
    if accepts text then some text else none

/-- Asks for one of several texts. -/
def askChoice (question : String) (choices : List String) (default : String) : Operation String :=
  ask question (" [" ++ "/".intercalate choices ++ "] (" ++ default ++ ")")
    "Please select one of the available options" fun line =>
      let text := typedText default line
      if text ∈ choices then some text else none

/-- The answer that a line gives to a question of yes or no. -/
def decision? (default : Bool) (line : String) : Option Bool :=
  if line.isEmpty then some default
  else
    match (strip line.toList).map Char.toLower with
    | ['y'] => some true
    | ['n'] => some false
    | _ => none

/-- Asks a question of yes or no. -/
def confirm (question : String) (default : Bool) : Operation Bool :=
  ask question (if default then " [y/n] (y)" else " [y/n] (n)") "Please enter Y or N" (decision? default)

end Scaffold.CommandLine
