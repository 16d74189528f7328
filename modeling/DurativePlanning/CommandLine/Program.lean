import DurativePlanning.CommandLine.Invocation
import DurativePlanning.Run.Report

/-!
# The Program

What the program prints, and the code with which it ends. Files and the clock are given to it, so
what it does is a function of them.

* `Output`: what a call prints.
* `execute`: a call of the program.
-/

namespace DurativePlanning.CommandLine

open Yaml Storage

/-- What a call prints, and the code with which it ends. -/
structure Output where
  code : Nat
  out : String := ""
  err : Option String := none
  deriving DecidableEq, Repr

/-- The code of a call that was not understood (`Call.refused`). -/
def refusedCode : Nat := 2

/-- The code of a call that was aborted, as by a `PlanError.unusableTime`. -/
def abortedCode : Nat := 101

namespace Output

/-- The output of a call that succeeded. -/
def ok (out : String) : Output := { code := 0, out }

/-- The output of a call that failed, with the reason on the second stream. -/
def error (message : String) : Output := { code := 1, err := some ("error: " ++ message) }

end Output

def programName : String := "tempotree"

def programVersion : String := "0.1.0"

def versionText (command : Option Command) : String :=
  programName ++ (command.map ("-" ++ ·.text)).getD "" ++ " " ++ programVersion ++ "\n"

/-- A flag as `usage` lists it. -/
def Flag.usage (flag : Flag) : String :=
  let short := match flag.short with
    | some letter => "-" ++ String.ofList [letter] ++ ", "
    | none => "    "
  let value := match flag.effect with
    | .switch _ => ""
    | .value _ => " <VALUE>"
  "  " ++ short ++ "--" ++ flag.long ++ value ++ "\n"

def usage : String :=
  "Usage: " ++ programName ++ " [OPTIONS] <COMMAND>\n\nCommands:\n" ++
    String.join (Command.all.map fun c => "  " ++ c.text ++ "\n") ++ "\nOptions:\n" ++
    String.join ((shared ++ settings ++ [noCache]).map Flag.usage)

variable {m : Type → Type} [Monad m]

/-- What a program may use. -/
structure World (m : Type → Type) where
  files : FileAccess m
  /-- The time in nanoseconds. -/
  clock : m Nat

/-- The reference domains by their `Reference.names`, as text or as JSON. -/
def listDomains (json : Bool) : Output :=
  .ok (if json then (Json.list (Reference.names.map .text)).print
    else String.join (Reference.names.map (· ++ "\n")))

/-- The settings. -/
def showConfig (config : RunConfig Float) (json : Bool) : Output :=
  .ok (if json then config.json.print else write config)

/-- The sizes of a compilation. -/
def showSizes (sizes : CompileReport) (json : Bool) : Output :=
  .ok (if json then sizes.json.print else sizes.table)

/-- The sizes of a compilation and the `Summary` of an evaluation, as text or as JSON. -/
def showEvaluation (sizes : CompileReport) (summary : Summary Float) (json : Bool) : Output :=
  .ok (if json then (Json.record [("compile", sizes.json), ("summary", summary.json)]).print
    else sizes.table ++ summary.table)

/-- What is printed for an evaluation. A time that cannot be represented aborts the call
(`abortedCode`); every other error is reported. -/
def evaluationOutput (sizes : CompileReport) (json : Bool) :
    Except PlanError (Summary Float) → Output
  | .ok summary => showEvaluation sizes summary json
  | .error (.unusableTime _) => { code := abortedCode }
  | .error cause => .error cause.message

variable (γ : Type) [SeededSource γ]

/-- A command on settings that are in range. -/
def perform (world : World m) (command : Command) (flags : Flags) (config : RunConfig Float) :
    m Output := do
  match command with
  | .domains => return listDomains flags.json
  | .config => return showConfig config flags.json
  | .compile | .run =>
    match ← compile world.files .yaml world.clock config (!flags.noCache) with
    | .error cause => return .error cause.message
    | .ok (mdp, sizes) =>
      if command = .compile then return showSizes sizes flags.json
      else
        let summary ← mdp.evaluate γ world.clock config.runs config.planParams
        return evaluationOutput sizes flags.json summary

/-- A call of the program. -/
def execute (world : World m) (environment : Option String) (arguments : List String) :
    m Output := do
  match Call.ofArguments environment arguments with
  | .refused =>
    return { code := refusedCode, err := some "error: the arguments are not understood" }
  | .version command => return .ok (versionText command)
  | .help => return .ok usage
  | .perform .domains flags => return listDomains flags.json
  | .perform command flags =>
    match ← RunConfig.resolve world.files flags.config flags.overrides with
    | .error cause => return .error cause.message
    | .ok config => perform γ world command flags config

end DurativePlanning.CommandLine
