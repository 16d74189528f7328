import DurativePlanning.CommandLine.Flag

/-!
# Calls of the Program

A call names a command, with flags before and behind it. The file with the settings may also be
named by the environment; a flag wins over it, and a flag behind the command over one before.

* `Command`: what the program can be asked to do.
* `Call.ofArguments`: the call that some arguments make.
-/

namespace DurativePlanning.CommandLine

/-- What the program can be asked to do. -/
inductive Command where
  /-- Compile a domain and evaluate the planner on it. -/
  | run
  /-- Compile a domain and report the sizes. -/
  | compile
  /-- Print the settings. -/
  | config
  /-- List the reference domains. -/
  | domains
  deriving DecidableEq, Repr

namespace Command

def all : List Command := [run, compile, config, domains]

/-- The word for a command on the command line. -/
def text : Command → String
  | run => "run"
  | compile => "compile"
  | config => "config"
  | domains => "domains"

/-- The command with a given `text`. -/
def ofText? (s : String) : Option Command := all.find? (·.text == s)

/-- The flags that a command knows: `shared` by all, the `settings` for those that use a
configuration, and `noCache` for those that compile. -/
def flags : Command → List Flag
  | run | compile => shared ++ settings ++ [noCache]
  | config => shared ++ settings
  | domains => shared

end Command

/-- What a call asks for. -/
inductive Call where
  | perform (command : Command) (flags : Flags)
  /-- The version of the program or of one of its commands. -/
  | version (command : Option Command)
  | help
  | refused

/-- The flags of both places, the inner ones first, and after them what the environment says. -/
def merge (environment : Option String) (outer inner : Flags) : Option Flags :=
  let needed := outer.config.isNone || inner.config.isNone
  if needed && environment == some "" then none
  else some { inner with
    config := inner.config <|> outer.config <|> environment
    json := outer.json || inner.json }

namespace Call

/-- The call that the arguments behind a command make, after the flags are merged (`merge`). -/
def ofRest (environment : Option String) (outer : Flags) (command : Command)
    (rest : List String) : Call :=
  match readFlags command.flags {} rest with
  | .finished inner =>
    match merge environment outer inner with
    | some flags => perform command flags
    | none => refused
  | .version => version command
  | .help => help
  | .word _ _ _ | .refused => refused

/-- The call that some arguments make: `shared` flags, then a command, and then `ofRest`. -/
def ofArguments (environment : Option String) (arguments : List String) : Call :=
  match readFlags shared {} arguments with
  | .version => version none
  | .help => help
  | .finished _ | .refused => refused
  | .word outer word rest =>
    match Command.ofText? word with
    | some command => ofRest environment outer command rest
    | none =>
      if word = "help" && rest.length ≤ 1 && rest.all (Command.ofText? · |>.isSome) then help
      else refused

end Call

end DurativePlanning.CommandLine
