import DurativePlanning.Run.Overrides

/-!
# Flags

A flag changes what is known of a call of the program. It is a switch, or it takes a value, which is
attached to it or follows it. No flag may be given twice to the same command.

* `Flags`: what the flags of one command say.
* `Flag`: a flag.
* `shared`, `settings`, `noCache`: the flags there are.
* `readFlags`: the flags at the front of some arguments.
-/

namespace DurativePlanning.CommandLine

/-- What the flags of one command say. -/
structure Flags where
  /-- The file with the settings. -/
  config : Option String := none
  /-- Whether the report is for programs. -/
  json : Bool := false
  noCache : Bool := false
  overrides : Overrides Float := {}

/-- What a flag does to the `Flags` that were read so far. It does nothing if it must not be given
or its value is refused. -/
inductive FlagEffect where
  | switch (apply : Flags → Option Flags)
  | value (apply : String → Flags → Option Flags)

/-- A flag, with a long name and perhaps a letter. -/
structure Flag where
  long : String
  short : Option Char
  effect : FlagEffect

/-! ### Values -/

/-- A whole number of 64 bits; a plus sign may precede it, which `Yaml.dropPlus` takes away. -/
def wholeNumber? (text : String) : Option Nat :=
  (readNat? (Yaml.dropPlus text.toList)).filter (· < UInt64.size)

/-- A whole number of 32 bits; a sign may precede it, but no minus sign a number above zero. -/
def shortNumber? (text : String) : Option Nat := do
  let (negative, digits) := splitSign text.toList
  let n ← readNat? digits
  if n < UInt32.size ∧ (negative → n = 0) then some n else none

/-- A path, which is not empty. -/
def path? (text : String) : Option String := if text.isEmpty then none else some text

/-! ### The flags -/

/-- A flag for one setting of the `Overrides`, given at most once. -/
def Flag.setting {β : Type} (long : String) (short : Option Char) (read? : String → Option β)
    (get : Overrides Float → Option β)
    (set : Overrides Float → Option β → Overrides Float) : Flag where
  long
  short
  effect := .value fun text flags =>
    if (get flags.overrides).isSome then none
    else (read? text).map fun x => { flags with overrides := set flags.overrides (some x) }

/-- The flags that every command knows: `--config` and `--json`. -/
def shared : List Flag :=
  [⟨"config", 'c', .value fun text flags =>
      if flags.config.isSome then none
      else (path? text).map fun path => { flags with config := path }⟩,
    ⟨"json", 'j', .switch fun flags =>
      if flags.json then none else some { flags with json := true }⟩]

/-- The flags for single settings, each of which fills one field of the `Overrides`. -/
def settings : List Flag :=
  [.setting "domain" 'd' some (·.domain) fun o x => { o with domain := x },
    .setting "type" 't' DomainKind.ofText? (·.kind) fun o x => { o with kind := x },
    .setting "deadline" none shortNumber? (·.deadline) fun o x => { o with deadline := x },
    .setting "object-amount" none shortNumber? (·.objectAmount)
      fun o x => { o with objectAmount := x },
    .setting "garbage-amount" none shortNumber? (·.garbageAmount)
      fun o x => { o with garbageAmount := x },
    .setting "runs" 'r' wholeNumber? (·.runs) fun o x => { o with runs := x },
    .setting "solver" none Solver.ofText? (·.solver) fun o x => { o with solver := x },
    .setting "horizon" none readNumber? (·.horizonSecs) fun o x => { o with horizonSecs := x },
    .setting "search-time" none readNumber? (·.searchTimeSecs)
      fun o x => { o with searchTimeSecs := x },
    .setting "search-depth" none wholeNumber? (·.searchDepth)
      fun o x => { o with searchDepth := x },
    .setting "exploration" none readNumber? (·.explorationConstant)
      fun o x => { o with explorationConstant := x },
    .setting "selection" none Selection.ofText? (·.selection) fun o x => { o with selection := x },
    .setting "k" 'k' wholeNumber? (·.k) fun o x => { o with k := x },
    .setting "max-iterations" none wholeNumber? (·.maxIterations)
      fun o x => { o with maxIterations := x },
    .setting "seed" 's' (fun text => (wholeNumber? text).map UInt64.ofNat) (·.seed)
      fun o x => { o with seed := x },
    .setting "discount" none readNumber? (·.discount) fun o x => { o with discount := x },
    .setting "cache-dir" none path? (·.cacheDir) fun o x => { o with cacheDir := x }]

/-- The switch `--no-cache`, which leaves the cache alone. -/
def noCache : Flag :=
  ⟨"no-cache", none, .switch fun flags =>
    if flags.noCache then none else some { flags with noCache := true }⟩

/-! ### Reading -/

/-- How an argument with flags ends. -/
inductive FlagEnd where
  | done (flags : Flags)
  /-- The last flag takes the next argument as its value. -/
  | wants (apply : String → Option Flags)
  | version
  | help
  | refused

/-- The flags after a change, or `refused` if it is not allowed. -/
def FlagEnd.ofOption : Option Flags → FlagEnd
  | some flags => done flags
  | none => refused

/-- A text before its first equals sign, and after it if there is one. -/
def splitEquals (chars : List Char) : String × Option String :=
  let name := chars.takeWhile (· ≠ '=')
  (String.ofList name,
    if name.length = chars.length then none
    else some (String.ofList (chars.drop (name.length + 1))))

/-- A flag by its long name, behind the two dashes. A value may be attached (`splitEquals`), or
follow as the next argument (`FlagEnd.wants`). -/
def readLong (known : List Flag) (flags : Flags) (chars : List Char) : FlagEnd :=
  match splitEquals chars with
  | ("version", none) => .version
  | ("help", none) => .help
  | (name, attached) =>
    match known.find? (·.long == name), attached with
    | some ⟨_, _, .switch apply⟩, none => .ofOption (apply flags)
    | some ⟨_, _, .value apply⟩, some text => .ofOption (apply text flags)
    | some ⟨_, _, .value apply⟩, none => .wants fun text => apply text flags
    | _, _ => .refused

/-- Flags by their letters, behind the dash. After a letter that takes a value, the rest is that
value. -/
def readShort (known : List Flag) (flags : Flags) : List Char → FlagEnd
  | [] => .done flags
  | 'V' :: _ => .version
  | 'h' :: _ => .help
  | letter :: rest =>
    match known.find? (·.short == some letter) with
    | some ⟨_, _, .switch apply⟩ =>
      match apply flags with
      | some flags => readShort known flags rest
      | none => .refused
    | some ⟨_, _, .value apply⟩ =>
      match rest with
      | [] => .wants fun text => apply text flags
      | '=' :: text => .ofOption (apply (String.ofList text) flags)
      | text => .ofOption (apply (String.ofList text) flags)
    | none => .refused

/-- How the flags of a command end. -/
inductive LevelEnd where
  | finished (flags : Flags)
  /-- An argument that is no flag, and those after it. -/
  | word (flags : Flags) (word : String) (rest : List String)
  | version
  | help
  | refused

/-- Whether an argument begins with a dash and says more than that. -/
def isFlag (arg : String) : Bool := arg.startsWith "-" && arg ≠ "-"

/-- The flags at the front of some arguments, read by `readLong` and `readShort`. Two dashes end
them. -/
def readFlags (known : List Flag) (flags : Flags) : List String → LevelEnd
  | [] => .finished flags
  | arg :: rest =>
    if arg = "--" then if rest.isEmpty then .finished flags else .refused
    else if !isFlag arg then .word flags arg rest
    else
      let parsed := match arg.toList with
        | '-' :: '-' :: chars => readLong known flags chars
        | chars => readShort known flags (chars.drop 1)
      match parsed with
      | .done flags => readFlags known flags rest
      | .version => .version
      | .help => .help
      | .refused => .refused
      | .wants apply =>
        match rest with
        | [] => .refused
        | text :: rest =>
          if isFlag text then .refused
          else match apply text with
            | some flags => readFlags known flags rest
            | none => .refused

end DurativePlanning.CommandLine
