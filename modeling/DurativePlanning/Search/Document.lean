import DurativePlanning.Search.Config
import DurativePlanning.Storage.Cache

/-!
# Search Settings as Documents

Settings that a document does not name keep their usual values, and every document is checked.

* `SearchConfig.ofYaml`: the settings in a document.
* `SearchConfig.bundled`: the settings of the document that comes with the library.
-/

namespace DurativePlanning

open Yaml Storage

instance : Stored Selection where
  toNode s := .word s.text
  ofNode := Node.choice "avg or max" Selection.ofText?

instance : Stored ReturnType where
  toNode r := .word r.text
  ofNode := Node.choice "a kind of return" ReturnType.ofText?

variable {α : Type} [Arithmetic α] [Stored α]

instance : Stored (SearchConfig α) where
  toNode c := .record [("iterations", toNode c.iterations),
    ("time_budget_secs", toNode c.timeBudget), ("c", toNode c.c), ("gamma", toNode c.gamma),
    ("max_depth", toNode c.maxDepth), ("return_type", toNode c.returnType),
    ("fixed_horizon_steps", toNode c.fixedHorizonSteps), ("selection", toNode c.selection)]
  ofNode node := do
    let usual : SearchConfig α := .standard
    let fields ← node.fields ["iterations", "time_budget_secs", "c", "gamma", "max_depth",
      "return_type", "fixed_horizon_steps", "selection"]
    return {
      iterations := ← fields.getD "iterations" usual.iterations
      timeBudget := ← fields.getD "time_budget_secs" usual.timeBudget
      c := ← fields.getD "c" usual.c
      gamma := ← fields.getD "gamma" usual.gamma
      maxDepth := ← fields.getD "max_depth" usual.maxDepth
      returnType := ← fields.getD "return_type" usual.returnType
      fixedHorizonSteps := ← fields.getD "fixed_horizon_steps" usual.fixedHorizonSteps
      selection := ← fields.getD "selection" usual.selection }

/-- Why there are no search settings. -/
inductive SearchConfigError where
  | io (cause : FileError)
  | yaml (cause : ReadError)
  | invalid (fault : SearchConfigFault)
  deriving DecidableEq, Repr

/-- The text of an error, as it is reported. -/
def SearchConfigError.message : SearchConfigError → String
  | io cause => s!"failed to read search config: {cause.reason}"
  | yaml cause => s!"failed to parse search config YAML: {cause.message}"
  | invalid fault => s!"invalid search config: {fault.text}"

namespace SearchConfig

/-- The same settings, if all are in range (`SearchConfig.validate`). -/
def checked (config : SearchConfig α) : Except SearchConfigError (SearchConfig α) :=
  match config.validate with
  | .ok () => .ok config
  | .error fault => .error (.invalid fault)

/-- The settings in a document, `checked`. -/
def ofYaml (text : String) : Except SearchConfigError (SearchConfig α) :=
  match read text with
  | .ok config => checked config
  | .error cause => .error (.yaml cause)

/-- The settings in a file, read as by `ofYaml`. -/
def ofFile {m : Type → Type} [Monad m] (files : FileAccess m) (path : String) :
    m (Except SearchConfigError (SearchConfig α)) := do
  match ← files.read path with
  | .ok text => return ofYaml text
  | .error cause => return .error (.io cause)

/-- The document that comes with the library. -/
def bundledDocument : String :=
  "# Search settings of one decision.\n" ++
  "iterations: 2000\n" ++
  "time_budget_secs: 1.0\n" ++
  "c: 10.0\n" ++
  "gamma: 0.95\n" ++
  "max_depth: 40\n" ++
  "return_type: discounted\n" ++
  "fixed_horizon_steps: 40\n" ++
  "selection: avg\n"

/-- The settings of the `bundledDocument`. -/
def bundled : Except SearchConfigError (SearchConfig α) := ofYaml bundledDocument

end SearchConfig

end DurativePlanning
