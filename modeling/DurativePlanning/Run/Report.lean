import DurativePlanning.Run.Compile
import DurativePlanning.Run.Json

/-!
# Reports of a Run

Every report is written in two ways: as a table for readers, and as a tree for programs.
-/

namespace DurativePlanning

/-- A title and rows of a key and a value; the keys are filled up to the same width. -/
def printTable (title : String) (rows : List (String × String)) : String :=
  let width := (rows.map (·.1.length)).foldl max 0
  title ++ "\n" ++ String.join (rows.map fun (key, value) =>
    "  " ++ key ++ String.ofList (List.replicate (width - key.length) ' ') ++ "  " ++ value ++ "\n")

namespace CompileReport

/-- The sizes of a compilation, for readers. -/
def table (r : CompileReport) : String :=
  let optional (key : String) (value : Option String) := (value.map (key, ·)).toList
  printTable "compilation" (
    [("domain", r.domain), ("kind", r.kind.text), ("deadline", toString r.deadline),
      ("actions", toString r.actions), ("events", toString r.events)] ++
    optional "combinations" (r.combinations.map toString) ++
    [("propositions", toString r.propositions), ("mdp actions", toString r.mdpActions)] ++
    optional "cache" (r.cache.map (·.text)) ++
    [("compile time", fixed 3 r.compileSecs ++ "s")])

/-- The sizes of a compilation, for programs. -/
def json (r : CompileReport) : Json :=
  .record [("domain", .text r.domain), ("kind", .text r.kind.text),
    ("deadline", .number r.deadline), ("actions", .number r.actions), ("events", .number r.events),
    ("combinations", .ofOption .number r.combinations), ("propositions", .number r.propositions),
    ("mdp_actions", .number r.mdpActions), ("cache", .ofOption (.text ·.text) r.cache),
    ("compile_secs", .decimal r.compileSecs)]

end CompileReport

namespace Summary

/-- The summary of an evaluation, for readers. -/
def table (s : Summary Float) : String :=
  printTable "evaluation"
    [("runs", toString s.runs), ("successes", toString s.successes),
      ("success rate", fixed 3 s.successRate), ("mean elapsed", fixed 2 s.meanElapsed),
      ("mean steps", fixed 2 s.meanSteps), ("mean wall time", fixed 2 s.meanWallSeconds ++ "s"),
      ("deadline exceeded", toString s.deadlineExceeded),
      ("no applicable action", toString s.noApplicableAction),
      ("horizon elapsed", toString s.horizonElapsed)]

/-- The summary of an evaluation, for programs. -/
def json (s : Summary Float) : Json :=
  .record [("runs", .number s.runs), ("successes", .number s.successes),
    ("success_rate", .decimal s.successRate), ("mean_elapsed", .decimal s.meanElapsed),
    ("mean_steps", .decimal s.meanSteps), ("mean_wall_time_secs", .decimal s.meanWallSeconds),
    ("deadline_exceeded", .number s.deadlineExceeded),
    ("no_applicable_action", .number s.noApplicableAction),
    ("horizon_elapsed", .number s.horizonElapsed)]

end Summary

/-- The settings under their `RunConfig.names`, for programs. -/
def RunConfig.json (c : RunConfig Float) : Json :=
  .record (RunConfig.names.zip [.text c.domain, .text c.kind.text, .number c.deadline,
    .number c.objectAmount, .number c.garbageAmount, .number c.runs, .text c.solver.text,
    .decimal c.horizonSecs, .decimal c.searchTimeSecs, .number c.searchDepth,
    .decimal c.explorationConstant, .text c.selection.text, .number c.k, .number c.maxIterations,
    .number c.seed.toNat, .decimal c.discount, .text c.cacheDir])

end DurativePlanning
