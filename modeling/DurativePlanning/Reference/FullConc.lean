import DurativePlanning.Domain.Validation

/-!
# The Assembly Domain

Fifteen deterministic actions of different lengths, each of which yields one part once the parts
that it needs are there. All actions may run at the same time; the goals are all parts.

* `Reference.fullConc`: the domain.
-/

namespace DurativePlanning.Reference

variable {α : Type}

/-- The actions: name, duration, parts needed, part made. -/
def assemblyActions : List (String × Nat × List String × String) :=
  [("eight", 8, [], "a"),
   ("four1", 4, [], "b"),
   ("four2", 4, ["b", "h", "f"], "i"),
   ("two1", 2, [], "c"),
   ("two2", 2, ["c", "e"], "f"),
   ("two3", 2, ["b", "h", "f"], "j"),
   ("two4", 2, ["j", "l"], "m"),
   ("one1", 1, [], "d"),
   ("one2", 1, ["d"], "e"),
   ("one3", 1, ["c", "e"], "g"),
   ("one4", 1, ["g"], "h"),
   ("one5", 1, ["b", "h", "f"], "k"),
   ("one6", 1, ["k"], "l"),
   ("one7", 1, ["j", "l"], "n"),
   ("one8", 1, ["n"], "o")]

/-- The parts. -/
def assemblyParts : List String :=
  ["a", "b", "c", "d", "e", "f", "g", "h", "i", "j", "k", "l", "m", "n", "o"]

/-- The part with a name, and the fluent that says whether it was made. -/
def assemblyPart (u : Universe) (got : FluentId) (name : String) :
    Except ModelError GroundFluent := do
  let part ← u.objectId name
  return ⟨got, [part]⟩

/-- The schema of an action: it requires the parts that are needed (`assemblyPart`) and makes
one. -/
def assemblySchema (u : Universe) (got : FluentId) :
    String × Nat × List String × String → Except ModelError (Schema α)
  | (name, duration, needed, made) => do
    let needed ← needed.mapM (assemblyPart u got)
    let made ← assemblyPart u got made
    let template (f : GroundFluent) : Template := .constant f.fluent f.args
    let schema : Schema α := { name, duration }
    let schema := needed.foldl (fun s f => s.require .atStart (template f) true) schema
    return schema.effect .atEnd (template made) true

/-- The assembly domain: one schema for each of the `assemblyActions`, and all parts as goals. -/
def fullConc (kind : DomainKind) (deadline : Nat) : Except ModelError (Domain α) := do
  let (part, u) ← Universe.empty.addType "Part"
  let u ← assemblyParts.foldlM (fun u name => (·.2) <$> u.addObject name part) u
  let (got, u) ← u.addFluent "got" [part] false
  let schemas ← assemblyActions.mapM (assemblySchema u got)
  let goals ← assemblyParts.mapM (assemblyPart u got)
  let domain : Domain α := { Domain.named "full_conc" kind with declarations := u }
  let domain ← schemas.foldlM (fun d s => (·.2) <$> d.addSchema s) domain
  let domain := goals.foldl (fun d f => d.addGoal f true) domain
  (domain.withDeadline deadline).build

end DurativePlanning.Reference
