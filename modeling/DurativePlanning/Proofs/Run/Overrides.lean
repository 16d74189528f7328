import DurativePlanning.Proofs.Run.Limits
import DurativePlanning.Run.Overrides
import Mathlib

/-!
# Which Settings Count

What is said apart from a file takes the place of what the file says, setting by setting. Whether
the settings are in range is asked twice: of the file as it is loaded, and of the outcome. So a
setting of the file that is out of range is refused even where another value would take its place,
and with a file that is in range, or without a file, only the outcome counts.

* `Setting`: the settings one by one, with `RunConfig.get` and `Overrides.get?`.
* `Overrides.Replaces`: settings that are replaced where another value is given, and nowhere else.
* `Overrides.replaces_iff`: there is one outcome, and it is the one that is computed.
* `RunConfig.resolve_replaces`: which settings a run begins with, and which are refused.
-/

namespace DurativePlanning

open Yaml Storage

variable {α τ : Type}

/-! ### Setting by setting -/

/-- **The settings of a run**, one by one. -/
inductive Setting where
  | domain
  | kind
  | deadline
  | objectAmount
  | garbageAmount
  | runs
  | solver
  | horizonSecs
  | searchTimeSecs
  | searchDepth
  | explorationConstant
  | selection
  | k
  | maxIterations
  | seed
  | discount
  | cacheDir
  deriving DecidableEq, Repr

/-- The values that a setting can have. -/
def Setting.Value (α : Type) : Setting → Type
  | domain | cacheDir => String
  | kind => DomainKind
  | deadline | objectAmount | garbageAmount | runs | searchDepth | k | maxIterations => ℕ
  | solver => Solver
  | horizonSecs | searchTimeSecs => Float
  | explorationConstant | discount => α
  | selection => Selection
  | seed => UInt64

/-- The value of a setting. -/
def RunConfig.get (c : RunConfig α) : (x : Setting) → x.Value α
  | .domain => c.domain
  | .kind => c.kind
  | .deadline => c.deadline
  | .objectAmount => c.objectAmount
  | .garbageAmount => c.garbageAmount
  | .runs => c.runs
  | .solver => c.solver
  | .horizonSecs => c.horizonSecs
  | .searchTimeSecs => c.searchTimeSecs
  | .searchDepth => c.searchDepth
  | .explorationConstant => c.explorationConstant
  | .selection => c.selection
  | .k => c.k
  | .maxIterations => c.maxIterations
  | .seed => c.seed
  | .discount => c.discount
  | .cacheDir => c.cacheDir

/-- The value that is given for a setting, if one is. -/
def Overrides.get? (o : Overrides α) : (x : Setting) → Option (x.Value α)
  | .domain => o.domain
  | .kind => o.kind
  | .deadline => o.deadline
  | .objectAmount => o.objectAmount
  | .garbageAmount => o.garbageAmount
  | .runs => o.runs
  | .solver => o.solver
  | .horizonSecs => o.horizonSecs
  | .searchTimeSecs => o.searchTimeSecs
  | .searchDepth => o.searchDepth
  | .explorationConstant => o.explorationConstant
  | .selection => o.selection
  | .k => o.k
  | .maxIterations => o.maxIterations
  | .seed => o.seed
  | .discount => o.discount
  | .cacheDir => o.cacheDir

/-- Settings are told apart by their values. -/
theorem RunConfig.ext_get {c c' : RunConfig α} (h : ∀ x, c.get x = c'.get x) : c = c' := by
  cases c
  cases c'
  rw [RunConfig.mk.injEq]
  exact ⟨h .domain, h .kind, h .deadline, h .objectAmount, h .garbageAmount, h .runs, h .solver,
    h .horizonSecs, h .searchTimeSecs, h .searchDepth, h .explorationConstant, h .selection, h .k,
    h .maxIterations, h .seed, h .discount, h .cacheDir⟩

namespace Overrides

variable {o : Overrides α} {c c' : RunConfig α}

/-- **Settings are replaced** where a value is given for them, by that value, and stay as they are
everywhere else. -/
structure Replaces (o : Overrides α) (c c' : RunConfig α) : Prop where
  given : ∀ x value, o.get? x = some value → c'.get x = value
  others : ∀ x, o.get? x = none → c'.get x = c.get x

/-- `Overrides.apply` gives each setting the value that is given for it, and otherwise its own. -/
theorem get_apply (o : Overrides α) (c : RunConfig α) (x : Setting) :
    (o.apply c).get x = (o.get? x).getD (c.get x) := by
  cases x <;> rfl

/-- `apply` replaces the settings. -/
theorem replaces_apply (o : Overrides α) (c : RunConfig α) : o.Replaces c (o.apply c) where
  given x value hvalue := by rw [get_apply, hvalue, Option.getD_some]
  others x hnone := by rw [get_apply, hnone, Option.getD_none]

/-- **There is one way to replace settings**: `Replaces` determines the outcome, which is that of
`apply`. -/
theorem replaces_iff : o.Replaces c c' ↔ c' = o.apply c := by
  constructor
  · intro h
    refine RunConfig.ext_get fun x => ?_
    rw [get_apply]
    cases hgiven : o.get? x with
    | none => exact h.others x hgiven
    | some value => exact h.given x value hgiven
  · rintro rfl
    exact replaces_apply o c

end Overrides

/-! ### In range, before and after -/

namespace RunConfig

variable [Arithmetic α] {c c' : RunConfig α} {o : Overrides α} {cause : RunConfigError α}

/-- `checked` gives settings back that are in range. -/
theorem checked_eq_ok_iff : c.checked = .ok c' ↔ c.validate = .ok () ∧ c' = c := by
  rw [checked, bind_eq_ok_iff]
  constructor
  · rintro ⟨⟨⟩, hvalid, h⟩
    exact ⟨hvalid, (Except.ok.inj h).symm⟩
  · rintro ⟨hvalid, rfl⟩
    exact ⟨(), hvalid, rfl⟩

/-- `checked` fails as `validate` does. -/
theorem checked_eq_error_iff : c.checked = .error cause ↔ c.validate = .error cause := by
  rw [checked, bind_eq_error_iff]
  exact or_iff_left fun ⟨_, _, h⟩ => absurd h (by simp [pure, Except.pure])

/-- **After replacement** `override` asks that the settings are in range. -/
theorem override_eq_ok_iff : c.override o = .ok c' ↔ o.Replaces c c' ∧ c'.validate = .ok () := by
  rw [override, Overrides.replaces_iff]
  cases hchecked : (o.apply c).checked with
  | ok config =>
      obtain ⟨hvalid, rfl⟩ := checked_eq_ok_iff.mp hchecked
      rw [Except.ok.injEq, eq_comm]
      exact ⟨fun h => ⟨h, h ▸ hvalid⟩, And.left⟩
  | error cause =>
      have hfault := checked_eq_error_iff.mp hchecked
      simp only [reduceCtorEq, false_iff, not_and]
      rintro rfl
      simp [hfault]

/-- `override` fails with what is out of range after replacement. -/
theorem override_eq_error_iff {e : ResolveError α} : c.override o = .error e ↔
    ∃ c' cause, o.Replaces c c' ∧ c'.validate = .error cause ∧ e = .outOfRange cause := by
  simp only [override, Overrides.replaces_iff]
  cases hchecked : (o.apply c).checked with
  | ok config =>
      obtain ⟨hvalid, rfl⟩ := checked_eq_ok_iff.mp hchecked
      simp [hvalid]
  | error cause =>
      have hfault := checked_eq_error_iff.mp hchecked
      simp [hfault, eq_comm]

variable [Stored α] {files : FileAccess (StateM τ)} {path text : String} {state state' : τ}

/-- What is made of a file that can be read and spells settings. -/
theorem run_resolve (hfile : (files.read path).run state = (.ok text, state'))
    (htext : Yaml.read text = .ok c) :
    ((resolve files (some path) o).run state).1 =
      match c.checked with
      | .ok config => config.override o
      | .error cause => .error (.unloadable path cause) := by
  have hload : (ofFile (α := α) files path).run state = (c.checked, state') := by
    rw [ofFile, run_bind, hfile]
    simp only [ofYaml, htext]
    rfl
  rw [resolve, run_bind, hload]
  cases c.checked <;> rfl

/-- **Which settings a run begins with.** Without a file, the usual settings are replaced where
another value is given, and the outcome must be in range. With a file that can be read and spells
settings, the same holds of these as long as they are in range themselves. When they are not, the
file is refused for what is wrong with it, whatever is given in place of it. -/
theorem resolve_replaces (files : FileAccess (StateM τ)) (path : String) (o : Overrides α)
    (state : τ) :
    (∀ c, ((resolve files none o).run state).1 = .ok c ↔
      o.Replaces standard c ∧ c.validate = .ok ()) ∧
    ∀ text state' f, (files.read path).run state = (.ok text, state') → Yaml.read text = .ok f →
      (∃! c, o.Replaces f c) ∧
      (∀ c, ((resolve files (some path) o).run state).1 = .ok c ↔
        f.validate = .ok () ∧ o.Replaces f c ∧ c.validate = .ok ()) ∧
      (∀ e, ((resolve files (some path) o).run state).1 = .error e ↔
        (∃ cause, f.validate = .error cause ∧ e = .unloadable path cause) ∨
        (f.validate = .ok () ∧ ∃ c cause, o.Replaces f c ∧ c.validate = .error cause ∧
          e = .outOfRange cause)) := by
  refine ⟨fun c => override_eq_ok_iff, fun text state' f hfile htext => ⟨?_, ?_⟩⟩
  · exact ⟨o.apply f, o.replaces_apply f, fun c hc => Overrides.replaces_iff.mp hc⟩
  · rw [run_resolve hfile htext]
    cases hchecked : f.checked with
    | ok config =>
        obtain ⟨hvalid, rfl⟩ := checked_eq_ok_iff.mp hchecked
        simp [hvalid, override_eq_ok_iff, override_eq_error_iff]
    | error cause =>
        have hfault := checked_eq_error_iff.mp hchecked
        simp [hfault, eq_comm]

/-- Two files of settings that can only be read; the second one asks for no episode at all. -/
def drawer : FileAccess (StateM Unit) where
  read path := pure <|
    match [("short.yaml", "runs: 3\n"), ("idle.yaml", "runs: 0\n")].lookup path with
    | some text => .ok text
    | none => .error .absent
  write _ _ := pure (.error (.other "read-only file system"))

set_option maxRecDepth 10000 in
/-- Two episodes and thirty ticks are asked for. That is what a run begins with when the file asks
for three episodes; when the file asks for none it is refused, although the outcome would be in
range. -/
theorem resolve_replaces_drawer :
    let given : Overrides Float := { runs := some 2, deadline := some 30 }
    let outcome : RunConfig Float := { RunConfig.standard with runs := 2, deadline := 30 }
    let resolved (file : String) := ((resolve drawer (some file) given).run ()).1
    outcome.validate = .ok () ∧ resolved "short.yaml" = .ok outcome ∧
      given.Replaces { RunConfig.standard with runs := 0 } outcome ∧
      resolved "idle.yaml" = .error (.unloadable "idle.yaml" (.invalidConfig .runs)) := by
  intro given outcome resolved
  have houtcome : outcome.validate = .ok () := validate_eq_ok_iff.mpr (by decide +kernel)
  have hshort : Document.ofText "runs: 3\n" =
      .ok ⟨.mapping none [(.scalar none .plain "runs", .scalar none .plain "3")], []⟩ := by cbv
  have hidle : Document.ofText "runs: 0\n" =
      .ok ⟨.mapping none [(.scalar none .plain "runs", .scalar none .plain "0")], []⟩ := by cbv
  have hread : (Yaml.read "runs: 3\n" : Except ReadError (RunConfig Float)) =
      .ok { RunConfig.standard with runs := 3 } := by
    rw [Yaml.read, hshort]
    rfl
  have hread' : (Yaml.read "runs: 0\n" : Except ReadError (RunConfig Float)) =
      .ok { RunConfig.standard with runs := 0 } := by
    rw [Yaml.read, hidle]
    rfl
  have hrange : ({ RunConfig.standard with runs := 3 } : RunConfig Float).validate = .ok () :=
    validate_eq_ok_iff.mpr (by decide +kernel)
  obtain ⟨-, hok, -⟩ := (resolve_replaces drawer "short.yaml" given ()).2 _ () _ rfl hread
  obtain ⟨-, -, herror⟩ := (resolve_replaces drawer "idle.yaml" given ()).2 _ () _ rfl hread'
  exact ⟨houtcome, (hok _).mpr ⟨hrange, Overrides.replaces_iff.mpr rfl, houtcome⟩,
    Overrides.replaces_iff.mpr rfl, (herror _).mpr (Or.inl ⟨_, rfl, rfl⟩)⟩

end RunConfig

end DurativePlanning
