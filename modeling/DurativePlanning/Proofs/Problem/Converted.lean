import DurativePlanning.Problem.Converted
import Mathlib.Data.Nat.Notation

/-!
# What Conversion Produces

An action without extent becomes one event with all of its conditions, effects and groups; any
other action becomes a start event without groups and an end event with all of them. What later
modules need to know of the events is read off here.

* `GroundAction.start_convert`, `GroundAction.finish?_convert`: the two events.
* `GroundAction.convert_split`: the converted actions with extent.
* `GroundAction.exists_event_iff`: the events draw the groups of the action, each once.
-/

namespace DurativePlanning

variable {α : Type}

/-- The ticks from the start of an action to its end; none for an action without extent. -/
def ConvertedAction.duration (a : ConvertedAction α) : ℕ :=
  match a.course with
  | .instant _ => 0
  | .split action => action.duration

namespace GroundAction

/-- `effectsAt` lists the effects with the timing. -/
theorem mem_effectsAt {a : GroundAction α} {timing : EffectTiming} {l : Literal} :
    l ∈ a.effectsAt timing ↔ (timing, l) ∈ a.effects := by
  simp [effectsAt]

/-- `conditionsAt` lists the conditions with one of the timings. -/
theorem mem_conditionsAt {a : GroundAction α} {timings : List Timing} {l : Literal} :
    l ∈ a.conditionsAt timings ↔ ∃ timing ∈ timings, (timing, l) ∈ a.conditions := by
  simp [conditionsAt, and_comm]

/-- The first event of a converted action is `wholeEvent` when it has no extent, and `startEvent`
otherwise. -/
theorem start_convert (a : GroundAction α) :
    a.convert.start = if a.duration = 0 then a.wholeEvent else a.startEvent := by
  by_cases h : a.duration = 0
  · simp only [convert, ConvertedAction.start, if_pos h]
  · simp only [convert, ConvertedAction.start, if_neg h]

/-- The last event of a converted action is `endEvent`, when it has extent. -/
theorem finish?_convert (a : GroundAction α) :
    a.convert.finish? = if a.duration = 0 then none else some a.endEvent := by
  by_cases h : a.duration = 0
  · simp only [convert, ConvertedAction.finish?, if_pos h]
  · simp only [convert, ConvertedAction.finish?, if_neg h]

/-- A converted action that has extent lasts for the duration of the ground action, between its
`startEvent` and its `endEvent`. -/
theorem convert_split {a : GroundAction α} {action : SplitAction α}
    (h : a.convert.course = .split action) :
    a.duration ≠ 0 ∧ action = ⟨a.name, a.startEvent, a.endEvent, a.duration⟩ := by
  rw [convert] at h
  by_cases hzero : a.duration = 0
  · rw [if_pos hzero] at h
    exact absurd h (by simp)
  · rw [if_neg hzero] at h
    exact ⟨hzero, (Course.split.inj h).symm⟩

/-- The groups of the events are the groups of the action. -/
theorem exists_event_iff {a : GroundAction α} {g : EffectGroup α} :
    (∃ e ∈ a.convert.events, g ∈ e.groups) ↔ g ∈ a.groups := by
  rw [ConvertedAction.events, start_convert, finish?_convert]
  split
  · simp [wholeEvent]
  · simp [startEvent, endEvent]

end GroundAction

end DurativePlanning
