import DurativePlanning.Proofs.Mdp.Event
import DurativePlanning.Proofs.Problem.Converted
import DurativePlanning.Proofs.Problem.Ground

/-!
# Resources of Actions

A schema that uses a resource asks for it at the start, takes it at the start and gives it back at
the end. This module follows the three items from authoring through grounding to events.

* `Schema.Authored`: schemas put together by authoring, where only `Schema.uses` declares
  resources.
* `ConvertedAction.Respects`: what an action does to an atom that serves as a resource.
* `GroundAction.Instantiates.respects`: an instance of an authored schema respects each atom on
  which it has no effects of its own.
-/

namespace DurativePlanning

variable {α : Type}

/-- **Schemas put together by authoring**: resources are declared by `Schema.uses` only, and every
effect that is added on its own is on a template with a given property. -/
inductive Schema.Authored (Q : Template → Prop) : Schema α → Prop
  | new (name : String) (duration : ℕ) : Authored Q { name, duration }
  | param {s : Schema α} (name : String) (type : TypeId) :
      Authored Q s → Authored Q (s.param name type)
  | require {s : Schema α} (timing : Timing) (fluent : Template) (value : Bool) :
      Authored Q s → Authored Q (s.require timing fluent value)
  | effect {s : Schema α} (timing : EffectTiming) (fluent : Template) (value : Bool) :
      Q fluent → Authored Q s → Authored Q (s.effect timing fluent value)
  | draw {s : Schema α} (targets : List Template) (law : Law α) :
      Authored Q s → Authored Q (s.draw targets law)
  | uses {s : Schema α} (resource : Template) : Authored Q s → Authored Q (s.uses resource)
  | alone {s : Schema α} : Authored Q s → Authored Q s.alone

namespace Schema.Authored

variable {Q : Template → Prop} {s : Schema α}

/-- A resource of an `Authored` schema is asked for at the start. -/
theorem needs (h : s.Authored Q) {τ : Template} (hτ : τ ∈ s.resources) :
    ⟨.atStart, τ, true⟩ ∈ s.conditions := by
  induction h with
  | new => exact absurd hτ List.not_mem_nil
  | param _ _ _ ih | effect _ _ _ _ _ ih | draw _ _ _ ih | alone _ ih => exact ih hτ
  | require _ _ _ _ ih => exact List.mem_append_left _ (ih hτ)
  | uses resource _ ih =>
      rcases List.mem_append.mp hτ with hτ | hτ
      · exact List.mem_append_left _ (ih hτ)
      · obtain rfl := List.mem_singleton.mp hτ
        exact List.mem_append_right _ (List.mem_singleton_self _)

/-- A resource of an `Authored` schema is taken at the start. -/
theorem takes (h : s.Authored Q) {τ : Template} (hτ : τ ∈ s.resources) :
    ⟨.atStart, τ, false⟩ ∈ s.effects := by
  induction h with
  | new => exact absurd hτ List.not_mem_nil
  | param _ _ _ ih | require _ _ _ _ ih | draw _ _ _ ih | alone _ ih => exact ih hτ
  | effect _ _ _ _ _ ih => exact List.mem_append_left _ (ih hτ)
  | uses resource _ ih =>
      refine List.mem_append_left _ ?_
      rcases List.mem_append.mp hτ with hτ | hτ
      · exact List.mem_append_left _ (ih hτ)
      · obtain rfl := List.mem_singleton.mp hτ
        exact List.mem_append_right _ (List.mem_singleton_self _)

/-- Every effect has been added on its own, or belongs to a resource and does not set it at the
start. -/
theorem effect_cases (h : s.Authored Q) {e : Effect} (he : e ∈ s.effects) :
    Q e.fluent ∨ (e.fluent ∈ s.resources ∧ (e.timing = .atStart → e.value = false)) := by
  induction h with
  | new => exact absurd he List.not_mem_nil
  | param _ _ _ ih | require _ _ _ _ ih | draw _ _ _ ih | alone _ ih => exact ih he
  | effect _ _ _ hQ _ ih =>
      rcases List.mem_append.mp he with he | he
      · exact ih he
      · obtain rfl := List.mem_singleton.mp he
        exact Or.inl hQ
  | uses resource _ ih =>
      simp only [Schema.uses, Schema.effect, Schema.require, List.mem_append,
        List.mem_singleton] at he ⊢
      rcases he with (he | rfl) | rfl
      · exact (ih he).imp_right fun ⟨hresource, hvalue⟩ => ⟨Or.inl hresource, hvalue⟩
      · exact Or.inr ⟨Or.inr rfl, fun _ => rfl⟩
      · exact Or.inr ⟨Or.inr rfl, fun h => absurd h (by simp)⟩

end Schema.Authored

/-! ### Events -/

/-- An action **respects** an atom: an action that has it as a resource begins only where it is
true, and if the action has extent its start makes it false; any other action leaves it alone. -/
structure ConvertedAction.Respects (r : AtomId) (a : ConvertedAction α) : Prop where
  needs : r ∈ a.resources → ⟨r, true⟩ ∈ a.start.conditions
  takes : r ∈ a.resources → a.finish?.isSome = true →
    (∃ l ∈ a.start.effects, l.atom = r) ∧ (∀ l ∈ a.start.effects, l.atom = r → l.value = false) ∧
      ∀ g ∈ a.start.groups, r ∉ g.targets
  frame : r ∉ a.resources → ∀ e ∈ a.events, ¬e.Writes r

namespace GroundAction

/-- The events that `convert` makes apply the effects of the action and draw its groups, and do
nothing else. -/
theorem of_writes {a : GroundAction α} {e : Event α} (he : e ∈ a.convert.events) {r : AtomId}
    (hr : e.Writes r) :
    (∃ x ∈ a.effects, x.2.atom = r) ∨ ∃ g ∈ a.groups, r ∈ g.targets := by
  have heffect : ∀ timing, (∃ l ∈ a.effectsAt timing, l.atom = r) →
      ∃ x ∈ a.effects, x.2.atom = r := by
    rintro timing ⟨l, hl, hatom⟩
    exact ⟨(timing, l), mem_effectsAt.mp hl, hatom⟩
  rw [ConvertedAction.events, start_convert, finish?_convert] at he
  split at he
  · obtain rfl := List.mem_singleton.mp he
    refine hr.imp_left ?_
    rintro ⟨l, hl, hatom⟩
    rcases List.mem_append.mp hl with hl | hl
    · exact heffect .atStart ⟨l, hl, hatom⟩
    · exact heffect .atEnd ⟨l, hl, hatom⟩
  · rcases List.mem_cons.mp he with rfl | he
    · rcases hr with hr | ⟨g, hg, -⟩
      · exact Or.inl (heffect .atStart hr)
      · exact absurd hg List.not_mem_nil
    · obtain rfl := List.mem_singleton.mp he
      exact hr.imp_left (heffect .atEnd)

variable {t : AtomTable} {s : Schema α} {a : GroundAction α} {r : AtomId}

/-- **Instances of authored schemas respect resources**: an action of such a schema respects each
atom on which the schema has no effect of its own and which no group targets. -/
theorem Instantiates.respects (ha : a.Instantiates t s)
    (hs : s.Authored fun τ => t.atomOf a.args τ ≠ some r)
    (hgroups : ∀ g ∈ a.groups, r ∉ g.targets) : a.convert.Respects r := by
  -- an effect on the atom belongs to a resource of the schema
  have heffects : ∀ x ∈ a.effects, x.2.atom = r →
      r ∈ a.resources ∧ (x.1 = .atStart → x.2.value = false) := by
    intro x hx hatom
    obtain ⟨e, he, r', hr', rfl⟩ := exists_of_forall₂ ha.effects.flip hx
    obtain rfl : r' = r := hatom
    rcases hs.effect_cases he with hown | ⟨hresource, hvalue⟩
    · exact absurd hr' hown
    · exact ⟨ha.mem_resources.mpr ⟨e.fluent, hresource, hr'⟩, hvalue⟩
  refine ⟨fun hr => ?_, fun hr hextent => ?_, fun hr e he hwrites => ?_⟩
  · obtain ⟨τ, hτ, hbound⟩ := ha.mem_resources.mp hr
    obtain ⟨x, hx, r', hr', rfl⟩ := exists_of_forall₂ ha.conditions (hs.needs hτ)
    obtain rfl : r' = r := Option.some.inj (hr'.symm.trans hbound)
    rw [start_convert]
    split
    · exact mem_conditionsAt.mpr ⟨.atStart, by simp, hx⟩
    · exact mem_conditionsAt.mpr ⟨.atStart, by simp, hx⟩
  · obtain ⟨τ, hτ, hbound⟩ := ha.mem_resources.mp hr
    obtain ⟨x, hx, r', hr', rfl⟩ := exists_of_forall₂ ha.effects (hs.takes hτ)
    obtain rfl : r' = r := Option.some.inj (hr'.symm.trans hbound)
    rw [finish?_convert] at hextent
    split at hextent
    · exact absurd hextent (by simp)
    · next hzero =>
      rw [start_convert, if_neg hzero]
      refine ⟨⟨_, mem_effectsAt.mpr hx, rfl⟩, fun l hl hatom => ?_, fun g hg => ?_⟩
      · exact (heffects _ (mem_effectsAt.mp hl) hatom).2 rfl
      · exact absurd hg List.not_mem_nil
  · rcases of_writes he hwrites with ⟨x, hx, hatom⟩ | ⟨g, hg, htarget⟩
    · exact hr (heffects x hx hatom).1
    · exact hgroups g hg htarget

end GroundAction

end DurativePlanning
