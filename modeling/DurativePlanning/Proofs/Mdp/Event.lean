import DurativePlanning.Mdp.Event
import Mathlib.Data.List.Induction
import Mathlib.Data.List.Nodup

/-!
# Events and the Atoms They Write

What can be said of events without any law of arithmetic: which atoms an event can change, what a
list of effects leaves behind, which sets a sequence of events leads to, and which results remain
when equal ones are taken together.

* `AtomSet.mem_assign`: the members after one assignment.
* `Event.Writes`: the atoms that an event may change, and `Event.mem_iff_of_not_writes` that it
  changes no other.
* `foldl_fire_forall`: what every event of a sequence keeps holds after the sequence.
* `map_snd_addWeight`, `mem_collect`, `nodup_collect`: each result is collected once.
* `collect_map`: results may be renamed before or after they are collected.
-/

namespace DurativePlanning

/-! ### Assignments -/

namespace AtomSet

/-- The members after `assign`: the assigned atom has the assigned value, and any other atom the one
that it had. -/
theorem mem_assign {s : AtomSet} {l : Literal} {x : AtomId} :
    x ∈ s.assign l ↔ (x = l.atom ∧ l.value = true) ∨ (x ≠ l.atom ∧ x ∈ s) := by
  rw [assign]
  split
  · next h => rw [mem_insert]; by_cases hx : x = l.atom <;> simp [h, hx]
  · next h => rw [mem_erase]; simp [h]

/-- `assignAll` assigns the first literal first. -/
theorem assignAll_cons (s : AtomSet) (l : Literal) (rest : List Literal) :
    s.assignAll (l :: rest) = (s.assign l).assignAll rest := rfl

/-- `assignAll` of two lists assigns one after the other. -/
theorem assignAll_append (s : AtomSet) (left right : List Literal) :
    s.assignAll (left ++ right) = (s.assignAll left).assignAll right := List.foldl_append

/-- `assignAll` keeps an atom that no literal assigns. -/
theorem mem_assignAll_of_forall_ne {s : AtomSet} {literals : List Literal} {x : AtomId}
    (h : ∀ l ∈ literals, l.atom ≠ x) : x ∈ s.assignAll literals ↔ x ∈ s := by
  induction literals generalizing s with
  | nil => rfl
  | cons l rest ih =>
      rw [List.forall_mem_cons] at h
      rw [assignAll_cons, ih h.2, mem_assign]
      simp [h.1.symm]

/-- After `assignAll` an atom to which no literal gives the value true is absent, if it was absent
before or some literal assigns it. -/
theorem notMem_assignAll {s : AtomSet} {literals : List Literal} {x : AtomId}
    (hfalse : ∀ l ∈ literals, l.atom = x → l.value = false)
    (h : x ∉ s ∨ ∃ l ∈ literals, l.atom = x) : x ∉ s.assignAll literals := by
  induction literals generalizing s with
  | nil => simpa [assignAll] using h
  | cons l rest ih =>
      rw [List.forall_mem_cons] at hfalse
      rw [assignAll_cons]
      refine ih hfalse.2 ?_
      by_cases hx : l.atom = x
      · exact Or.inl fun hmem => by simp [mem_assign, hfalse.1 hx, hx] at hmem
      · rcases h with habsent | ⟨l', hl', he⟩
        · exact Or.inl fun hmem => by simp [mem_assign, habsent] at hmem; exact hx hmem.1.symm
        · rcases List.mem_cons.mp hl' with rfl | hrest
          · exact absurd he hx
          · exact Or.inr ⟨l', hrest, he⟩

end AtomSet

variable {α : Type}

/-! ### What an event writes -/

/-- The atoms that an event may change: those of its `effects` and the `targets` of its groups. -/
def Event.Writes (e : Event α) (x : AtomId) : Prop :=
  (∃ l ∈ e.effects, l.atom = x) ∨ ∃ g ∈ e.groups, x ∈ g.targets

/-- `EffectGroup.literals` assigns targets of the group only. -/
theorem EffectGroup.atom_mem_targets {g : EffectGroup α} {o : Outcome α} {l : Literal}
    (h : l ∈ g.literals o) : l.atom ∈ g.targets := by
  obtain ⟨⟨target, value⟩, -, hl⟩ := List.mem_filterMap.mp h
  obtain ⟨a, ha, rfl⟩ := Option.map_eq_some_iff.mp hl
  exact List.mem_of_getElem? ha

variable [Arithmetic α]

/-- A joint draw of `jointDistribution` assigns targets of the groups only. -/
theorem atom_mem_targets_of_joint {groups : List (EffectGroup α)} {holds : GroundFluent → Bool}
    {p : α} {literals : List Literal} {l : Literal}
    (h : (p, literals) ∈ (jointDistribution groups holds).outcomes) (hl : l ∈ literals) :
    ∃ g ∈ groups, l.atom ∈ g.targets := by
  -- the draws made so far assign targets only, and each further group adds its own
  suffices H : ∀ (d : Distribution α), (∀ o ∈ d.outcomes, ∀ l ∈ o.2, ∃ g ∈ groups,
      l.atom ∈ g.targets) → ∀ rest ⊆ groups, ∀ o ∈ (rest.foldl
        (fun joint g => joint.product (g.distribution holds)) d).outcomes, ∀ l ∈ o.2,
          ∃ g ∈ groups, l.atom ∈ g.targets by
    refine H .certain ?_ groups (fun _ => id) _ h l hl
    simp [Distribution.certain]
  intro d hd rest hrest
  induction rest generalizing d with
  | nil => exact hd
  | cons g rest ih =>
      refine ih _ ?_ fun x hx => hrest (List.mem_cons_of_mem _ hx)
      rintro o ho l hl
      simp only [Distribution.product, List.mem_flatMap, List.mem_map] at ho
      obtain ⟨left, hleft, right, hright, rfl⟩ := ho
      rcases List.mem_append.mp hl with hl | hl
      · exact hd left hleft l hl
      · simp only [EffectGroup.distribution, Distribution.ofOutcomes, List.mem_filter,
          List.mem_map] at hright
        obtain ⟨⟨o, -, rfl⟩, -⟩ := hright
        exact ⟨g, hrest List.mem_cons_self, EffectGroup.atom_mem_targets hl⟩

/-- **The frame of an event**: an atom that no group targets has after the event the value that
the deterministic effects give it. -/
theorem Event.mem_iff_of_not_target {table : AtomTable} {e : Event α} {s t : AtomSet}
    {x : AtomId} (hx : ∀ g ∈ e.groups, x ∉ g.targets)
    (ht : t ∈ (e.outcomes table s).map Prod.snd) : x ∈ t ↔ x ∈ s.assignAll e.effects := by
  obtain ⟨⟨p, t⟩, hmem, rfl⟩ := List.mem_map.mp ht
  obtain ⟨⟨q, literals⟩, hjoint, he⟩ := List.mem_map.mp hmem
  obtain ⟨-, rfl⟩ := Prod.mk.inj he
  refine AtomSet.mem_assignAll_of_forall_ne fun l hl hlx => ?_
  obtain ⟨g, hg, htarget⟩ := atom_mem_targets_of_joint hjoint hl
  exact hx g hg (hlx ▸ htarget)

/-- An event changes no atom that it does not write. -/
theorem Event.mem_iff_of_not_writes {table : AtomTable} {e : Event α} {s t : AtomSet}
    {x : AtomId} (hx : ¬e.Writes x) (ht : t ∈ (e.outcomes table s).map Prod.snd) :
    x ∈ t ↔ x ∈ s := by
  rw [Event.mem_iff_of_not_target (fun g hg h => hx (Or.inr ⟨g, hg, h⟩)) ht]
  exact AtomSet.mem_assignAll_of_forall_ne fun l hl h => hx (Or.inl ⟨l, hl, h⟩)

/-! ### Sequences of events -/

/-- Every result of `Firing.outcomes` is the set itself or a result of the event, whose conditions
then hold. -/
theorem Firing.mem_outcomes {table : AtomTable} {f : Firing α} {s t : AtomSet}
    (ht : t ∈ (f.outcomes table s).map Prod.snd) :
    t = s ∨ t ∈ (f.event.outcomes table s).map Prod.snd := by
  rw [Firing.outcomes] at ht
  split at ht
  · exact Or.inl (by simpa using ht)
  · exact Or.inr ht

/-- **What every event of a sequence keeps** holds after the sequence, by induction on the events
that `fire` is folded over. -/
theorem foldl_fire_forall {P : AtomSet → Prop} {table : AtomTable} {events : List (Firing α)}
    {branches : List (α × AtomSet)} (hbranches : ∀ s ∈ branches.map Prod.snd, P s)
    (hstep : ∀ f ∈ events, ∀ s, P s → ∀ t ∈ (f.outcomes table s).map Prod.snd, P t) :
    ∀ t ∈ (events.foldl (fire table) branches).map Prod.snd, P t := by
  induction events generalizing branches with
  | nil => exact hbranches
  | cons f rest ih =>
      rw [List.forall_mem_cons] at hstep
      refine ih ?_ hstep.2
      intro t ht
      obtain ⟨⟨p, t⟩, hmem, rfl⟩ := List.mem_map.mp ht
      obtain ⟨⟨q, s⟩, hs, hmem⟩ := List.mem_flatMap.mp hmem
      obtain ⟨⟨r, u⟩, hu, he⟩ := List.mem_map.mp hmem
      obtain ⟨-, rfl⟩ := Prod.mk.inj he
      exact hstep.1 s (hbranches s (List.mem_map.mpr ⟨_, hs, rfl⟩)) u
        (List.mem_map.mpr ⟨_, hu, rfl⟩)

/-- `fireAll` of two sequences fires one after the other. -/
theorem fireAll_append (table : AtomTable) (left right : List (Firing α)) (s : AtomSet) :
    fireAll table (left ++ right) s = right.foldl (fire table) (fireAll table left s) :=
  List.foldl_append

/-! ### Equal results taken together -/

section

variable {β : Type} [DecidableEq β]

/-- `addWeight` puts a result at the end unless it is listed already. -/
theorem map_snd_addWeight (weight : α) (x : β) (l : List (α × β)) :
    (addWeight weight x l).map Prod.snd =
      if x ∈ l.map Prod.snd then l.map Prod.snd else l.map Prod.snd ++ [x] := by
  induction l with
  | nil => rfl
  | cons y rest ih =>
      obtain ⟨w, y⟩ := y
      rw [addWeight]
      by_cases h : y = x
      · simp [h]
      · rw [if_neg h, List.map_cons, ih, List.map_cons]
        simp only [List.mem_cons, Ne.symm h, false_or]
        split <;> rfl

/-- `collect` with one more result adds its weight. -/
theorem collect_concat (l : List (α × β)) (y : α × β) :
    collect (l ++ [y]) = addWeight y.1 y.2 (collect l) := by
  rw [collect, List.foldl_append]
  rfl

/-- A property of weights that sums keep is kept by `addWeight`. -/
theorem forall_addWeight {P : α → Prop} (hadd : ∀ x y, P x → P y → P (x + y)) {weight : α}
    (hweight : P weight) (result : β) {l : List (α × β)} (hl : ∀ x ∈ l, P x.1) :
    ∀ x ∈ addWeight weight result l, P x.1 := by
  induction l with
  | nil => exact List.forall_mem_singleton.mpr hweight
  | cons y rest ih =>
      rw [List.forall_mem_cons] at hl
      rw [addWeight]
      split
      · exact List.forall_mem_cons.mpr ⟨hadd _ _ hl.1 hweight, hl.2⟩
      · exact List.forall_mem_cons.mpr ⟨hl.1, ih hl.2⟩

/-- **Taking equal results together** adds weights: what sums keep holds of `collect`. -/
theorem forall_collect {P : α → Prop} (hadd : ∀ x y, P x → P y → P (x + y)) {l : List (α × β)}
    (hl : ∀ x ∈ l, P x.1) : ∀ x ∈ collect l, P x.1 := by
  induction l using List.reverseRecOn with
  | nil => exact fun x hx => absurd hx List.not_mem_nil
  | append_singleton l y ih =>
      rw [List.forall_mem_append, List.forall_mem_singleton] at hl
      rw [collect_concat]
      exact forall_addWeight hadd hl.2 y.2 (ih hl.1)

/-- `collect` keeps the results. -/
theorem mem_collect {l : List (α × β)} {x : β} :
    x ∈ (collect l).map Prod.snd ↔ x ∈ l.map Prod.snd := by
  induction l using List.reverseRecOn with
  | nil => rfl
  | append_singleton l y ih =>
      rw [collect_concat, map_snd_addWeight, List.map_append, List.mem_append, ← ih]
      split
      · next h =>
        refine ⟨Or.inl, ?_⟩
        rintro (hx | hx)
        · exact hx
        · exact List.mem_singleton.mp hx ▸ h
      · exact List.mem_append

/-- `collect` lists each result once. -/
theorem nodup_collect (l : List (α × β)) : ((collect l).map Prod.snd).Nodup := by
  induction l using List.reverseRecOn with
  | nil => exact List.nodup_nil
  | append_singleton l y ih =>
      rw [collect_concat, map_snd_addWeight]
      split
      · exact ih
      · next h =>
        refine List.nodup_append.mpr ⟨ih, List.nodup_singleton _, ?_⟩
        rintro z hz _ hy rfl
        exact h (List.mem_singleton.mp hy ▸ hz)

/-- Renaming results apart from each other commutes with `addWeight`. -/
theorem addWeight_map {γ : Type} [DecidableEq γ] {g : β → γ} (hg : Function.Injective g)
    (weight : α) (x : β) (l : List (α × β)) :
    addWeight weight (g x) (l.map fun y => (y.1, g y.2)) =
      (addWeight weight x l).map fun y => (y.1, g y.2) := by
  induction l with
  | nil => rfl
  | cons y rest ih =>
      obtain ⟨w, y⟩ := y
      rw [List.map_cons, addWeight, addWeight, ih]
      by_cases h : y = x
      · rw [if_pos h, if_pos (congrArg g h), List.map_cons]
      · rw [if_neg h, if_neg fun he => h (hg he), List.map_cons]

/-- Renaming results apart from each other commutes with `collect`. -/
theorem collect_map {γ : Type} [DecidableEq γ] {g : β → γ} (hg : Function.Injective g)
    (l : List (α × β)) :
    collect (l.map fun y => (y.1, g y.2)) = (collect l).map fun y => (y.1, g y.2) := by
  induction l using List.reverseRecOn with
  | nil => rfl
  | append_singleton l y ih =>
      rw [List.map_append, List.map_singleton, collect_concat, ih, addWeight_map hg,
        collect_concat]

end

end DurativePlanning
