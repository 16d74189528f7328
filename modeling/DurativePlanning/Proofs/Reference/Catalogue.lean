import DurativePlanning.Proofs.Checks
import DurativePlanning.Proofs.Problem.Deadline
import DurativePlanning.Reference.Catalogue
import DurativePlanning.Storage.Cache
import Mathlib.Tactic.SplitIfs

/-!
# What the Reference Domains Depend On

A reference domain is authored from its name, its kind and, for the rovers, their number. The
deadline is set at the very end. So the key under which the bundle of a reference domain is stored
tells everything about the domain but its deadline.

* `Labelled`: all domains that a chain of authoring steps may give have one key.
* `Reference.ofKey`: the reference domain with a key.
* `Reference.ofDomain_build`: the key of a reference domain.
* `Reference.eq_withDeadline_of_key`: two reference domains of one key differ in the deadline only.
-/

namespace DurativePlanning

open Storage

variable {α : Type}

/-! ### Authoring keeps the key -/

/-- Every domain that a chain of authoring steps may give has the `key`. -/
def Labelled (key : CacheKey) (x : Except ModelError (Domain α)) : Prop :=
  ∀ d, x = .ok d → CacheKey.ofDomain d = key

namespace Labelled

variable {key : CacheKey} {β ι : Type}

/-- A step that gives no domain, such as a declaration, before a chain. -/
theorem after {x : Except ModelError β} {f : β → Except ModelError (Domain α)}
    (h : ∀ b, Labelled key (f b)) : Labelled key (x >>= f) := by
  intro d hd
  obtain ⟨b, -, hb⟩ := bind_eq_ok_iff.1 hd
  exact h b d hb

theorem andThen {key' : CacheKey} {x : Except ModelError (Domain α)}
    {f : Domain α → Except ModelError (Domain α)} (hx : Labelled key x)
    (h : ∀ d, CacheKey.ofDomain d = key → Labelled key' (f d)) : Labelled key' (x >>= f) := by
  intro d hd
  obtain ⟨b, hb, hd⟩ := bind_eq_ok_iff.1 hd
  exact h b (hx b hb) d hd

/-- A loop of steps that keep the key of the domain keeps it. -/
theorem foldlM {step : Domain α → ι → Except ModelError (Domain α)}
    (hstep : ∀ d x, Labelled (.ofDomain d) (step d x)) (l : List ι) {d : Domain α}
    (hd : CacheKey.ofDomain d = key) : Labelled key (l.foldlM step d) := by
  induction l generalizing d with
  | nil =>
    rintro _ ⟨⟩
    exact hd
  | cons x rest ih =>
    rw [List.foldlM_cons]
    subst hd
    exact (hstep d x).andThen fun _ => ih

/-- `addSchema` keeps the key. -/
theorem addSchema (d : Domain α) (s : Schema α) :
    Labelled (.ofDomain d) ((·.2) <$> d.addSchema s) := by
  unfold Domain.addSchema
  split
  · rintro _ ⟨⟩
  · rintro _ ⟨⟩
    rfl

/-- `addSchema` and `addGrounding` of its tuples keep the key. -/
theorem addRestricted (d : Domain α) (s : Schema α) (tuples : List (List ObjectId)) :
    Labelled (.ofDomain d) (do
      let (id, d) ← d.addSchema s
      return d.addGrounding id tuples) := by
  unfold Domain.addSchema
  split
  · rintro _ ⟨⟩
  · rintro _ ⟨⟩
    rfl

/-- `build` keeps the key. -/
theorem build {d : Domain α} (hd : CacheKey.ofDomain d = key) : Labelled key d.build := by
  refine after fun _ => ?_
  rintro _ ⟨⟩
  exact hd

end Labelled

/-- A loop of changes that keep the key keeps it. -/
theorem ofDomain_foldl {ι : Type} {step : Domain α → ι → Domain α}
    (hstep : ∀ d x, CacheKey.ofDomain (step d x) = CacheKey.ofDomain d) (l : List ι)
    (d : Domain α) : CacheKey.ofDomain (l.foldl step d) = CacheKey.ofDomain d := by
  induction l generalizing d with
  | nil => rfl
  | cons x rest ih => rw [List.foldl_cons, ih, hstep]

/-- Initial values keep the key. -/
theorem ofDomain_addInitials {ι : Type} (f : ι → GroundFluent) (l : List ι) (d : Domain α) :
    CacheKey.ofDomain (l.foldl (fun d x => d.addInitial (f x) true) d) = CacheKey.ofDomain d := by
  apply ofDomain_foldl
  exact fun _ _ => rfl

/-- Goals keep the key. -/
theorem ofDomain_addGoals {ι : Type} (f : ι → GroundFluent) (l : List ι) (d : Domain α) :
    CacheKey.ofDomain (l.foldl (fun d x => d.addGoal (f x) true) d) = CacheKey.ofDomain d := by
  apply ofDomain_foldl
  exact fun _ _ => rfl

/-- The sizes of a domain are the sizes of its key. -/
theorem ofDomain_withSizes {key : CacheKey} {d : Domain α} (hd : CacheKey.ofDomain d = key)
    (sizes : List Nat) : CacheKey.ofDomain { d with sizeParams := sizes } = { key with sizes } := by
  subst hd
  rfl

namespace Reference

variable {kind : DomainKind} {deadline deadline' n : Nat}

/-! ### The three domains -/

/-- The assembly domain has the key of its name and its kind, without sizes. -/
theorem labelled_fullConc :
    Labelled ⟨"full_conc", kind, []⟩ (fullConc (α := α) kind deadline) := by
  unfold fullConc
  refine .after fun (_, _) => .after fun _ => .after fun (_, _) => .after fun _ => .after fun _ => ?_
  exact (Labelled.foldlM Labelled.addSchema _ rfl).andThen fun d hd =>
    .build ((ofDomain_addGoals _ _ d).trans hd)

variable [Arithmetic α]

/-- The domain of the stuck car has the key of its name and its kind, without sizes. -/
theorem labelled_stuckCar :
    Labelled ⟨"stuck_car_1o", kind, []⟩ (stuckCar (α := α) kind deadline) := by
  unfold stuckCar
  -- four types, six objects and six fluents
  iterate 16 refine .after fun (_, _) => ?_
  exact (Labelled.foldlM Labelled.addSchema _ rfl).andThen fun d hd => .build hd

/-- The domain of the rovers has the key of its name, its kind and the number of rovers. -/
theorem labelled_rover :
    Labelled ⟨"nasa_rover", kind, [n]⟩ (rover (α := α) kind deadline n) := by
  unfold rover
  refine .after fun (_, _) => .after fun _ => .after fun (_, _) => ?_
  refine (Labelled.foldlM (fun d (_, _) => .addRestricted d _ _) _
    (ofDomain_addInitials _ _ _)).andThen fun d hd => .build ?_
  exact ofDomain_withSizes ((ofDomain_addGoals _ _ _).trans ((ofDomain_addGoals _ _ d).trans hd)) [n]

/-! ### The key tells the domain -/

/-- The reference domain with a key and a deadline, for the keys that reference domains have. -/
def ofKey (key : CacheKey) (deadline : Nat) : Except ModelError (Domain α) :=
  if key.domain = "full_conc" then fullConc key.kind deadline
  else if key.domain = "stuck_car_1o" then stuckCar key.kind deadline
  else rover key.kind deadline (key.sizes.headD 0)

/-- **The deadline is set last**: `ofKey` with another deadline authors the same domain, or the same
step fails. -/
theorem ofKey_withDeadline (key : CacheKey) :
    ofKey (α := α) key deadline' = (·.withDeadline deadline') <$> ofKey key deadline := by
  unfold ofKey
  split_ifs
  · simp only [fullConc, map_bind, ← Domain.build_withDeadline]
    rfl
  · simp only [stuckCar, map_bind, ← Domain.build_withDeadline]
    rfl
  · simp only [rover, map_bind, ← Domain.build_withDeadline]
    rfl

/-! ### The catalogue -/

/-- Whichever domain the catalogue gives, it was authored under its own name. -/
theorem build_cases {name : String} {objects garbage : Nat} {d : Domain α}
    (h : build name kind deadline objects garbage = .ok d) :
    name = "full_conc" ∧ fullConc kind deadline = .ok d ∨
      name = "stuck_car_1o" ∧ stuckCar kind deadline = .ok d ∨
      name = "nasa_rover" ∧ rover kind deadline objects = .ok d := by
  have hauthored : ∀ {x : Except ModelError (Domain α)}, authored x = .ok d → x = .ok d := by
    intro x hx
    cases x with
    | error cause => cases hx
    | ok domain =>
      cases hx
      rfl
  unfold build at h
  split at h
  · cases h
  · split at h
    · exact .inl ⟨rfl, hauthored h⟩
    · exact .inr (.inl ⟨rfl, hauthored h⟩)
    · exact .inr (.inr ⟨rfl, hauthored h⟩)
    · cases h

/-- The key of a reference domain is made of its name, its kind and the number of rovers. -/
theorem ofDomain_build {name : String} {objects garbage : Nat} {d : Domain α}
    (h : build name kind deadline objects garbage = .ok d) :
    CacheKey.ofDomain d = ⟨name, kind, if name = "nasa_rover" then [objects] else []⟩ := by
  rcases build_cases h with ⟨rfl, hd⟩ | ⟨rfl, hd⟩ | ⟨rfl, hd⟩
  · exact labelled_fullConc d hd
  · exact labelled_stuckCar d hd
  · exact labelled_rover d hd

/-- **The key tells the domain**: `ofKey` with its deadline authors it again. -/
theorem ofKey_ofDomain {name : String} {objects garbage : Nat} {d : Domain α}
    (h : build name kind deadline objects garbage = .ok d) :
    ofKey (.ofDomain d) deadline = .ok d := by
  rw [ofDomain_build h]
  rcases build_cases h with ⟨rfl, hd⟩ | ⟨rfl, hd⟩ | ⟨rfl, hd⟩
  · exact hd
  · exact hd
  · exact hd

/-- Two reference domains of one key are the same but for the deadline. -/
theorem eq_withDeadline_of_key {name name' : String} {kind' : DomainKind}
    {objects objects' garbage garbage' : Nat} {d d' : Domain α}
    (h : build name kind deadline objects garbage = .ok d)
    (h' : build name' kind' deadline' objects' garbage' = .ok d')
    (hkey : CacheKey.ofDomain d' = CacheKey.ofDomain d) : d' = d.withDeadline deadline' := by
  have hd' := ofKey_ofDomain h'
  rw [hkey, ofKey_withDeadline, ofKey_ofDomain h] at hd'
  exact (Except.ok.inj hd').symm

end Reference

end DurativePlanning
