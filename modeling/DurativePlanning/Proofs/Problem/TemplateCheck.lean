import DurativePlanning.Proofs.Problem.Typing
import Mathlib.Data.Rat.Init

/-!
# The Check of Templates Is Exact

A template is checked once, against the parameter types of its schema, and what it stands for is
checked again, for each tuple of objects, as a ground fluent. The two checks are written
independently: one goes through terms, the other through objects. Under a tuple that suits the
schema they agree, whatever is wrong with the template. So a template is accepted exactly when all
suitable tuples turn it into a ground fluent that passes, provided that there are any such tuples.

* `Schema.termType_eq_ok_iff`: the type of a term is the type of what it stands for.
* `Schema.checkTemplate_eq_ok_iff`: the two checks agree under each suitable tuple.
* `Schema.exists_suits`: a schema whose parameter types have objects has a suitable tuple.
* `Schema.checkTemplate_exact`: the check of a template against all suitable tuples.
-/

namespace DurativePlanning

variable {α : Type} {u : Universe}

namespace Schema

variable {s : Schema α} {tuple : List ObjectId}

/-- `List.mapM` that gives a result on all members gives it place by place. -/
theorem forall₂_of_mapM_eq_some {β γ : Type} {f : β → Option γ} {l : List β} {l' : List γ}
    (h : l.mapM f = some l') : List.Forall₂ (fun x y => f x = some y) l l' := by
  induction l generalizing l' with
  | nil =>
      obtain rfl := Option.some.inj h
      exact .nil
  | cons x rest ih =>
      simp only [List.mapM_cons, Option.bind_eq_bind, Option.bind_eq_some_iff] at h
      obtain ⟨y, hy, others, hothers, h⟩ := h
      obtain rfl := Option.some.inj h
      exact .cons hy (ih hothers)

/-- The objects of a tuple that suits a schema have the types of the parameters. -/
theorem Suits.typeOf? (hsuits : s.Suits u tuple) (i : ℕ) :
    tuple[i]?.map u.typeOf? = s.params[i]?.map fun p => some p.2 := by
  have hplace := congrArg (fun types => types[i]?) hsuits
  simpa only [List.getElem?_map, Option.map_map, Function.comp_def] using hplace

/-- **The type of a term**: `termType` is the type of the object that the term stands for. -/
theorem termType_eq_ok_iff (hsuits : s.Suits u tuple) {term : Term} {type : TypeId} :
    s.termType u term = .ok type ↔ ∃ o, term.bind tuple = some o ∧ u.typeOf? o = some type := by
  refine ⟨exists_bind_of_termType hsuits, ?_⟩
  rintro ⟨o, hbind, htype⟩
  cases term with
  | param index =>
      have hplace := hsuits.typeOf? index
      rw [show tuple[index]? = some o from hbind, Option.map_some, htype] at hplace
      obtain ⟨⟨name, type'⟩, hparam, htype'⟩ := Option.map_eq_some_iff.mp hplace.symm
      obtain rfl := Option.some.inj htype'
      rw [termType, hparam]
  | object id =>
      obtain rfl := Option.some.inj hbind
      obtain ⟨decl, hdecl, rfl⟩ := Universe.typeOf?_eq_some_iff.mp htype
      rw [termType, hdecl]

/-- **The check of terms** passes when the terms stand for objects of the expected types. -/
theorem checkTerms_of_forall₂ (hsuits : s.Suits u tuple) {fluent : String} {types : List TypeId}
    {terms : List Term} {objects : List ObjectId}
    (hobjects : List.Forall₂ (fun term o => term.bind tuple = some o) terms objects)
    (htypes : objects.map u.typeOf? = types.map some) :
    s.checkTerms u fluent types terms = .ok () := by
  induction hobjects generalizing types with
  | nil =>
      obtain rfl := List.map_eq_nil_iff.mp htypes.symm
      rfl
  | @cons term o _ _ hbind _ ih =>
      obtain ⟨expected, types, rfl, htype, htypes⟩ := List.map_eq_cons_iff.mp htypes.symm
      rw [checkTerms, (termType_eq_ok_iff hsuits).mpr ⟨o, hbind, htype.symm⟩]
      exact (if_pos rfl).trans (ih htypes.symm)

/-- **The two checks agree** under each tuple that suits the schema: `checkTemplate` accepts the
template exactly when it stands for a ground fluent, and that one is `WellTyped`. -/
theorem checkTemplate_eq_ok_iff (hsuits : s.Suits u tuple) {τ : Template} :
    s.checkTemplate u τ = .ok () ↔ ∃ f, τ.bind tuple = some f ∧ u.WellTyped f := by
  refine ⟨exists_bind_of_checkTemplate hsuits, ?_⟩
  rintro ⟨f, hbind, decl, hdecl, htypes⟩
  obtain ⟨objects, hobjects, rfl⟩ := Option.map_eq_some_iff.mp hbind
  have hplaces := forall₂_of_mapM_eq_some hobjects
  have hlength : decl.params.length = τ.args.length := by
    rw [hplaces.length_eq]
    simpa using (congrArg List.length htypes).symm
  rw [checkTemplate, hdecl]
  exact (if_pos hlength).trans (checkTerms_of_forall₂ hsuits hplaces htypes)

/-- A schema has a suitable tuple when each of its parameter types has an object. -/
theorem exists_suits (hobjects : ∀ p ∈ s.params, u.objectsOf p.2 ≠ []) :
    ∃ tuple, s.Suits u tuple := by
  have hchosen : ∀ types : List TypeId, (∀ type ∈ types, u.objectsOf type ≠ []) →
      ∃ tuple : List ObjectId, tuple.map u.typeOf? = types.map some := by
    intro types htypes
    induction types with
    | nil => exact ⟨[], rfl⟩
    | cons type types ih =>
        rw [List.forall_mem_cons] at htypes
        obtain ⟨o, ho⟩ := List.exists_mem_of_ne_nil _ htypes.1
        obtain ⟨tuple, htuple⟩ := ih htypes.2
        exact ⟨o :: tuple, by rw [List.map_cons, Universe.mem_objectsOf.mp ho, htuple]; rfl⟩
  exact hchosen _ fun type htype => by
    obtain ⟨p, hp, rfl⟩ := List.mem_map.mp htype
    exact hobjects p hp

/-- **The check of templates is exact.** An accepted template stands, under every tuple with the
parameter types of the schema, for a ground fluent that passes the check of signatures; this needs
no objects. When each parameter type has an object, only accepted templates do so, and a template
that is refused is at fault under some tuple, and even under every tuple, with these types: it
stands for no ground fluent there, or for one that the check of signatures refuses. -/
theorem checkTemplate_exact (u : Universe) (s : Schema α) (τ : Template) :
    (s.checkTemplate u τ = .ok () → ∀ tuple, s.Suits u tuple →
      ∃ f, τ.bind tuple = some f ∧ u.checkSignature f = .ok ()) ∧
    ((∀ p ∈ s.params, u.objectsOf p.2 ≠ []) →
      (s.checkTemplate u τ = .ok () ↔ ∀ tuple, s.Suits u tuple →
        ∃ f, τ.bind tuple = some f ∧ u.checkSignature f = .ok ()) ∧
      ∀ e, s.checkTemplate u τ = .error e →
        (∃ tuple, s.Suits u tuple) ∧ ∀ tuple, s.Suits u tuple →
          ∀ f, τ.bind tuple = some f → ∃ e', u.checkSignature f = .error e') := by
  simp only [Universe.checkSignature_eq_ok_iff]
  have haccepts : s.checkTemplate u τ = .ok () → ∀ tuple, s.Suits u tuple →
      ∃ f, τ.bind tuple = some f ∧ u.WellTyped f :=
    fun h tuple hsuits => (checkTemplate_eq_ok_iff hsuits).mp h
  refine ⟨haccepts, fun hobjects => ?_⟩
  obtain ⟨tuple, hsuits⟩ := exists_suits hobjects
  refine ⟨⟨haccepts, fun h => (checkTemplate_eq_ok_iff hsuits).mpr (h tuple hsuits)⟩, ?_⟩
  intro e he
  refine ⟨⟨tuple, hsuits⟩, fun tuple' hsuits' f hf => ?_⟩
  cases hsignature : u.checkSignature f with
  | error e' => exact ⟨e', rfl⟩
  | ok _ =>
      have hok := (checkTemplate_eq_ok_iff hsuits').mpr
        ⟨f, hf, Universe.checkSignature_eq_ok_iff.mp hsignature⟩
      exact absurd (he.symm.trans hok) (by simp)

/-- A garden with a rose and a spade. -/
def garden : Universe where
  types := #[⟨"plant"⟩, ⟨"tool"⟩]
  objects := #[⟨"rose", ⟨0⟩⟩, ⟨"spade", ⟨1⟩⟩]
  fluents := #[⟨"watered", [⟨0⟩], false⟩]

/-- Looking after a plant. -/
def tending : Schema ℚ := { name := "tend", params := [("what", ⟨0⟩)], duration := 1 }

/-- In the garden the plant of a schema can be watered. A spade cannot, and neither can a second
parameter, which is not there. -/
theorem checkTemplate_exact_garden :
    (∀ p ∈ tending.params, garden.objectsOf p.2 ≠ []) ∧ tending.Suits garden [⟨0⟩] ∧
      (∃ f, Template.bind [⟨0⟩] ⟨⟨0⟩, [.param 0]⟩ = some f ∧ garden.checkSignature f = .ok ()) ∧
      ∀ term ∈ [Term.object ⟨1⟩, .param 1], ∃ e, tending.checkTemplate garden ⟨⟨0⟩, [term]⟩ =
        .error e ∧ ∀ f, Template.bind [⟨0⟩] ⟨⟨0⟩, [term]⟩ = some f →
          ∃ e', garden.checkSignature f = .error e' := by
  have hobjects : ∀ p ∈ tending.params, garden.objectsOf p.2 ≠ [] := by decide
  have hsuits : tending.Suits garden [⟨0⟩] := rfl
  refine ⟨hobjects, hsuits, (checkTemplate_exact garden tending _).1 rfl _ hsuits, ?_⟩
  have hrefused : ∀ term ∈ [Term.object ⟨1⟩, .param 1],
      ∃ e, tending.checkTemplate garden ⟨⟨0⟩, [term]⟩ = .error e := by
    rw [List.forall_mem_cons, List.forall_mem_singleton]
    exact ⟨⟨_, rfl⟩, ⟨_, rfl⟩⟩
  intro term hterm
  obtain ⟨e, he⟩ := hrefused term hterm
  exact ⟨e, he, (((checkTemplate_exact garden tending _).2 hobjects).2 e he).2 _ hsuits⟩

end Schema

end DurativePlanning
