import DurativePlanning.Proofs.Mdp.Combination
import DurativePlanning.Proofs.Problem.Naming
import DurativePlanning.Proofs.Problem.Replacement
import Mathlib.Data.Rat.Floor

/-!
# Names of Decisions

A decision is named after the action that it begins or runs, and a combination after its two parts.
The signs that are added to the names of ground actions stand in none of them, so names of decisions
can be told apart as well, and a decision is found by its name.

* `Mdp.NamesIdentify`: what it means for names to identify decisions.
* `nodup_splitNames`, `nodup_combinationNames`: the names of the decisions of both modes.
* `Domain.names_identify`: names identify the decisions of every process of an authored domain.
-/

namespace DurativePlanning

variable {α : Type}

/-- **Names identify decisions**: no two decisions share one, and `actionIndex?` finds each by the
name that `actionName?` gives it. -/
structure Mdp.NamesIdentify (m : Mdp α) : Prop where
  apart : (m.actions.toList.map Prod.fst).Nodup
  found : ∀ a < m.actions.size, ∃ name, m.actionName? a = some name ∧ m.actionIndex? name = some a

/-- When no two decisions share a name, `actionIndex?` finds each by its name. -/
theorem Mdp.namesIdentify_of_nodup {m : Mdp α} (h : (m.actions.toList.map Prod.fst).Nodup) :
    m.NamesIdentify where
  apart := h
  found a ha := by
    refine ⟨m.actions[a].1, by simp [actionName?, Array.getElem?_eq_getElem ha], ?_⟩
    rw [actionIndex?, Array.findIdx?_eq_some_iff_getElem]
    refine ⟨ha, by simp, fun b hb hname => ?_⟩
    have hlt : b < m.actions.size := hb.trans ha
    have hsame : (m.actions.toList.map Prod.fst)[b]? = (m.actions.toList.map Prod.fst)[a]? := by
      simpa [Array.getElem?_eq_getElem hlt, Array.getElem?_eq_getElem ha] using hname
    exact hb.ne ((List.getElem?_inj (by simpa using hlt) h).mp hsame)

/-- Numbered members of a list, without their numbers. -/
theorem map_mapIdx_eq_map {β γ δ : Type} (l : List β) {f : ℕ → β → γ} {F : γ → δ} {G : β → δ}
    (h : ∀ i x, F (f i x) = G x) : (l.mapIdx f).map F = l.map G := by
  refine List.ext_getElem? fun i => ?_
  rw [List.getElem?_map, List.getElem?_mapIdx, List.getElem?_map, Option.map_map]
  exact congrArg (Option.map · l[i]?) (funext fun x => h i x)

/-! ### Split mode -/

/-- `splitActions` names the decisions after the first events of the actions, and the last one
`wait`. -/
theorem splitNames (singles : List (ConvertedAction α)) :
    (Mdp.splitActions singles).map Prod.fst = singles.map (·.start.name) ++ ["wait"] := by
  have hname : ∀ (i : ℕ) (a : ConvertedAction α), (Mdp.startOf a i).1 = a.start.name := by
    intro i a
    rw [Mdp.startOf, ConvertedAction.start]
    cases a.course <;> rfl
  rw [Mdp.splitActions, List.map_append, map_mapIdx_eq_map singles hname]
  rfl

/-- The first event of a ground action with extent has the suffix `@start`. -/
theorem GroundAction.name_start_convert (a : GroundAction α) :
    a.convert.start.name = if a.duration = 0 then a.name else a.name ++ "@start" := by
  by_cases hduration : a.duration = 0
  · simp only [ConvertedAction.start, convert, if_pos hduration, wholeEvent]
  · simp only [ConvertedAction.start, convert, if_neg hduration, startEvent]

/-- `GroundAction.convert` keeps the name. -/
theorem GroundAction.name_convert (a : GroundAction α) : a.convert.name = a.name := by
  by_cases hduration : a.duration = 0
  · simp only [ConvertedAction.name, convert, if_pos hduration, wholeEvent]
  · simp only [ConvertedAction.name, convert, if_neg hduration]

/-- Equal names of the first events come from equal names of the actions, where these have no `@`:
the suffix tells whether an action has extent, and is taken off again. -/
theorem GroundAction.name_eq_of_start {a b : GroundAction α} (ha : '@' ∉ a.name.toList)
    (hb : '@' ∉ b.name.toList) (h : a.convert.start.name = b.convert.start.name) :
    a.name = b.name := by
  have hmark : ∀ name : String, '@' ∈ (name ++ "@start").toList := by simp
  rw [name_start_convert, name_start_convert] at h
  split at h
  · split at h
    · exact h
    · exact absurd (h ▸ hmark b.name) ha
  · split at h
    · exact absurd (h ▸ hmark a.name) hb
    · exact (String.append_left_inj _).mp h

/-- Ground actions with names of their own, none of which has an `@` or is called `wait` and without
extent, make decisions of `splitActions` that have names of their own. -/
theorem nodup_splitNames {actions : List (GroundAction α)} (hnames : (actions.map (·.name)).Nodup)
    (hat : ∀ a ∈ actions, '@' ∉ a.name.toList)
    (hwait : ∀ a ∈ actions, a.duration = 0 → a.name ≠ "wait") :
    ((Mdp.splitActions (actions.map (·.convert))).map Prod.fst).Nodup := by
  rw [splitNames, List.map_map, List.nodup_append]
  refine ⟨List.pairwise_map.mpr ?_, List.nodup_singleton _, ?_⟩
  · exact (List.pairwise_map.mp hnames).imp_of_mem fun ha hb hne hstart =>
      hne (GroundAction.name_eq_of_start (hat _ ha) (hat _ hb) hstart)
  · rintro _ hname _ hlast rfl
    obtain ⟨a, ha, hstart⟩ := List.mem_map.mp hname
    rw [List.mem_singleton.mp hlast, Function.comp_apply, GroundAction.name_start_convert] at hstart
    split at hstart
    · next hduration => exact hwait a ha hduration hstart
    · have hmark : '@' ∈ (a.name ++ "@start").toList := by simp
      rw [hstart] at hmark
      exact absurd hmark (by decide)

/-! ### Combination mode -/

/-- `combinationActions` names the decisions after the actions, and then after the combinations. -/
theorem combinationNames (singles : List (ConvertedAction α)) (combinations : List Combination) :
    (Mdp.combinationActions singles combinations).map Prod.fst =
      singles.map (·.name) ++ combinations.map (·.name) := by
  rw [Mdp.combinationActions, List.map_append]
  exact congrArg₂ (· ++ ·) (map_mapIdx_eq_map singles fun _ _ => rfl)
    (map_mapIdx_eq_map combinations fun _ _ => rfl)

/-- The name of `joined` tells the names of its parts, where the second one has no bar. -/
theorem name_joined_inj {i j i' j' : ℕ} {a b a' b' : ConvertedAction α} (hb : '|' ∉ b.name.toList)
    (hb' : '|' ∉ b'.name.toList) (h : (joined i j a b).name = (joined i' j' a' b').name) :
    a.name = a'.name ∧ b.name = b'.name := by
  have hchars : a.name.toList ++ '|' :: b.name.toList = a'.name.toList ++ '|' :: b'.name.toList := by
    simpa [joined] using congrArg String.toList h
  obtain ⟨hfirst, hsecond⟩ := Storage.append_cons_inj hb hb' hchars
  exact ⟨String.toList_inj.mp hfirst, String.toList_inj.mp hsecond⟩

/-- An action with a name of its own has one position, by `List.Nodup`. -/
theorem position_eq_of_name {actions : List (ConvertedAction α)}
    (hnames : (actions.map (·.name)).Nodup) {i j : ℕ} {a b : ConvertedAction α}
    (ha : actions[i]? = some a) (hb : actions[j]? = some b) (h : a.name = b.name) : i = j := by
  have hi : i < (actions.map (·.name)).length := by
    simpa using (List.getElem?_eq_some_iff.mp ha).1
  have hsame : (actions.map (·.name))[i]? = (actions.map (·.name))[j]? := by
    simp [ha, hb, h]
  exact (List.getElem?_inj hi hnames).mp hsame

/-- Actions with names of their own, none of which has a bar, make decisions of `combinationActions`
that have names of their own. -/
theorem nodup_combinationNames {actions : List (ConvertedAction α)} {may : ConvertedAction α → Prop}
    {combinations : List Combination} (hnames : (actions.map (·.name)).Nodup)
    (hbar : ∀ a ∈ actions, '|' ∉ a.name.toList) (h : Combines actions may combinations) :
    ((Mdp.combinationActions actions combinations).map Prod.fst).Nodup := by
  rw [combinationNames, List.nodup_append]
  refine ⟨hnames, List.Nodup.map_on ?_ h.ascending.nodup, ?_⟩
  · intro c hc c' hc' hname
    obtain ⟨i, j, a, b, -, ha, hb, -, -, -, rfl⟩ := (h.mem_iff c).mp hc
    obtain ⟨i', j', a', b', -, ha', hb', -, -, -, rfl⟩ := (h.mem_iff c').mp hc'
    obtain ⟨hfirst, hsecond⟩ := name_joined_inj (hbar b (List.mem_of_getElem? hb))
      (hbar b' (List.mem_of_getElem? hb')) hname
    obtain rfl := position_eq_of_name hnames ha ha' hfirst
    obtain rfl := position_eq_of_name hnames hb hb' hsecond
    rw [Option.some.inj (ha.symm.trans ha'), Option.some.inj (hb.symm.trans hb')]
  · rintro _ hsingle _ hcombined rfl
    obtain ⟨a, ha, rfl⟩ := List.mem_map.mp hsingle
    obtain ⟨c, hc, hname⟩ := List.mem_map.mp hcombined
    obtain ⟨i, j, b, b', -, -, -, -, -, -, rfl⟩ := (h.mem_iff c).mp hc
    have hsign : '|' ∈ (joined i j b b').name.toList := by simp [joined]
    rw [hname] at hsign
    exact hbar a ha hsign

/-! ### Authored domains -/

namespace Domain

variable {authored d : Domain α} {g : GroundProblem α}

/-- A ground action stands for an instance that the domain `Allows`, with its name and its
duration. -/
theorem exists_instance (h : d.ground = .ok g) {a : GroundAction α} (ha : a ∈ g.actions) :
    ∃ x, d.Allows x ∧ a.name = d.nameOf x ∧ a.duration = x.schema.duration := by
  obtain ⟨x, hx, hreads⟩ := exists_of_forall₂ (reads_of_ground h) ha
  have hmem : x.2 ∈ d.instances := map_snd_applications d ▸ List.mem_map_of_mem hx
  exact ⟨x.2, (embodies_of_ground h).suits x.2 hmem, hreads.name, hreads.duration⟩

/-- Neither `@` nor a bar stands in the name of a ground action. -/
theorem NamesPlain.groundName (hplain : d.NamesPlain) (h : d.ground = .ok g) {c : Char}
    (hc : c ∈ ['|', '@']) : ∀ a ∈ g.actions, c ∉ a.name.toList := by
  intro a ha
  obtain ⟨x, hx, hname, -⟩ := exists_instance h ha
  have hseparator : c ∈ separators :=
    (by simp [separators] : ∀ c ∈ ['|', '@'], c ∈ separators) c hc
  rw [hname]
  exact notMem_applied ((hplain.schemas _ hx.1).notMem hseparator)
    (fun arg harg => (hplain.argument hx arg harg).notMem hseparator)
    ((by simp : ∀ c ∈ ['|', '@'], c ∉ ['(', ')', ',', ' ']) c hc)

/-- A ground action without extent is called like waiting only if its schema is, and has no
parameters. -/
theorem NamesPlain.groundName_ne_wait (hplain : d.NamesPlain) (h : d.ground = .ok g)
    (hwait : ∀ s ∈ d.schemas, s.params = [] → s.duration = 0 → s.name ≠ "wait") :
    ∀ a ∈ g.actions, a.duration = 0 → a.name ≠ "wait" := by
  intro a ha hduration hname
  obtain ⟨x, hx, happlied, hextent⟩ := exists_instance h ha
  have hcomma : ∀ arg ∈ x.tuple.map d.declarations.objectName, ',' ∉ arg.toList :=
    fun arg harg => (hplain.argument hx arg harg).notMem (by decide)
  have hnone : ∀ arg ∈ ([] : List String), ',' ∉ arg.toList := by simp
  have hsame : applied x.schema.name (x.tuple.map d.declarations.objectName) = applied "wait" [] :=
    happlied.symm.trans hname
  obtain ⟨hcalled, hargs⟩ := applied_inj ((hplain.schemas _ hx.1).notMem (by decide)) (by decide)
    hcomma hnone hsame
  have hparams : x.schema.params = [] := by
    have hsuits := hx.2
    rw [Schema.Suits, List.map_eq_nil_iff.mp hargs] at hsuits
    simpa using hsuits
  exact hwait x.schema hx.1 hparams (hextent.symm.trans hduration) hcalled

variable [Arithmetic α] {discount : α} {m : Mdp α}

/-- `NamesIdentify` holds in split mode when ground actions have names of their own. -/
theorem namesIdentify_ofConverted (hplain : d.NamesPlain) (h : d.ground = .ok g)
    (hnames : (g.actions.map (·.name)).Nodup)
    (hwait : ∀ s ∈ d.schemas, s.params = [] → s.duration = 0 → s.name ≠ "wait")
    (hm : Mdp.ofConverted g.convert discount = .ok m) : m.NamesIdentify := by
  obtain ⟨-, rfl⟩ := Mdp.ofConverted_eq_ok_iff.mp hm
  exact Mdp.namesIdentify_of_nodup (nodup_splitNames hnames (hplain.groundName h (by decide))
    (hplain.groundName_ne_wait h hwait))

/-- `NamesIdentify` holds in combination mode when ground actions have names of their own, also
where some combinations were dropped. -/
theorem namesIdentify_ofCombination (hplain : d.NamesPlain) (h : d.ground = .ok g)
    (hnames : (g.actions.map (·.name)).Nodup) {may : ConvertedAction α → Prop}
    {combinations : List Combination} (hcombines : Combines g.convert.actions may combinations)
    (hm : Mdp.ofCombination ⟨g.core, g.convert.actions, combinations⟩ discount = .ok m) :
    m.NamesIdentify := by
  obtain ⟨-, rfl⟩ := Mdp.ofCombination_eq_ok_iff.mp hm
  have hconverted : g.convert.actions.map (·.name) = g.actions.map (·.name) := by
    rw [GroundProblem.convert, List.map_map]
    exact List.map_congr_left fun a _ => a.name_convert
  refine Mdp.namesIdentify_of_nodup (nodup_combinationNames (hconverted ▸ hnames) ?_ hcombines)
  intro c hc
  obtain ⟨a, ha, rfl⟩ := List.mem_map.mp hc
  rw [a.name_convert]
  exact hplain.groundName h (by decide) a ha

/-- **Names identify decisions.** Take any domain that was authored and accepted, in which no
separator stands in a name of an object or a schema, no list of tuples repeats one, and no schema
without parameters and extent is called like waiting. Then in every process that the domain is
compiled to, in either mode, no two decisions have the same name, and each is found by its name. -/
theorem names_identify (hauthored : authored.Authored) (hbuild : authored.build = .ok d)
    (hplain : d.NamesPlain) (htuples : ∀ id tuples, d.tuples? id = some tuples → tuples.Nodup)
    (hwait : ∀ s ∈ d.schemas, s.params = [] → s.duration = 0 → s.name ≠ "wait") :
    (∀ p discount m, d.compileSplit = .ok p →
      (Mdp.ofConverted p discount = .ok m ∨ Mdp.ofCombination p.combine discount = .ok m) →
        m.NamesIdentify) ∧
    ∀ b discount m, d.compileCombination = .ok b →
      (Mdp.ofConverted b.split discount = .ok m ∨ Mdp.ofCombination b.combination discount = .ok m) →
        m.NamesIdentify := by
  obtain ⟨-, rfl⟩ := build_eq_ok_iff.mp hbuild
  have hnames : ∀ {g}, d.ground = .ok g → (g.actions.map (·.name)).Nodup := fun hg =>
    nodup_groundNames hauthored.namesApart hplain htuples hg
  constructor
  · intro p discount m hp hm
    obtain ⟨g, hg, hp⟩ := bind_eq_ok_iff.mp hp
    obtain rfl := Except.ok.inj hp
    rcases hm with hm | hm
    · exact namesIdentify_ofConverted hplain hg (hnames hg) hwait hm
    · exact namesIdentify_ofCombination hplain hg (hnames hg) g.convert.combines_combine hm
  · intro b discount m hb hm
    obtain ⟨p, hp, hb⟩ := bind_eq_ok_iff.mp hb
    obtain ⟨g, hg, hp⟩ := bind_eq_ok_iff.mp hp
    obtain rfl := Except.ok.inj hp
    obtain rfl := Except.ok.inj hb
    rcases hm with hm | hm
    · exact namesIdentify_ofConverted hplain hg (hnames hg) hwait hm
    · exact namesIdentify_ofCombination hplain hg (hnames hg)
        (Combines.dropUncombinable (q := g.convert.combine) g.convert.combines_combine) hm

/-- Ringing two bells, one after the other. -/
def ringing : Schema ℚ :=
  { name := "ring", params := [("first", ⟨0⟩), ("second", ⟨0⟩)], duration := 0 }

/-- Two bells, of which one has no name. They can be rung in either order, and one can wait for two
ticks. -/
def bells : Domain ℚ where
  name := "bells"
  kind := .combination
  declarations := { types := #[⟨"bell"⟩], objects := #[⟨"", ⟨0⟩⟩, ⟨"x", ⟨0⟩⟩] }
  schemas := [ringing, { name := "wait", duration := 2 }]
  grounding := some ⟨[(⟨0⟩, [[⟨0⟩, ⟨1⟩], [⟨1⟩, ⟨0⟩]])]⟩

/-- The domain of the bells is `Authored`. -/
theorem authored_bells : bells.Authored := by
  have hdeclarations : (((Universe.empty.declareType "bell").after.declareObject "" ⟨0⟩).after
      |>.declareObject "x" ⟨0⟩).after = bells.declarations := by
    decide +kernel
  have hdeclared : Authored (α := ℚ)
      { named "bells" .combination with declarations := bells.declarations } := by
    rw [← hdeclarations]
    exact (((Authored.named "bells" .combination).declare (.type "bell")).declare
      (.object "" ⟨0⟩)).declare (.object "x" ⟨0⟩)
  have hring : addSchema { named "bells" .combination with declarations := bells.declarations }
      ringing = .ok (⟨0⟩, { bells with schemas := [ringing], grounding := none }) := rfl
  have hwait : addSchema { bells with schemas := [ringing], grounding := none }
      { name := "wait", duration := 2 } = .ok (⟨1⟩, { bells with grounding := none }) := rfl
  exact ((hdeclared.addSchema hring).addSchema hwait).addGrounding ⟨0⟩ [[⟨0⟩, ⟨1⟩], [⟨1⟩, ⟨0⟩]]

/-- Ringing the first bell before the second, ringing it after the second, and waiting. -/
def bellsGround : GroundProblem ℚ where
  core := ⟨"bells", bells.declarations, .empty, .empty, [], 0⟩
  actions :=
    [⟨"ring(, x)", ⟨0⟩, [⟨0⟩, ⟨1⟩], 0, [], [], [], .empty, true⟩,
     ⟨"ring(x, )", ⟨0⟩, [⟨1⟩, ⟨0⟩], 0, [], [], [], .empty, true⟩,
     ⟨"wait", ⟨1⟩, [], 2, [], [], [], .empty, true⟩]

/-- The two ways to ring the bells are told apart, and so are waiting for two ticks, which begins with
a decision of its own, and letting one tick pass. -/
theorem names_identify_bells : ∃ b split combined, bells.compileCombination = .ok b ∧
    Mdp.ofConverted b.split 1 = .ok split ∧ split.NamesIdentify ∧
    split.actions.toList.map Prod.fst = ["ring(, x)", "ring(x, )", "wait@start", "wait"] ∧
    Mdp.ofCombination b.combination 1 = .ok combined ∧ combined.NamesIdentify ∧
    combined.actions.toList.map Prod.fst = ["ring(, x)", "ring(x, )", "wait", "ring(, x)|ring(x, )",
      "ring(, x)|wait", "ring(x, )|wait"] := by
  have hbuild : bells.build = .ok bells := rfl
  have hplain : bells.NamesPlain := ⟨by decide, by simp [bells, ringing]; decide⟩
  have htuples : ∀ id tuples, bells.tuples? id = some tuples → tuples.Nodup := by
    intro id tuples h
    by_cases hid : id = ⟨0⟩
    · rw [hid] at h
      have hringing : [[⟨0⟩, ⟨1⟩], [⟨1⟩, ⟨0⟩]] = tuples := Option.some.inj h
      exact hringing ▸ (by decide)
    · have hnone : bells.tuples? id = none := by
        simpa [tuples?, bells, GroundingMap.get?] using hid
      exact absurd (hnone.symm.trans h) (by simp)
  have hwait : ∀ s ∈ bells.schemas, s.params = [] → s.duration = 0 → s.name ≠ "wait" := by
    simp [bells, ringing]
  have hcompile : bells.compileCombination =
      .ok ⟨bellsGround.convert.combine.dropUncombinable, bellsGround.convert⟩ := rfl
  have hcheck : Mdp.check bellsGround.convert.actions 1 = .ok () :=
    Mdp.check_convert_eq_ok_iff.mpr ⟨by norm_num, by simp [bellsGround]⟩
  have hsplit := Mdp.ofConverted_eq_ok_iff.mpr ⟨hcheck, rfl⟩
  have hcombined : Mdp.ofCombination bellsGround.convert.combine.dropUncombinable 1 =
      .ok (Mdp.combinationProcess bellsGround.convert.combine.dropUncombinable 1) :=
    Mdp.ofCombination_eq_ok_iff.mpr ⟨hcheck, rfl⟩
  obtain ⟨-, hidentify⟩ := names_identify authored_bells hbuild hplain htuples hwait
  exact ⟨_, _, _, hcompile, hsplit, hidentify _ 1 _ hcompile (Or.inl hsplit), rfl, hcombined,
    hidentify _ 1 _ hcompile (Or.inr hcombined), rfl⟩

end Domain

end DurativePlanning
