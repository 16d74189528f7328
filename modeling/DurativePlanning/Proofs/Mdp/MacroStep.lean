import DurativePlanning.Proofs.Mdp.Run
import DurativePlanning.Proofs.Weights
import Mathlib.Data.Rat.Floor

/-!
# Running One Action in Both Modes

Combination mode runs an action to completion in one decision; split mode starts it and then lets
one tick after another pass. When nothing else is running, both lead to the same states with the
same probabilities, for every duration, every law and every time left.

* `Mdp.reach`: the states to which decisions in order lead, with their probabilities.
* `Mdp.reach_entry`: a lone entry of the agenda run to its end, by induction on the ticks left.
* `Mdp.split_single_agree`: both modes agree on one action.
-/

namespace DurativePlanning

/-- An event without groups has one result, `assignAll` of its effects. -/
theorem Event.outcomes_of_groups_eq_nil {α : Type} [Arithmetic α] {e : Event α}
    (h : e.groups = []) (table : AtomTable) (s : AtomSet) :
    e.outcomes table s = [(1, s.assignAll e.effects)] := by
  rw [outcomes, h]
  rfl

namespace Mdp

variable {K : Type} [Field K] [LinearOrder K] [IsStrictOrderedRing K] [FloorSemiring K]

/-- The states to which decisions in order lead from a state, with their probabilities:
`transitions`, one after the other. -/
noncomputable def reach (m : Mdp K) (actions : List ℕ) (s : State) : Weights K State :=
  actions.foldlM (fun s a => .ofList (m.transitions s a)) s

section Reach

variable {m : Mdp K} {s t : State} {a : ℕ} {rest : List ℕ}

/-- `reach` takes the first decision first. -/
theorem reach_cons (m : Mdp K) (a : ℕ) (rest : List ℕ) (s : State) :
    m.reach (a :: rest) s = Weights.ofList (m.transitions s a) >>= m.reach rest := rfl

/-- `reach` of one decision is its `transitions`. -/
theorem reach_singleton (m : Mdp K) (a : ℕ) (s : State) :
    m.reach [a] s = .ofList (m.transitions s a) := bind_pure _

/-- `reach` from a decision with one successor leads on from this one. -/
theorem reach_cons_of_transitions (h : m.transitions s a = [(1, t)]) :
    m.reach (a :: rest) s = m.reach rest t := by
  rw [reach_cons, h, Weights.ofList_singleton, pure_bind]

/-- Nothing leads out of `failed`. -/
theorem reach_failed (m : Mdp K) (actions : List ℕ) : m.reach actions .failed = pure .failed := by
  induction actions with
  | nil => rfl
  | cons a rest ih => rw [reach_cons_of_transitions (transitions_eq_self rfl), ih]

end Reach

/-- The states after `fireAll` of some events, with some time left and nothing running, equal ones
taken together. -/
noncomputable def completed (m : Mdp K) (events : List (Firing K)) (atoms : AtomSet)
    (remaining : ℕ) : List (K × State) :=
  collect ((fireAll m.core.atoms events atoms).map fun x => (x.1, .running x.2 remaining .empty))

section Split

variable {p : ConvertedProblem K} {discount : K} {m : Mdp K} {s : State} {a i : ℕ}
  {kind : ActionKind} {atoms : AtomSet}

/-- A decision of split mode with less than one tick left leads to `failed`. -/
theorem transitions_of_remaining_lt (hm : ofConverted p discount = .ok m)
    (hkind : m.kind? a = some kind) (happ : m.isApplicable s a = true) (hlate : s.remaining < 1) :
    m.transitions s a = [(1, .failed)] :=
  transitions_eq_failed happ hkind (hlate.trans_eq (cost_split hm hkind).symm)

/-- A decision of split mode whose chosen event has one result: what is left to expand are the
`endFirings`. -/
theorem transitions_of_start (hm : ofConverted p discount = .ok m)
    (hkind : m.kind? a = some kind) (happ : m.isApplicable s a = true) (hleft : 1 ≤ s.remaining)
    (hstart : fireAll m.core.atoms (m.startFirings (m.begun kind)) s.atoms = [(1, atoms)]) :
    m.transitions s a = collect ((fireAll m.core.atoms (m.endFirings (m.ended s kind)) atoms).map
      fun x => (x.1, .running x.2 (s.remaining - 1) (m.nextAgenda s kind))) := by
  have hcost := cost_split hm hkind
  rw [transitions_eq_collect happ hkind (hcost.trans_le hleft), firings_eq, fireAll_append, hstart]
  simp only [resultOf, hcost]
  rfl

/-- **A lone entry run to its end.** After a decision with which one entry competes for the tick,
`reach` with waiting for the rest of its ticks leads to the results of its end, unless the time left
does not suffice. -/
theorem reach_entry (hm : ofConverted p discount = .ok m) {wait : ℕ}
    (hwait : m.kind? wait = some .wait) {k : ℕ} (hkind : m.kind? a = some kind)
    (happ : m.isApplicable s a = true) (hentries : m.entries s kind = [⟨k + 1, i⟩])
    (hstart : fireAll m.core.atoms (m.startFirings (m.begun kind)) s.atoms = [(1, atoms)]) :
    m.reach (a :: List.replicate k wait) s =
      if s.remaining < k + 1 then pure .failed
      else .ofList (m.completed (m.endFirings [i]) atoms (s.remaining - (k + 1))) := by
  induction k generalizing a kind s with
  | zero =>
      rw [List.replicate_zero, reach_singleton]
      split
      · next hlate =>
        rw [transitions_of_remaining_lt hm hkind happ hlate, Weights.ofList_singleton]
      · next hleft =>
        -- the entry is due with this tick
        have hended : m.ended s kind = [i] := by
          rw [ended_split hm hkind, hentries]
          exact congrArg (List.map _) (Agenda.toList_ofList_singleton _)
        have hagenda : m.nextAgenda s kind = .empty := by
          rw [nextAgenda_split hm hkind, hentries]
          exact Agenda.ofList_nil
        rw [transitions_of_start hm hkind happ (Nat.not_lt.mp hleft) hstart, hended, hagenda]
        rfl
  | succ k ih =>
      rw [List.replicate_succ]
      rcases Nat.lt_or_ge s.remaining 1 with hlate | hleft
      · rw [reach_cons_of_transitions (transitions_of_remaining_lt hm hkind happ hlate),
          reach_failed, if_pos (by omega)]
      · -- the entry goes on, and has one tick less
        have hended : m.ended s kind = [] := by
          rw [ended_split hm hkind, hentries]
          simp [Agenda.empty]
        have hagenda : m.nextAgenda s kind = .ofList [⟨k + 1, i⟩] := by
          rw [nextAgenda_split hm hkind, hentries]
          rfl
        have hstep : m.transitions s a =
            [(1, .running atoms (s.remaining - 1) (.ofList [⟨k + 1, i⟩]))] := by
          rw [transitions_of_start hm hkind happ hleft hstart, hended, hagenda]
          rfl
        have hlone : m.entries (.running atoms (s.remaining - 1) (.ofList [⟨k + 1, i⟩])) .wait =
            [⟨k + 1, i⟩] := Agenda.toList_ofList_singleton _
        rw [reach_cons_of_transitions hstep, ih hwait _ hlone rfl]
        · change (if s.remaining - 1 < k + 1 then _ else _) = _
          have hlate : s.remaining - 1 < k + 1 ↔ s.remaining < k + 1 + 1 := by omega
          refine if_congr hlate rfl ?_
          rw [State.remaining, Nat.sub_sub, Nat.add_comm 1]
        · exact isApplicable_iff.mpr ⟨rfl, .wait, hwait, rfl⟩

end Split

/-! ### Both modes -/

/-- **One action in combination mode**: it fails when its `span` overruns the time left, and
otherwise its start and its end are expanded at once. -/
theorem transitions_single {m : Mdp K} {i : ℕ} {a : ConvertedAction K} {s : State}
    (hkind : m.kind? i = some (.single i)) (ha : m.singles[i]? = some a)
    (hlive : s.isFailed = false) (hbegin : s.atoms.satisfiesAll a.start.conditions = true) :
    m.transitions s i =
      if s.remaining < a.span then [(1, .failed)]
      else m.completed (m.startFirings [i] ++ m.endFirings [i]) s.atoms
        (s.remaining - a.span) := by
  have hcost : m.cost (.single i) = a.span := by rw [cost, ha]; rfl
  have happ : m.isApplicable s i = true :=
    isApplicable_iff.mpr ⟨hlive, .single i, hkind, by rw [admits, canBegin, ha]; exact hbegin⟩
  split
  · next hlate => exact transitions_eq_failed happ hkind (hlate.trans_eq hcost.symm)
  · next hleft =>
    rw [transitions_eq_collect happ hkind (hcost.trans_le (Nat.not_lt.mp hleft)), firings_eq]
    simp only [resultOf, hcost]
    rfl

section Converted

variable {C : ConvertedProblem K} {discount : K} {m : Mdp K} {i wait : ℕ} {event : Event K}
  {action : SplitAction K} {resources : AtomSet} {combinable : Bool} {s : State}

/-- **An action without extent in split mode** is over with its tick, and nothing is waited for:
`reach` of the one decision lists the `completed` states. -/
theorem reach_instant (hm : ofConverted C discount = .ok m)
    (ha : C.actions[i]? = some ⟨.instant event, resources, combinable⟩)
    (hlive : s.isFailed = false) (hidle : s.agenda = .empty)
    (hbegin : s.atoms.satisfiesAll event.conditions = true) :
    m.reach [i] s =
      if s.remaining < 1 then pure .failed
      else .ofList (m.completed (m.startFirings [i] ++ m.endFirings [i]) s.atoms
        (s.remaining - 1)) := by
  have hsingle := (getElem?_singles hm i).trans ha
  have hkind := kind?_of_instant hm ha
  have happ : m.isApplicable s i = true :=
    isApplicable_iff.mpr ⟨hlive, .instant i, hkind, by rw [admits, canBegin, hsingle]; exact hbegin⟩
  have hentries : m.entries s (.instant i) = [] := by
    rw [entries, hidle]
    rfl
  have hended : m.ended s (.instant i) = [] := by
    rw [ended_split hm hkind, hentries]
    simp [Agenda.empty]
  have hagenda : m.nextAgenda s (.instant i) = .empty := by
    rw [nextAgenda_split hm hkind, hentries]
    exact Agenda.ofList_nil
  have hends : m.endFirings [i] = [] := by
    rw [endFirings_cons, hsingle]
    rfl
  rw [reach_singleton]
  split
  · next hlate => rw [transitions_of_remaining_lt hm hkind happ hlate, Weights.ofList_singleton]
  · next hleft =>
    rw [transitions_eq_collect happ hkind (Nat.not_lt.mp hleft), firings_eq, hended, hends]
    simp only [resultOf, hagenda]
    rfl

/-- **An action with extent in split mode**, when its start event has no groups: `reach` starts it
and waits until its end, by `reach_entry`. -/
theorem reach_split (hm : ofConverted C discount = .ok m) (hwait : m.kind? wait = some .wait)
    (ha : C.actions[i]? = some ⟨.split action, resources, combinable⟩)
    (hgroups : action.start.groups = []) {k : ℕ} (hduration : action.duration = k + 1)
    (hlive : s.isFailed = false) (hidle : s.agenda = .empty)
    (hbegin : s.atoms.satisfiesAll action.start.conditions = true) :
    m.reach (i :: List.replicate k wait) s =
      if s.remaining < k + 1 then pure .failed
      else .ofList (m.completed (m.startFirings [i] ++ m.endFirings [i]) s.atoms
        (s.remaining - (k + 1))) := by
  have hsingle := (getElem?_singles hm i).trans ha
  have hkind := kind?_of_split hm ha
  have happ : m.isApplicable s i = true := by
    refine isApplicable_iff.mpr ⟨hlive, .start i, hkind, ?_⟩
    rw [admits, canBegin, hsingle, State.inFlight, hidle]
    exact hbegin
  have hentries : m.entries s (.start i) = [⟨k + 1, i⟩] := by
    rw [entries_start hsingle, hidle, hduration]
    rfl
  have hstart : fireAll m.core.atoms (m.startFirings [i]) s.atoms =
      [(1, s.atoms.assignAll action.start.effects)] := by
    rw [startFirings_singleton hsingle]
    simp [fireAll, fire, Firing.outcomes, ConvertedAction.start,
      Event.outcomes_of_groups_eq_nil hgroups]
  rw [reach_entry hm hwait hkind happ hentries hstart]
  refine if_congr Iff.rfl rfl ?_
  rw [completed, completed, fireAll_append, hstart]
  rfl

end Converted

/-- **One action in split mode**, when nothing else is running: it is begun, and then one waits
until its span is over. -/
theorem reach_single {p : GroundProblem K} {discount : K} {m : Mdp K}
    (hm : ofConverted p.convert discount = .ok m) {wait : ℕ} (hwait : m.kind? wait = some .wait)
    {i : ℕ} {a : ConvertedAction K} (ha : p.convert.actions[i]? = some a) {s : State}
    (hlive : s.isFailed = false) (hidle : s.agenda = .empty)
    (hbegin : s.atoms.satisfiesAll a.start.conditions = true) :
    m.reach (i :: List.replicate (a.span - 1) wait) s =
      if s.remaining < a.span then pure .failed
      else .ofList (m.completed (m.startFirings [i] ++ m.endFirings [i]) s.atoms
        (s.remaining - a.span)) := by
  obtain ⟨course, resources, combinable⟩ := a
  cases course with
  | instant event => exact reach_instant hm ha hlive hidle hbegin
  | split action =>
      obtain ⟨g, -, hg⟩ := List.mem_map.mp (List.mem_of_getElem? ha)
      obtain ⟨hzero, rfl⟩ := GroundAction.convert_split (congrArg ConvertedAction.course hg)
      obtain ⟨k, hk⟩ := Nat.exists_eq_succ_of_ne_zero hzero
      have hspan : ConvertedAction.span ⟨.split ⟨g.name, g.startEvent, g.endEvent, g.duration⟩,
          resources, combinable⟩ = k + 1 := by
        rw [ConvertedAction.span, hk]
        exact Nat.max_eq_left (Nat.le_add_left 1 k)
      rw [hspan, Nat.add_sub_cancel]
      exact reach_split hm hwait ha rfl hk hlive hidle hbegin

/-- **Both modes agree on one action.** Take the two processes of a converted problem, the one of
combination mode with or without the combinations that may not be made. In a state that has not
failed, in which nothing is running and an action can begin, starting the action in split mode and
waiting for the rest of its span leads to the same states with the same probabilities as running it
in combination mode, where each state is listed once. When the span overruns the time left, both
fail. -/
theorem split_single_agree {p : GroundProblem K} {q : CombinationProblem K} {discount discount' : K}
    {split combination : Mdp K} (hsplit : ofConverted p.convert discount = .ok split)
    (hq : q = p.convert.combine ∨ q = p.convert.combine.dropUncombinable)
    (hcombination : ofCombination q discount' = .ok combination) {i : ℕ} {a : ConvertedAction K}
    (ha : p.convert.actions[i]? = some a) {s : State} (hlive : s.isFailed = false)
    (hidle : s.agenda = .empty) (hbegin : s.atoms.satisfiesAll a.start.conditions = true) :
    (split.kind? i = some (.start i) ∨ split.kind? i = some (.instant i)) ∧
    split.kind? p.convert.actions.length = some .wait ∧
    combination.kind? i = some (.single i) ∧
    split.reach (i :: List.replicate (a.span - 1) p.convert.actions.length) s =
      .ofList (combination.transitions s i) ∧
    (combination.successors s i).Nodup ∧
    (∀ w t, (w, t) ∈ combination.transitions s i → (split.reach
      (i :: List.replicate (a.span - 1) p.convert.actions.length) s).prob t = w) ∧
    (s.remaining < a.span →
      split.reach (i :: List.replicate (a.span - 1) p.convert.actions.length) s = pure .failed ∧
        combination.transitions s i = [(1, .failed)]) := by
  have hactions : q.singles = p.convert.actions := by
    rcases hq with rfl | rfl
    all_goals rfl
  have hshared : combination.core = split.core ∧ combination.singles = split.singles := by
    obtain ⟨-, rfl⟩ := ofConverted_eq_ok_iff.mp hsplit
    obtain ⟨-, rfl⟩ := ofCombination_eq_ok_iff.mp hcombination
    rcases hq with rfl | rfl
    all_goals exact ⟨rfl, rfl⟩
  have hkind : combination.kind? i = some (.single i) := by
    rw [kind?_ofCombination hcombination, hactions, if_pos (List.getElem?_eq_some_iff.mp ha).1]
  have hsingle : combination.singles[i]? = some a := by
    rw [hshared.2, getElem?_singles hsplit]
    exact ha
  have hcompleted : ∀ remaining,
      split.completed (split.startFirings [i] ++ split.endFirings [i]) s.atoms remaining =
        combination.completed (combination.startFirings [i] ++ combination.endFirings [i]) s.atoms
          remaining := by
    intro remaining
    simp only [completed, startFirings, endFirings, hshared]
  have hmacro := transitions_single hkind hsingle hlive hbegin
  have hagree : split.reach (i :: List.replicate (a.span - 1) p.convert.actions.length) s =
      .ofList (combination.transitions s i) := by
    rw [reach_single hsplit (kind?_length hsplit) ha hlive hidle hbegin, hmacro, hcompleted]
    split
    · exact (Weights.ofList_singleton _).symm
    · rfl
  have hnodup : (combination.successors s i).Nodup := by
    rw [successors, hmacro]
    split
    · exact List.nodup_singleton _
    · exact nodup_collect _
  refine ⟨?_, kind?_length hsplit, hkind, hagree, hnodup, fun w t ht => ?_, fun hlate => ?_⟩
  · obtain ⟨course, resources, combinable⟩ := a
    cases course with
    | instant event => exact Or.inr (kind?_of_instant hsplit ha)
    | split action => exact Or.inl (kind?_of_split hsplit ha)
  · rw [hagree]
    exact Weights.prob_ofList_of_mem hnodup ht
  · rw [if_pos hlate] at hmacro
    exact ⟨by rw [hagree, hmacro, Weights.ofList_singleton], hmacro⟩

/-- A throw that takes two ticks: atom 0 says that the ball is in the air, and atom 1 is drawn when
it is caught. -/
def throwing : GroundAction ℚ :=
  ⟨"throw", ⟨0⟩, [], 2, [(.atStart, ⟨⟨0⟩, false⟩), (.atEnd, ⟨⟨0⟩, true⟩)],
    [(.atStart, ⟨⟨0⟩, true⟩), (.atEnd, ⟨⟨0⟩, false⟩)],
    [⟨[⟨1⟩], .coin (1 / 3) (2 / 3), []⟩], .empty, true⟩

/-- A game in which the ball is thrown within three ticks. -/
def game : GroundProblem ℚ :=
  ⟨⟨"game", {}, .empty, .empty, [⟨⟨1⟩, true⟩], 3⟩, [throwing]⟩

theorem check_game : check game.convert.actions 1 = .ok () := by
  refine check_convert_eq_ok_iff.mpr ⟨by norm_num, ?_⟩
  have hlaw : (Law.coin (1 / 3 : ℚ) (2 / 3)).IsNearlyDistribution :=
    Law.isNearlyDistribution_coin (by norm_num) (by norm_num) (by norm_num)
  simpa [game, throwing] using hlaw

/-- Throwing the ball and waiting for one tick is the same as one throw. -/
theorem split_single_agree_game :
    ofConverted game.convert 1 = .ok (splitProcess game.convert 1) ∧
      ofCombination game.convert.combine.dropUncombinable 1 =
        .ok (combinationProcess game.convert.combine.dropUncombinable 1) ∧
      (splitProcess game.convert 1).initialState.isFailed = false ∧
      (splitProcess game.convert 1).initialState.agenda = .empty ∧
      (splitProcess game.convert 1).initialState.atoms.satisfiesAll
        throwing.convert.start.conditions = true ∧
      (splitProcess game.convert 1).reach [0, 1] (splitProcess game.convert 1).initialState =
        .ofList ((combinationProcess game.convert.combine.dropUncombinable 1).transitions
          (splitProcess game.convert 1).initialState 0) := by
  have hsplit : ofConverted game.convert 1 = .ok (splitProcess game.convert 1) :=
    ofConverted_eq_ok_iff.mpr ⟨check_game, rfl⟩
  have hcombination : ofCombination game.convert.combine.dropUncombinable 1 =
      .ok (combinationProcess game.convert.combine.dropUncombinable 1) :=
    ofCombination_eq_ok_iff.mpr ⟨check_game, rfl⟩
  obtain ⟨-, -, -, hagree, -⟩ := split_single_agree hsplit (Or.inr rfl) hcombination
    (i := 0) (a := throwing.convert) rfl (s := (splitProcess game.convert 1).initialState) rfl rfl
      (by decide)
  exact ⟨hsplit, hcombination, rfl, rfl, by decide, hagree⟩

end Mdp

end DurativePlanning
