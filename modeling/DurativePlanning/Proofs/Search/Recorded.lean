import DurativePlanning.Proofs.Search.Growth

/-!
# What a Search Asks

A search knows states by their keys alone, and it remembers how many actions a state offered. So it
asks an environment about keys that it was given some time ago, and for actions that were counted
then. This module keeps a record of everything that is asked. An environment that never forgets a
state, and whose states go on offering what they once offered, is only asked what it can answer.

* `Environment.recorded`: an environment that lists what it is asked.
* `Tree.run_recorded`: the record changes nothing else of a run.
* `View`, `Environment.Serves`: what is known in a hidden state, and that it is never forgotten.
* `Tree.KnownTo`: the states of all nodes are known, and offer as many actions as there are edges.
* `Tree.goes_run`: a run asks only what fits what is known.
-/

namespace DurativePlanning

/-- A question to an environment. -/
inductive Question where
  | actionCount (state : ℕ)
  | step (state action : ℕ)
  | choose (state available : ℕ)
  deriving DecidableEq, Repr

variable {σ α : Type}

namespace Environment

/-- **An environment that keeps a record**: it answers as before, and lists every question with the
hidden state in which it is asked, the last question first. -/
def recorded (env : Environment σ α) : Environment (σ × List (Question × σ)) α where
  actionCount state s :=
    let (actions, hidden) := env.actionCount state s.1
    (actions, hidden, (.actionCount state, s.1) :: s.2)
  step state action s :=
    let (next, hidden) := env.step state action s.1
    (next, hidden, (.step state action, s.1) :: s.2)
  choose state available s :=
    let (action, hidden) := env.choose state available s.1
    (action, hidden, (.choose state available, s.1) :: s.2)

/-- A count of actions is answered as before, and put on the record. -/
theorem actionCount_recorded (env : Environment σ α) (state : ℕ) (s : σ × List (Question × σ)) :
    env.recorded.actionCount state s = ((env.actionCount state s.1).1,
      (env.actionCount state s.1).2, (.actionCount state, s.1) :: s.2) := rfl

theorem step_recorded (env : Environment σ α) (state action : ℕ) (s : σ × List (Question × σ)) :
    env.recorded.step state action s = ((env.step state action s.1).1,
      (env.step state action s.1).2, (.step state action, s.1) :: s.2) := rfl

theorem choose_recorded (env : Environment σ α) (state available : ℕ)
    (s : σ × List (Question × σ)) :
    env.recorded.choose state available s = ((env.choose state available s.1).1,
      (env.choose state available s.1).2, (.choose state available, s.1) :: s.2) := rfl

end Environment

/-! ### The record changes nothing else -/

open Environment (actionCount_recorded step_recorded choose_recorded)

/-- A result without the record. -/
def forget {β γ ρ : Type} (result : β × γ × σ × ρ) : β × γ × σ :=
  (result.1, result.2.1, result.2.2.1)

section Cases

variable [Arithmetic α] {env : Environment σ α} {decay : α} {steps state : ℕ} {total weight : α}
  {s : σ}

/-- `walk` ends in a state that offers no action. -/
theorem walk_of_no_action (hcount : (env.actionCount state s).1 = 0) :
    walk env decay (steps + 1) state total weight s = (.ok total, (env.actionCount state s).2) := by
  simp only [walk, hcount, if_true]

/-- `walk` fails when `choose` gives an action that the state does not offer. -/
theorem walk_of_refused {offered chosen : ℕ × σ} (hoffered : env.actionCount state s = offered)
    (hcount : offered.1 ≠ 0) (hchosen : env.choose state offered.1 offered.2 = chosen)
    (hrefused : ¬chosen.1 < offered.1) :
    walk env decay (steps + 1) state total weight s =
      (.error (.invalidRolloutAction state chosen.1 offered.1), chosen.2) := by
  subst hoffered hchosen
  simp only [walk, hcount, hrefused, if_false]

/-- `walk` takes the action that `choose` gives, and goes on unless all ends there. -/
theorem walk_of_taken {offered chosen : ℕ × σ} {taken : Transition α × σ}
    (hoffered : env.actionCount state s = offered) (hcount : offered.1 ≠ 0)
    (hchosen : env.choose state offered.1 offered.2 = chosen) (hlt : chosen.1 < offered.1)
    (htaken : env.step state chosen.1 chosen.2 = taken) :
    walk env decay (steps + 1) state total weight s =
      if taken.1.terminal then (.ok (total + weight * taken.1.reward), taken.2)
      else walk env decay steps taken.1.next (total + weight * taken.1.reward) (weight * decay)
        taken.2 := by
  subst hoffered hchosen htaken
  simp only [walk, hcount, hlt, if_true, if_false]

end Cases

/-- The record changes nothing else of a rollout. -/
theorem walk_recorded [Arithmetic α] (env : Environment σ α) (decay : α) (steps state : ℕ)
    (total weight : α) (s : σ × List (Question × σ)) :
    walk env decay steps state total weight s.1 =
      ((walk env.recorded decay steps state total weight s).1,
        (walk env.recorded decay steps state total weight s).2.1) := by
  induction steps generalizing state total weight s with
  | zero => rfl
  | succ steps ih =>
      by_cases hcount : (env.actionCount state s.1).1 = 0
      · have hcount' : (env.recorded.actionCount state s).1 = 0 := hcount
        rw [walk_of_no_action hcount, walk_of_no_action hcount']
        rfl
      · by_cases hlt : (env.choose state (env.actionCount state s.1).1
          (env.actionCount state s.1).2).1 < (env.actionCount state s.1).1
        · rw [walk_of_taken rfl hcount rfl hlt rfl,
            walk_of_taken (actionCount_recorded env state s) hcount (choose_recorded ..) hlt
              (step_recorded ..)]
          split
          · rfl
          · exact ih _ _ _ (_, _)
        · rw [walk_of_refused rfl hcount rfl hlt,
            walk_of_refused (actionCount_recorded env state s) hcount (choose_recorded ..) hlt]

namespace Tree

variable [SearchArithmetic α] {env : Environment σ α}

/-- The record changes nothing else where a node gets its edges. -/
theorem expandNode_recorded (t : Tree α) (i : ℕ) (n : Node α) (s : σ × List (Question × σ)) :
    t.expandNode env i n s.1 = forget (t.expandNode env.recorded i n s) := by
  cases hexpanded : n.expanded with
  | true => simp only [expandNode, hexpanded, if_true, forget]
  | false =>
      by_cases hcount : (env.actionCount n.key s.1).1 = 0
      · have hcount' : (env.recorded.actionCount n.key s).1 = 0 := hcount
        simp only [expandNode, hexpanded, hcount, hcount', if_true, Bool.false_eq_true, if_false]
        rfl
      · have hcount' : (env.recorded.actionCount n.key s).1 ≠ 0 := hcount
        simp only [expandNode, hexpanded, hcount, hcount', Bool.false_eq_true, if_false]
        rfl

/-- The record changes nothing else of a descent. -/
theorem descendFrom_recorded (c : α) (selection : Selection) (levels i : ℕ)
    (path : List (ℕ × ℕ)) (reward : α) (t : Tree α) (s : σ × List (Question × σ)) :
    descendFrom env c selection levels i path reward t s.1 =
      forget (descendFrom env.recorded c selection levels i path reward t s) := by
  induction levels generalizing i path reward t s with
  | zero =>
      cases hn : t.node? i with
      | none =>
          simp only [descendFrom, hn]
          rfl
      | some n =>
          rw [descendFrom_zero hn, descendFrom_zero hn]
          rfl
  | succ levels ih =>
      rw [descendFrom, descendFrom]
      cases hn : t.node? i with
      | none => rfl
      | some n =>
          cases hterminal : n.terminal with
          | true =>
              simp only [hterminal, if_true]
              rfl
          | false =>
              simp only [hterminal, Bool.false_eq_true, if_false, expandNode_recorded]
              rcases t.expandNode env.recorded i n s with ⟨_ | n', t', s'⟩
              · rfl
              · simp only [forget]
                cases n'.select c selection with
                | none => rfl
                | some a =>
                    simp only [step_recorded]
                    cases n'.edges[a]? with
                    | none => rfl
                    | some e =>
                        simp only
                        cases e.outcome? (env.step n'.key a s'.1).1.next with
                        | none =>
                            simp only
                            rcases t'.addChild i n' a e (env.step n'.key a s'.1).1 with ⟨_ | _, _⟩
                            · rfl
                            · rfl
                        | some known => exact ih _ _ _ _ (_, _ :: s'.2)

/-- The record changes nothing else of an iteration. -/
theorem iterate_recorded (t : Tree α) (config : SearchConfig α) (s : σ × List (Question × σ)) :
    t.iterate env config s.1 = forget (t.iterate env.recorded config s) := by
  simp only [iterate, descend, descendFrom_recorded]
  rcases descendFrom env.recorded config.c config.selection config.maxDepth root [] 0 t s with
    ⟨_ | d, t', s'⟩
  · rfl
  · simp only [forget]
    cases t'.node? d.leaf with
    | none => rfl
    | some leaf =>
        simp only [estimate, rollout]
        cases leaf.terminal with
        | true =>
            simp only [if_true]
            rcases t'.backpropagate (d.reward + 0) d.path with ⟨_ | _, _⟩
            · rfl
            · rfl
        | false =>
            simp only [Bool.false_eq_true, if_false, walk_recorded]
            rcases walk env.recorded (config.rolloutParams leaf.depth).decay
              (config.rolloutParams leaf.depth).stepLimit leaf.key 0 1 s' with ⟨_ | x, s''⟩
            · rfl
            · simp only
              rcases t'.backpropagate (d.reward + x) d.path with ⟨_ | _, _⟩
              · rfl
              · rfl

section Run

variable {τ : Type} {clock : StateM τ ℕ} {config : SearchConfig α}

/-- The record changes nothing else of the iterations of a run. -/
theorem runFrom_recorded (began left : ℕ) (metrics : RunMetrics α) (log : List (Iteration α))
    (t : Tree α) (s : σ × List (Question × σ)) (time : τ) :
    (runFrom clock began env config left metrics log t s.1).run time =
      (forget ((runFrom clock began env.recorded config left metrics log t s).run time).1,
        ((runFrom clock began env.recorded config left metrics log t s).run time).2) := by
  induction left generalizing metrics log t s time with
  | zero => rfl
  | succ left ih =>
      rw [run_runFrom_succ, run_runFrom_succ, iterate_recorded]
      rcases outOfTime config.timeBudget ((clock.run time).1 - began) with cause | (_ | _)
      · rfl
      · rcases t.iterate env.recorded config s with ⟨_ | i, t', s'⟩
        · rfl
        · exact ih _ _ _ _ _
      · rfl

/-- **The record changes nothing else of a run**: `run` with the record is `run` without it, up to
`forget`. -/
theorem run_recorded (t : Tree α) (s : σ × List (Question × σ)) (time : τ) :
    (t.run clock env config s.1).run time =
      (forget ((t.run clock env.recorded config s).run time).1,
        ((t.run clock env.recorded config s).run time).2) := by
  rw [run, run, run_bind, run_bind]
  exact runFrom_recorded _ _ _ _ t s _

end Run

end Tree

/-! ### What is known is never forgotten -/

/-- What is known in a hidden state: some keys of states, and how many actions states offer. -/
structure View (σ : Type) where
  known : σ → ℕ → Prop
  offers : σ → ℕ → ℕ → Prop

namespace View

variable {V : View σ}

/-- Nothing that was known in `s` is forgotten in `s'`. -/
structure Grows (V : View σ) (s s' : σ) : Prop where
  known : ∀ {key}, V.known s key → V.known s' key
  offers : ∀ {key n}, V.offers s key n → V.offers s' key n

/-- A question **fits** what is known: `actionCount` is about a state that is known, and `step` and
`choose` are about actions out of as many as the state offers. -/
def Fits (V : View σ) (s : σ) : Question → Prop
  | .actionCount state => V.known s state
  | .step state action => ∃ n, V.offers s state n ∧ action < n
  | .choose state available => V.offers s state available

/-- Something is done that `Grows` what is known and asks nothing that does not `Fits`. -/
structure Goes (V : View σ) (s s' : σ × List (Question × σ)) : Prop where
  grows : V.Grows s.1 s'.1
  fits : (∀ q ∈ s.2, V.Fits q.2 q.1) → ∀ q ∈ s'.2, V.Fits q.2 q.1

theorem Grows.refl (s : σ) : V.Grows s s := ⟨id, id⟩

theorem Grows.trans {s s' s'' : σ} (h : V.Grows s s') (h' : V.Grows s' s'') : V.Grows s s'' :=
  ⟨fun hkey => h'.known (h.known hkey), fun hkey => h'.offers (h.offers hkey)⟩

theorem Goes.refl (s : σ × List (Question × σ)) : V.Goes s s := ⟨.refl s.1, id⟩

theorem Goes.trans {s s' s'' : σ × List (Question × σ)} (h : V.Goes s s') (h' : V.Goes s' s'') :
    V.Goes s s'' :=
  ⟨h.grows.trans h'.grows, fun hfits => h'.fits (h.fits hfits)⟩

/-- One more question that fits. -/
theorem Goes.ask {s : σ × List (Question × σ)} {s' : σ} {q : Question} (hgrows : V.Grows s.1 s')
    (hfits : V.Fits s.1 q) : V.Goes s (s', (q, s.1) :: s.2) :=
  ⟨hgrows, fun hlog => List.forall_mem_cons.mpr ⟨hfits, hlog⟩⟩

end View

/-- **An environment serves a view** when nothing is forgotten whatever fits is asked, a count of
actions is what the state offers from then on, and every step leads to a state that is known. -/
structure Environment.Serves (env : Environment σ α) (V : View σ) : Prop where
  actionCount : ∀ {s key}, V.known s key → V.Grows s (env.actionCount key s).2 ∧
    ((env.actionCount key s).1 ≠ 0 →
      V.offers (env.actionCount key s).2 key (env.actionCount key s).1)
  step : ∀ {s key a n}, V.offers s key n → a < n → V.Grows s (env.step key a s).2 ∧
    V.known (env.step key a s).2 (env.step key a s).1.next
  choose : ∀ {s key n}, V.offers s key n → V.Grows s (env.choose key n s).2

variable {V : View σ} {env : Environment σ α}

/-- **A rollout asks only what fits**: `walk` counts the actions of a state that is known, and
chooses and steps among as many. -/
theorem goes_walk [Arithmetic α] (henv : env.Serves V) {decay : α} {steps state : ℕ}
    {total weight : α} {s : σ × List (Question × σ)} (hstate : V.known s.1 state) :
    V.Goes s (walk env.recorded decay steps state total weight s).2 := by
  induction steps generalizing state total weight s with
  | zero => exact .refl s
  | succ steps ih =>
      obtain ⟨hgrows, hoffers⟩ := henv.actionCount hstate
      have hcounted : V.Goes s (env.recorded.actionCount state s).2 := .ask hgrows hstate
      by_cases hcount : (env.actionCount state s.1).1 = 0
      · have hcount' : (env.recorded.actionCount state s).1 = 0 := hcount
        rw [walk_of_no_action hcount']
        exact hcounted
      · have hoffers := hoffers hcount
        have hgrows' := henv.choose hoffers
        have hchosen :
            V.Goes s (env.recorded.choose state _ (env.recorded.actionCount state s).2).2 :=
          hcounted.trans (.ask hgrows' hoffers)
        by_cases hlt : (env.choose state (env.actionCount state s.1).1
          (env.actionCount state s.1).2).1 < (env.actionCount state s.1).1
        · obtain ⟨hgrows'', hnext⟩ := henv.step (hgrows'.offers hoffers) hlt
          have htaken := hchosen.trans
            (.ask hgrows'' (q := .step state _) ⟨_, hgrows'.offers hoffers, hlt⟩)
          rw [walk_of_taken (actionCount_recorded env state s) hcount (choose_recorded ..) hlt
            (step_recorded ..)]
          split
          · exact htaken
          · exact htaken.trans (ih hnext)
        · rw [walk_of_refused (actionCount_recorded env state s) hcount (choose_recorded ..) hlt]
          exact hchosen

namespace Tree

/-- **What a tree relies on**: the states of all nodes are known, and a node that has its edges has
as many as its state offers actions. -/
structure KnownTo (V : View σ) (t : Tree α) (s : σ) : Prop where
  known : ∀ {i n}, t.node? i = some n → V.known s n.key
  offers : ∀ {i n}, t.node? i = some n → n.expanded = true → V.offers s n.key n.edges.size

variable {t : Tree α} {s s' : σ} {i a : ℕ} {n n' : Node α} {e : Edge α}

/-- A tree that has only its root relies on nothing else. -/
theorem knownTo_ofRoot {key : ℕ} (hknown : V.known s key) (terminal : Bool) :
    (ofRoot key terminal : Tree α).KnownTo V s := by
  constructor
  · intro i n hn
    obtain ⟨-, rfl⟩ := eq_of_node?_ofRoot hn
    exact hknown
  · intro i n hn hexpanded
    obtain ⟨-, rfl⟩ := eq_of_node?_ofRoot hn
    exact absurd hexpanded (by simp [Node.leaf])

/-- What a tree relies on stays as more is known. -/
theorem KnownTo.grows (ht : t.KnownTo V s) (h : V.Grows s s') : t.KnownTo V s' :=
  ⟨fun hn => h.known (ht.known hn), fun hn hexpanded => h.offers (ht.offers hn hexpanded)⟩

/-- A node may be replaced by one whose state is known and offers as many actions as it has
edges. -/
theorem KnownTo.setNode (ht : t.KnownTo V s) (hn : t.node? i = some n) (hknown : V.known s n'.key)
    (hoffers : n'.expanded = true → V.offers s n'.key n'.edges.size) :
    (t.setNode i n').KnownTo V s := by
  constructor
  · intro j m hm
    rw [node?_setNode hn] at hm
    split at hm
    · exact Option.some.inj hm ▸ hknown
    · exact ht.known hm
  · intro j m hm
    rw [node?_setNode hn] at hm
    split at hm
    · exact Option.some.inj hm ▸ hoffers
    · exact ht.offers hm

/-- An edge may be replaced: it says nothing of states. -/
theorem KnownTo.setEdge (ht : t.KnownTo V s) (hn : t.node? i = some n) (a : ℕ) (e : Edge α) :
    (t.setEdge i n a e).KnownTo V s := by
  have hknown : V.known s n.key := ht.known hn
  refine ht.setNode hn hknown fun hexpanded => ?_
  rw [Array.size_setIfInBounds]
  exact ht.offers hn hexpanded

/-- A node may be pushed whose state is known. -/
theorem KnownTo.push (ht : t.KnownTo V s) (hknown : V.known s n.key)
    (hoffers : n.expanded = true → V.offers s n.key n.edges.size) : (t.push n).KnownTo V s := by
  constructor
  · intro j m hm
    rw [node?_push] at hm
    split at hm
    · exact Option.some.inj hm ▸ hknown
    · exact ht.known hm
  · intro j m hm
    rw [node?_push] at hm
    split at hm
    · exact Option.some.inj hm ▸ hoffers
    · exact ht.offers hm

/-- A successor whose state is known may get a node. -/
theorem KnownTo.grow (ht : t.KnownTo V s) (hn : t.node? i = some n) (a : ℕ) (e : Edge α) {key : ℕ}
    (hknown : V.known s key) (terminal : Bool) : (t.grow i n a e key terminal).KnownTo V s :=
  (ht.push (n := .leaf key (n.depth + 1) (some (i, a)) terminal) hknown
    fun hexpanded => absurd hexpanded (by simp [Node.leaf])).setEdge
    (node?_push_of_node? hn _) a _

variable [SearchArithmetic α]

/-- A node may get as many edges as its state offers actions. -/
theorem KnownTo.setNode_expand (ht : t.KnownTo V s) (hn : t.node? i = some n)
    (hexpanded : n.expanded = false) {k : ℕ} (hoffers : V.offers s n.key k) :
    (t.setNode i (n.expand k)).KnownTo V s := by
  have hkey : (n.expand k).key = n.key := by simp [Node.expand, hexpanded]
  have hsize : (n.expand k).edges.size = k := by simp [Node.expand, hexpanded]
  have hknown : V.known s n.key := ht.known hn
  refine ht.setNode hn ?_ fun _ => ?_
  · rwa [hkey]
  · rwa [hkey, hsize]

/-- `backpropagate` leaves keys and numbers of edges as they are. -/
theorem KnownTo.backpropagate (ht : t.KnownTo V s) (x : α) (path : List (ℕ × ℕ)) :
    (t.backpropagate x path).2.KnownTo V s :=
  backpropagate_induction (P := fun t => t.KnownTo V s)
    (fun _ _ a _ _ ht hn _ => ht.setEdge hn a _) path ht

/-- A part of a search that begins with a tree and a hidden state and ends with others: it goes on
asking only what fits, and the states of all nodes are known at its end. -/
structure Minds (V : View σ) (s : σ × List (Question × σ)) (t' : Tree α)
    (s' : σ × List (Question × σ)) : Prop where
  goes : V.Goes s s'
  known : t'.KnownTo V s'.1

section Descent

variable {c : α} {selection : Selection} {levels : ℕ} {path : List (ℕ × ℕ)} {reward : α}
  {s : σ × List (Question × σ)}

/-- Where a descent leaves a node that has its edges, it asks only what fits, when descents with
fewer levels do. -/
theorem minds_descendFrom_of_expanded (path : List (ℕ × ℕ)) (reward : α) (henv : env.Serves V)
    (ht : t.WellFormed) (hknown : t.KnownTo V s.1) (hn : t.node? i = some n)
    (hterminal : n.terminal = false) (hexpanded : n.expanded = true)
    (hfewer : ∀ {t : Tree α} {i : ℕ} {n : Node α} (path : List (ℕ × ℕ)) (reward : α)
      (s : σ × List (Question × σ)), t.WellFormed → t.KnownTo V s.1 → t.node? i = some n →
        Minds V s (descendFrom env.recorded c selection levels i path reward t s).2.1
          (descendFrom env.recorded c selection levels i path reward t s).2.2) :
    Minds V s (descendFrom env.recorded c selection (levels + 1) i path reward t s).2.1
      (descendFrom env.recorded c selection (levels + 1) i path reward t s).2.2 := by
  obtain ⟨a, e, hselect, he⟩ := Node.exists_select ((ht.expanded hn).mp hexpanded) c selection
  obtain ⟨ha, -⟩ := Array.getElem?_eq_some_iff.mp he
  have hoffers : V.offers s.1 n.key n.edges.size := hknown.offers hn hexpanded
  obtain ⟨hgrows, hnext⟩ := henv.step hoffers ha
  have hasked : V.Goes s (env.recorded.step n.key a s).2 :=
    .ask hgrows (q := .step n.key a) ⟨_, hoffers, ha⟩
  have hstill : t.KnownTo V (env.recorded.step n.key a s).2.1 := hknown.grows hgrows
  cases hfound : e.outcome? (env.recorded.step n.key a s).1.next with
  | none =>
      rw [descendFrom_of_new hn hterminal hexpanded hselect he hfound]
      exact ⟨hasked, hstill.grow hn a e hnext _⟩
  | some o =>
      obtain ⟨ho, hkey⟩ := Edge.mem_of_outcome? hfound
      obtain ⟨m, hm, -⟩ := ht.child ((edge?_of_node? hn a).trans he) o ho
      obtain ⟨m', hm', -⟩ := keeps_setEdge hn a (e.meet o.key) hm
      rw [descendFrom_of_known hn hterminal hexpanded hselect he hfound, ← hkey]
      have hrest := hfewer (path ++ [(i, a)]) (reward + (env.recorded.step n.key a s).1.reward)
        (env.recorded.step n.key a s).2 (ht.setEdge_meet hn he o.key) (hstill.setEdge hn a _) hm'
      exact ⟨hasked.trans hrest.goes, hrest.known⟩

/-- **A descent asks only what fits**: at a node without edges it asks `actionCount`, at one with
edges it takes a `step` that was offered when the node got them. -/
theorem minds_descendFrom (henv : env.Serves V) (ht : t.WellFormed) (hknown : t.KnownTo V s.1)
    (hn : t.node? i = some n) :
    Minds V s (descendFrom env.recorded c selection levels i path reward t s).2.1
      (descendFrom env.recorded c selection levels i path reward t s).2.2 := by
  induction levels generalizing t i n path reward s with
  | zero =>
      rw [descendFrom_zero hn]
      exact ⟨.refl s, hknown⟩
  | succ levels ih =>
      cases hterminal : n.terminal with
      | true =>
          rw [descendFrom_of_terminal hn hterminal]
          exact ⟨.refl s, hknown⟩
      | false =>
          cases hexpanded : n.expanded with
          | true =>
              exact minds_descendFrom_of_expanded path reward henv ht hknown hn hterminal hexpanded
                fun _ _ _ ht hknown hn => ih ht hknown hn
          | false =>
              obtain ⟨hgrows, hoffers⟩ := henv.actionCount (hknown.known hn)
              have hasked : V.Goes s (env.recorded.actionCount n.key s).2 :=
                .ask hgrows (hknown.known hn)
              have hstill : t.KnownTo V (env.recorded.actionCount n.key s).2.1 :=
                hknown.grows hgrows
              by_cases hcount : (env.recorded.actionCount n.key s).1 = 0
              · rw [descendFrom_of_no_action hn hterminal hexpanded hcount]
                exact ⟨hasked, hstill⟩
              · have hn' := node?_setNode_self hn (n.expand (env.recorded.actionCount n.key s).1)
                rw [descendFrom_of_unexpanded hn hterminal hexpanded hcount]
                have hrest := minds_descendFrom_of_expanded (c := c) path reward henv
                  (ht.setNode_expand hn hexpanded hcount)
                  (hstill.setNode_expand hn hexpanded (hoffers hcount)) hn'
                  (by simp [Node.expand, hexpanded, hterminal]) (by simp [Node.expand, hexpanded])
                  fun _ _ _ ht hknown hn => ih ht hknown hn
                exact ⟨hasked.trans hrest.goes, hrest.known⟩

end Descent

/-- **An iteration asks only what fits**: its descent by `minds_descendFrom`, and its rollout by
`goes_walk`. -/
theorem minds_iterate (henv : env.Serves V) (ht : t.WellFormed)
    {s : σ × List (Question × σ)} (hknown : t.KnownTo V s.1) (config : SearchConfig α) :
    Minds V s (t.iterate env.recorded config s).2.1 (t.iterate env.recorded config s).2.2 := by
  obtain ⟨n, hn, -⟩ := ht.root
  have hdescent : Minds V s
      (t.descend env.recorded config.c config.selection config.maxDepth s).2.1
      (t.descend env.recorded config.c config.selection config.maxDepth s).2.2 :=
    minds_descendFrom henv ht hknown hn
  rw [iterate]
  rcases hd : t.descend env.recorded config.c config.selection config.maxDepth s with
    ⟨cause | d, t₁, s₁⟩
  · rw [hd] at hdescent
    exact hdescent
  · rw [hd] at hdescent
    cases hleaf : t₁.node? d.leaf with
    | none =>
        simp only [hleaf]
        exact hdescent
    | some leaf =>
        have hestimate : V.Goes s₁ (estimate env.recorded config leaf s₁).2 := by
          rw [estimate]
          split
          · exact .refl s₁
          · exact goes_walk henv (hdescent.known.known hleaf)
        simp only [hleaf]
        rcases he : estimate env.recorded config leaf s₁ with ⟨estimated, s₂⟩
        rw [he] at hestimate
        have hgoes : V.Goes s s₂ := hdescent.goes.trans hestimate
        have hstill : t₁.KnownTo V s₂.1 := hdescent.known.grows hestimate.grows
        cases estimated with
        | error cause => exact ⟨hgoes, hstill⟩
        | ok r =>
            have hback := hstill.backpropagate (d.reward + r) d.path
            simp only
            rcases hb : t₁.backpropagate (d.reward + r) d.path with ⟨_ | _, t₂⟩
            · rw [hb] at hback
              exact ⟨hgoes, hback⟩
            · rw [hb] at hback
              exact ⟨hgoes, hback⟩

section Run

variable {τ : Type} {clock : StateM τ ℕ} {config : SearchConfig α}

/-- The iterations of a run ask only what fits, by induction on those that are left. -/
theorem goes_runFrom (henv : env.Serves V) {began left : ℕ} {metrics : RunMetrics α}
    {log : List (Iteration α)} (ht : t.WellFormed) {s : σ × List (Question × σ)}
    (hknown : t.KnownTo V s.1) {time : τ} :
    V.Goes s
      ((runFrom clock began env.recorded config left metrics log t s).run time).1.2.2 := by
  induction left generalizing metrics log t s time with
  | zero => exact .refl s
  | succ left ih =>
      rw [run_runFrom_succ]
      rcases outOfTime config.timeBudget ((clock.run time).1 - began) with cause | (_ | _)
      · exact .refl s
      · have hfirst := minds_iterate henv ht hknown config
        have ht' := ht.iterate env.recorded config s
        rcases hi : t.iterate env.recorded config s with ⟨cause | i, t', s'⟩
        · rw [hi] at hfirst
          exact hfirst.goes
        · rw [hi] at hfirst ht'
          exact hfirst.goes.trans (ih ht' hfirst.known)
      · exact .refl s

/-- **A run asks only what fits**, when it begins with a tree that is `KnownTo` the view. -/
theorem goes_run (henv : env.Serves V) (ht : t.WellFormed) {s : σ × List (Question × σ)}
    (hknown : t.KnownTo V s.1) {time : τ} :
    V.Goes s ((t.run clock env.recorded config s).run time).1.2.2 := by
  rw [run, run_bind]
  exact goes_runFrom henv ht hknown

end Run

end Tree

end DurativePlanning
