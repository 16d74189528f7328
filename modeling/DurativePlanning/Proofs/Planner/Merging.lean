import DurativePlanning.Proofs.Mdp.Program
import DurativePlanning.Proofs.Planner.Choice
import DurativePlanning.Proofs.Planner.Samples
import DurativePlanning.Proofs.Search.Selection

/-!
# Which Successors a Search Merges

A search tree never sees a state. It tells the successors of an edge apart by their keys, which the
table of states gives out. A state gets a new key exactly when it is not in the table yet, and each
key stands for its state from then on; so whatever was put into the table in between, two samples of
one edge go to the same node exactly when the same state was drawn.

* `State.eq_iff`: what there is to a state.
* `Mdp.searched`, `Mdp.searchSamples`: the search behind a decision, and what it samples.
* `Mdp.Sampled.node_eq_iff`: which samples of an edge are merged.
* `Mdp.Sampled.exists_of_outcome`: what the count of a successor counts.
* `Mdp.keys_tell_states_apart`: all of it.
-/

namespace DurativePlanning

variable {α γ τ : Type}

/-- Two states are equal when they agree in `atoms`, `remaining`, `agenda` and `isFailed`. -/
theorem State.eq_iff {s s' : State} : s = s' ↔ s.atoms = s'.atoms ∧ s.remaining = s'.remaining ∧
    s.agenda = s'.agenda ∧ s.isFailed = s'.isFailed := by
  constructor
  · rintro rfl
    exact ⟨rfl, rfl, rfl, rfl⟩
  · rintro ⟨hatoms, hremaining, hagenda, hfailed⟩
    cases s with
    | failed =>
        cases s' with
        | failed => rfl
        | running => exact absurd hfailed (by simp [State.isFailed])
    | running atoms remaining agenda =>
        cases s' with
        | failed => exact absurd hfailed (by simp [State.isFailed])
        | running atoms' remaining' agenda' =>
            obtain rfl : atoms = atoms' := hatoms
            obtain rfl : remaining = remaining' := hremaining
            obtain rfl : agenda = agenda' := hagenda
            rfl

namespace Mdp

section Search

variable [SearchArithmetic α] [WordSource γ] {m : Mdp α} {t : Tree α} {hidden : StateTable × γ}
  {seen : List Sample}

/-- The tree, the table and the source **after up to** `n` **iterations of the search behind a
decision** in a state. -/
def searched (m : Mdp α) (k : ℕ) (config : SearchConfig α) (s : State) (source : γ) (n : ℕ) :
    Tree α × StateTable × γ :=
  let (key, table) := (Numbering.empty : StateTable).intern s
  (Tree.iterations (m.environment k) config n (.ofRoot key false) (table, source)).2

/-- What `n` iterations of the search behind a decision sample. -/
def searchSamples (m : Mdp α) (k : ℕ) (config : SearchConfig α) (s : State) (source : γ) (n : ℕ) :
    List Sample :=
  let (key, table) := (Numbering.empty : StateTable).intern s
  m.samples k config n (.ofRoot key false) (table, source)

/-- **The search behind a decision** samples what its descents draw. -/
theorem sampled_searched (m : Mdp α) (k : ℕ) (config : SearchConfig α) (s : State) (source : γ)
    (n : ℕ) : m.Sampled (m.searched k config s source n).1 (m.searched k config s source n).2
      (m.searchSamples k config s source n) := by
  have hroot := Numbering.get?_intern (Numbering.empty : StateTable) s
  rw [searched, searchSamples]
  rcases hintern : (Numbering.empty : StateTable).intern s with ⟨key, table⟩
  rw [hintern] at hroot
  have hknown : (m.tableView (γ := γ)).known (table, source) key := ⟨s, hroot⟩
  have hbegin : m.Sampled (.ofRoot key false) (table, source) [] :=
    { wellFormed := Tree.wellFormed_ofRoot key false
      known := Tree.knownTo_ofRoot hknown false
      stands := fun x hx => absurd hx List.not_mem_nil
      counted := fun p a counts => by
        rw [Tree.tallyAt, Tree.edge?_ofRoot]
        rfl }
  exact hbegin.iterations k config n

/-- **The search behind a decision is such a search**, with as many iterations as there was time
for. -/
theorem exists_searched_of_recordedSearch (m : Mdp α) (clock : StateM τ ℕ)
    (config : SearchConfig α) (k : ℕ) (s : State) (source : γ) (time : τ) :
    ∃ n ≤ config.iterations,
      (forget ((m.recordedSearch clock config k s source).run time).1).2 =
        m.searched k config s source n := by
  simp only [recordedSearch, searched]
  rcases (Numbering.empty : StateTable).intern s with ⟨key, table⟩
  obtain ⟨n, hn, hdid⟩ := Tree.exists_did_run clock (m.environment k) config
    (.ofRoot key false) (table, source) time
  have hrecorded : ((Tree.ofRoot key false).run clock (m.environment k) config
      (table, source)).run time = _ :=
    Tree.run_recorded (Tree.ofRoot key false) ((table, source), []) time
  rw [hrecorded] at hdid
  exact ⟨n, hn, hdid.leaves⟩

/-! ### Samples of one edge -/

/-- `child?` of the edge of a sample leads to its node, for the key of its state. -/
theorem Stands.exists_child? {table : StateTable} {x : Sample} (h : m.Stands γ t table x)
    (ht : t.WellFormed) : ∃ e key, t.edge? x.edge.1 x.edge.2 = some e ∧
      e.child? key = some x.node ∧ table.get? key = some x.state := by
  obtain ⟨n, hn, hparent, hstate⟩ := h.target
  have hne : x.node ≠ Tree.root := by
    intro hroot
    obtain ⟨r, hr, -, hnone⟩ := ht.root
    obtain rfl : r = n := Option.some.inj (hr.symm.trans (hroot ▸ hn))
    exact absurd (hnone.symm.trans hparent) (by simp)
  obtain ⟨p, a, -, e, hparent', -, -, -, he, hchild⟩ := ht.parent hn hne
  obtain ⟨hp, ha⟩ := Prod.mk.inj (Option.some.inj (hparent.symm.trans hparent'))
  exact ⟨e, n.key, by rw [hp, ha]; exact he, hchild, hstate⟩

/-- **Two samples of one edge are merged exactly when their states are equal**: the table gives
equal states equal keys, and the outcomes of an edge have different keys. -/
theorem Sampled.node_eq_iff (h : m.Sampled t hidden seen) {x y : Sample} (hx : x ∈ seen)
    (hy : y ∈ seen) (hedge : x.edge = y.edge) : x.node = y.node ↔ x.state = y.state := by
  constructor
  -- A node has one key, which stands for one state.
  · intro hnode
    obtain ⟨n, hn, -, hstate⟩ := (h.stands x hx).target
    obtain ⟨n', hn', -, hstate'⟩ := (h.stands y hy).target
    obtain rfl : n = n' := Option.some.inj (hn.symm.trans (hnode ▸ hn'))
    exact Option.some.inj (hstate.symm.trans hstate')
  -- A state has one key, for which the edge has one node.
  · intro heq
    obtain ⟨e, key, he, hchild, hstate⟩ := (h.stands x hx).exists_child? h.wellFormed
    obtain ⟨e', key', he', hchild', hstate'⟩ := (h.stands y hy).exists_child? h.wellFormed
    rw [hedge, he'] at he
    obtain rfl : e' = e := Option.some.inj he
    rw [heq] at hstate
    obtain rfl : key = key' :=
      (Numbering.eq_idxOf_of_get? hstate).trans (Numbering.eq_idxOf_of_get? hstate').symm
    exact Option.some.inj (hchild.symm.trans hchild')

/-- **Every successor of an edge was sampled**: it has the number of its state, and is counted as
often as its state was drawn at the edge, by `Sampled.node_eq_iff`. -/
theorem Sampled.exists_of_outcome (h : m.Sampled t hidden seen) {p a : ℕ} {e : Edge α}
    (he : t.edge? p a = some e) {o : OutcomeEntry} (ho : o ∈ e.outcomes) :
    ∃ x ∈ seen, x.edge = (p, a) ∧ x.node = o.child ∧ hidden.1.get? o.key = some x.state ∧
      o.count = seen.countP fun y => y.edge = (p, a) ∧ y.state = x.state := by
  have hcount : o.count = seen.countP fun y => y.edge = (p, a) ∧ y.node = o.child := by
    have htally := h.counted p a (· == o.child)
    rw [Tree.tallyAt_of_edge? he, h.wellFormed.tally_child he ho] at htally
    simpa using htally
  have hpos : 0 < seen.countP fun y => y.edge = (p, a) ∧ y.node = o.child :=
    hcount ▸ h.wellFormed.counted he o ho
  obtain ⟨x, hx, hmatch⟩ := List.countP_pos_iff.mp hpos
  obtain ⟨hedge, hnode⟩ := of_decide_eq_true hmatch
  have hkey : hidden.1.get? o.key = some x.state := by
    obtain ⟨n, hn, -, hstate⟩ := (h.stands x hx).target
    obtain ⟨child, hchild, hchildKey, -⟩ := h.wellFormed.child he o ho
    obtain rfl : child = n := Option.some.inj (hchild.symm.trans (hnode ▸ hn))
    exact hchildKey ▸ hstate
  refine ⟨x, hx, hedge, hnode, hkey, hcount.trans (List.countP_congr fun y hy => ?_)⟩
  rw [decide_eq_true_eq, decide_eq_true_eq]
  refine and_congr_right fun hy' => ?_
  rw [← hnode, h.node_eq_iff hy hx (hy'.trans hedge.symm)]

/-- **Keys tell states apart.** However many states are put into a new table, two of them get the
same key exactly when they agree in their atoms, the time that is left, the agenda and whether they
failed; the keys in use are those below the size of the table; and each key stands for its state,
and is found for it, from then on. In the search behind a decision a sample therefore goes to the
node for its state: two samples of one edge are merged exactly when their states are equal, and
every successor of an edge is counted as often as its state was drawn there. -/
theorem keys_tell_states_apart (m : Mdp α) (config : SearchConfig α) (k : ℕ) (start : State)
    (source : γ) :
    (∀ calls later : List State,
      let now := (Numbering.empty : StateTable).internAll calls
      let next := now.2.internAll later
      now.1.length = calls.length ∧
      (∀ (i j : ℕ) (s s' : State), calls[i]? = some s → calls[j]? = some s' →
        (now.1[i]? = now.1[j]? ↔ s.atoms = s'.atoms ∧ s.remaining = s'.remaining ∧
          s.agenda = s'.agenda ∧ s.isFailed = s'.isFailed)) ∧
      (∀ key : ℕ, key ∈ now.1 ↔ key < now.2.size) ∧
      (∀ (i : ℕ) (s : State) (key : ℕ), calls[i]? = some s → now.1[i]? = some key →
        next.2.get? key = some s ∧ next.2.number? s = some key) ∧
      ∀ (key : ℕ) (s : State), now.2.get? key = some s → next.2.get? key = some s) ∧
    (∀ n,
      let t := (m.searched k config start source n).1
      let table := (m.searched k config start source n).2.1
      let seen := m.searchSamples k config start source n
      (∀ x ∈ seen, m.Stands γ t table x) ∧
      (∀ x ∈ seen, ∀ y ∈ seen, x.edge = y.edge → (x.node = y.node ↔ x.state = y.state)) ∧
      ∀ p a e, t.edge? p a = some e → ∀ o ∈ e.outcomes, ∃ x ∈ seen, x.edge = (p, a) ∧
        x.node = o.child ∧ table.get? o.key = some x.state ∧
        o.count = seen.countP fun y => y.edge = (p, a) ∧ y.state = x.state) ∧
    ∀ {τ : Type} (clock : StateM τ ℕ) (first : ℕ) (others : List ℕ) (time : τ), others ≠ [] →
      let search := (m.recordedSearch clock config k start source).run time
      (m.decision clock config k start first others source).run time =
        (decided first others (forget search.1), search.2) ∧
      ∃ n ≤ config.iterations, (forget search.1).2 = m.searched k config start source n := by
  refine ⟨fun calls later => ?_, fun n => ?_, fun clock first others time hothers =>
    ⟨run_decision hothers, m.exists_searched_of_recordedSearch clock config k start source time⟩⟩
  · have hgrown := Numbering.prefix_internAll
      ((Numbering.empty : StateTable).internAll calls).2 later
    refine ⟨?_, fun i j s s' hs hs' => ?_, fun key => Numbering.mem_fst_internAll_empty,
      fun i s key hs hkey => ?_, fun key s hs => Numbering.get?_mono hgrown hs⟩
    · rw [Numbering.fst_internAll, List.length_map]
    · rw [← State.eq_iff]
      exact Numbering.getElem?_fst_internAll_inj hs hs'
    · have hget := Numbering.get?_mono hgrown (Numbering.get?_internAll hs hkey)
      exact ⟨hget, Numbering.number?_eq_some_iff.mpr hget⟩
  · have hsampled := m.sampled_searched k config start source n
    exact ⟨hsampled.stands, fun x hx y hy hedge => hsampled.node_eq_iff hx hy hedge,
      fun p a e he o ho => hsampled.exists_of_outcome he ho⟩

end Search

section Coin

attribute [local instance] Elementary.standIn wordsInOrder

variable {σ : Type}

/-- A root with these edges. -/
def hub (edges : List (Edge ℚ)) : Node ℚ := ⟨0, 0, none, edges.toArray, false, true⟩

/-- A root with these edges and its successors. For each successor there is its key, the action that
led to it, and whether all ends there. -/
def fan (edges : List (Edge ℚ)) (leaves : List (ℕ × ℕ × Bool)) : Tree ℚ :=
  ⟨(hub edges :: leaves.map fun x => .leaf x.1 1 (some (0, x.2.1)) x.2.2).toArray⟩

/-- A descent of depth one takes one edge, and meets what the environment answers. -/
theorem descend_fan {env : Environment σ ℚ} {edges : List (Edge ℚ)}
    {leaves : List (ℕ × ℕ × Bool)} {c : ℚ} {a : ℕ} {e : Edge ℚ} {next : Transition ℚ} {s s' : σ}
    (hselect : (hub edges).select c .avg = some a) (he : edges[a]? = some e)
    (hstep : env.step 0 a s = (next, s')) :
    (fan edges leaves).descend env c .avg 1 s =
      match e.outcome? next.next with
      | some known =>
        Tree.descendFrom env c .avg 0 known.child [(0, a)] (0 + next.reward)
          ((fan edges leaves).setEdge 0 (hub edges) a (e.meet next.next)) s'
      | none =>
        (.ok ⟨[(0, a)], leaves.length + 1, true, 0 + next.reward⟩,
          (fan edges leaves).grow 0 (hub edges) a e next.next next.terminal, s') := by
  have hroot : (fan edges leaves).node? Tree.root = some (hub edges) := rfl
  have hsize : (fan edges leaves).size = leaves.length + 1 := by simp [fan, Tree.size]
  have hanswer : env.step (hub edges).key a s = (next, s') := hstep
  have hedge : (hub edges).edges[a]? = some e := by simpa [hub] using he
  rw [Tree.descend]
  cases hmet : e.outcome? next.next with
  | none =>
      rw [Tree.descendFrom_of_new hroot rfl rfl hselect hedge (by rw [hanswer, hmet]), hanswer,
        hsize]
      rfl
  | some known =>
      rw [Tree.descendFrom_of_known hroot rfl rfl hselect hedge (by rw [hanswer, hmet]), hanswer]
      rfl

/-- Four iterations of depth one that go by the mean alone. -/
def glance : SearchConfig ℚ := ⟨4, none, 0, 1, 1, .discounted, 1, .avg⟩

/-- The first action is tried and wins; the second one is tried and does not; so the first one is
taken again, and even after a loss once more. -/
theorem iterations_glance {env : Environment σ ℚ} {s₀ s₁ s₂ s₃ s₄ : σ}
    (hcount : env.actionCount 0 s₀ = (2, s₀)) (hfirst : env.step 0 0 s₀ = (⟨1, 1, true⟩, s₁))
    (hsecond : env.step 0 1 s₁ = (⟨2, 0, false⟩, s₂))
    (hthird : env.step 0 0 s₂ = (⟨2, 0, false⟩, s₃))
    (hfourth : env.step 0 0 s₃ = (⟨1, 1, true⟩, s₄)) :
    (Tree.iterations env glance 4 (.ofRoot 0 false) s₀).2 =
      (fan [⟨0, ⟨3, 2, some 1⟩, [⟨1, 1, 2⟩, ⟨2, 3, 1⟩]⟩, ⟨1, ⟨1, 0, some 0⟩, [⟨2, 2, 1⟩]⟩]
        [(1, 0, true), (2, 1, false), (2, 0, false)], s₄) := by
  have hexpand : (Tree.ofRoot 0 false).descend env 0 .avg 1 s₀ =
      (fan [.ofAction 0, .ofAction 1] []).descend env 0 .avg 1 s₀ := by
    rw [Tree.descend, Tree.descendFrom_of_unexpanded (n := .leaf 0 0 none false) rfl rfl rfl
      (by simp [Node.leaf, hcount])]
    simp only [Node.leaf, hcount]
    rfl
  -- Each iteration asks for one step, so that the rest of it is a computation on a known tree.
  have hone : (Tree.ofRoot 0 false).iterate env glance s₀ =
      (.ok ⟨1, 1, 1, 0, 1⟩,
        fan [⟨0, ⟨1, 1, some 1⟩, [⟨1, 1, 1⟩]⟩, .ofAction 1] [(1, 0, true)], s₁) := by
    simp only [Tree.iterate, glance, hexpand]
    rw [descend_fan (a := 0) (by decide +kernel) rfl hfirst]
    with_unfolding_all rfl
  have htwo : (fan [⟨0, ⟨1, 1, some 1⟩, [⟨1, 1, 1⟩]⟩, .ofAction 1]
        [(1, 0, true)]).iterate env glance s₁ =
      (.ok ⟨2, 1, 0, 0, 0⟩,
        fan [⟨0, ⟨1, 1, some 1⟩, [⟨1, 1, 1⟩]⟩, ⟨1, ⟨1, 0, some 0⟩, [⟨2, 2, 1⟩]⟩]
          [(1, 0, true), (2, 1, false)], s₂) := by
    simp only [Tree.iterate, glance]
    rw [descend_fan (a := 1) (by decide +kernel) rfl hsecond]
    with_unfolding_all rfl
  have hthree : (fan [⟨0, ⟨1, 1, some 1⟩, [⟨1, 1, 1⟩]⟩, ⟨1, ⟨1, 0, some 0⟩, [⟨2, 2, 1⟩]⟩]
        [(1, 0, true), (2, 1, false)]).iterate env glance s₂ =
      (.ok ⟨3, 1, 0, 0, 0⟩,
        fan [⟨0, ⟨2, 1, some 1⟩, [⟨1, 1, 1⟩, ⟨2, 3, 1⟩]⟩, ⟨1, ⟨1, 0, some 0⟩, [⟨2, 2, 1⟩]⟩]
          [(1, 0, true), (2, 1, false), (2, 0, false)], s₃) := by
    simp only [Tree.iterate, glance]
    rw [descend_fan (a := 0) (by decide +kernel) rfl hthird]
    with_unfolding_all rfl
  have hfour : (fan [⟨0, ⟨2, 1, some 1⟩, [⟨1, 1, 1⟩, ⟨2, 3, 1⟩]⟩, ⟨1, ⟨1, 0, some 0⟩, [⟨2, 2, 1⟩]⟩]
        [(1, 0, true), (2, 1, false), (2, 0, false)]).iterate env glance s₃ =
      (.ok ⟨1, 1, 1, 0, 1⟩,
        fan [⟨0, ⟨3, 2, some 1⟩, [⟨1, 1, 2⟩, ⟨2, 3, 1⟩]⟩, ⟨1, ⟨1, 0, some 0⟩, [⟨2, 2, 1⟩]⟩]
          [(1, 0, true), (2, 1, false), (2, 0, false)], s₄) := by
    simp only [Tree.iterate, glance]
    rw [descend_fan (a := 0) (by decide +kernel) rfl hfourth]
    with_unfolding_all rfl
  rw [Tree.iterations_of_ok hone, Tree.iterations_of_ok htwo, Tree.iterations_of_ok hthree,
    Tree.iterations_of_ok hfour, Tree.iterations]

/-- A toss that is run to completion, or one tick of rest. -/
def coin : Mdp ℚ :=
  combinationProcess ⟨⟨"coin", {}, .empty, .empty, [⟨⟨1⟩, true⟩], 2⟩, [toss, serve "rest" []], []⟩ 1

/-- The coin has fallen on heads. -/
def heads : State := .running (.ofList [⟨1⟩]) 1 .empty

/-- The coin has fallen on tails, or was not tossed. -/
def tails : State := .running .empty 1 .empty

/-- Heads, a tick of rest, tails, and heads again. -/
def tosses : List UInt64 := [0, 0, 18446744073709551615, 0]

/-- The table after so many states were met. -/
def met (n : ℕ) : StateTable := .ofList ([coin.initialState, heads, tails].take n)

theorem nodup_met : ∀ n ≤ 3, ([coin.initialState, heads, tails].take n).Nodup := by
  decide +kernel

/-- `intern` gives each state the next key when it is met for the first time, and the same key
later. -/
theorem intern_met : Numbering.empty.intern coin.initialState = (0, met 1) ∧
    (met 1).intern heads = (1, met 2) ∧ (met 2).intern tails = (2, met 3) ∧
    (met 3).intern heads = (1, met 3) ∧ (met 3).intern tails = (2, met 3) := by
  refine ⟨?_, ?_, ?_, ?_, ?_⟩
  · exact Numbering.intern_ofList_of_notMem (nodup_met 0 (by decide)) List.not_mem_nil
  · exact Numbering.intern_ofList_of_notMem (nodup_met 1 (by decide)) (by decide +kernel)
  · exact Numbering.intern_ofList_of_notMem (nodup_met 2 (by decide)) (by decide +kernel)
  · exact Numbering.intern_ofList_of_mem (nodup_met 3 (by decide)) (by decide +kernel)
  · exact Numbering.intern_ofList_of_mem (nodup_met 3 (by decide)) (by decide +kernel)

/-- The toss leads to two nodes, one of which was met twice. That a tick of rest and a toss on tails
lead to the same state does not bring their nodes together. -/
theorem searched_coin :
    coin.searched 1 glance coin.initialState tosses 4 =
      (fan [⟨0, ⟨3, 2, some 1⟩, [⟨1, 1, 2⟩, ⟨2, 3, 1⟩]⟩, ⟨1, ⟨1, 0, some 0⟩, [⟨2, 2, 1⟩]⟩]
        [(1, 0, true), (2, 1, false), (2, 0, false)], met 3, []) := by
  obtain ⟨hroot, hheads, htails, hheads', htails'⟩ := intern_met
  have hget (n : ℕ) (hn : n + 1 ≤ 3) : (met (n + 1)).get? 0 = some coin.initialState :=
    Numbering.get?_ofList (nodup_met (n + 1) hn) 0
  obtain ⟨happlicable, hlive, hwon, hlost, hgain, hnone⟩ :
      coin.applicable coin.initialState = [0, 1] ∧ coin.isTerminal coin.initialState = false ∧
      coin.isTerminal heads = true ∧ coin.isTerminal tails = false ∧
      coin.progress coin.initialState heads = 1 ∧ coin.progress coin.initialState tails = 0 := by
    decide +kernel
  have htoss : (coin.applicable coin.initialState)[0]? = some 0 := by rw [happlicable]; rfl
  have hrest : (coin.applicable coin.initialState)[1]? = some 1 := by rw [happlicable]; rfl
  obtain ⟨hdraw₁, hdraw₂, hdraw₃, hdraw₄⟩ :
      coin.draw coin.initialState 0 tosses = (heads, tosses.drop 1) ∧
      coin.draw coin.initialState 1 (tosses.drop 1) = (tails, tosses.drop 2) ∧
      coin.draw coin.initialState 0 (tosses.drop 2) = (tails, tosses.drop 3) ∧
      coin.draw coin.initialState 0 (tosses.drop 3) = (heads, tosses.drop 4) := by
    decide +kernel
  have hcount : (coin.environment 1).actionCount 0 (met 1, tosses) = (2, met 1, tosses) := by
    rw [environment_actionCount (hget 0 (by decide)), hlive, happlicable]
    rfl
  have hfirst : (coin.environment 1).step 0 0 (met 1, tosses) =
      (⟨1, 1, true⟩, met 2, tosses.drop 1) := by
    rw [environment_step (hget 0 (by decide)) htoss, hdraw₁]
    simp only [hheads, hgain, hwon]
  have hsecond : (coin.environment 1).step 0 1 (met 2, tosses.drop 1) =
      (⟨2, 0, false⟩, met 3, tosses.drop 2) := by
    rw [environment_step (hget 1 (by decide)) hrest, hdraw₂]
    simp only [htails, hnone, hlost]
  have hthird : (coin.environment 1).step 0 0 (met 3, tosses.drop 2) =
      (⟨2, 0, false⟩, met 3, tosses.drop 3) := by
    rw [environment_step (hget 2 (by decide)) htoss, hdraw₃]
    simp only [htails', hnone, hlost]
  have hfourth : (coin.environment 1).step 0 0 (met 3, tosses.drop 3) =
      (⟨1, 1, true⟩, met 3, tosses.drop 4) := by
    rw [environment_step (hget 2 (by decide)) htoss, hdraw₄]
    simp only [hheads', hgain, hwon]
  rw [searched, hroot]
  exact iterations_glance hcount hfirst hsecond hthird hfourth

/-- A state that has failed is told apart from one in which nothing holds and no time is left, and
what is numbered later changes neither. In a search of four iterations the coin is tossed three
times: the two tosses on heads go to one node, and the toss on tails goes to another. -/
theorem keys_tell_states_apart_coin :
    let calls := [State.failed, .running .empty 0 .empty, .failed]
    let keys := ((Numbering.empty : StateTable).internAll calls).1
    let table := ((Numbering.empty : StateTable).internAll calls).2
    let seen := coin.searchSamples 1 glance coin.initialState tosses 4
    keys[0]? = keys[2]? ∧ keys[0]? ≠ keys[1]? ∧
    (∃ key ∈ keys, (table.internAll [heads, tails]).2.get? key = some (.running .empty 0 .empty)) ∧
    (∃ x ∈ seen, ∃ y ∈ seen, x.edge = (0, 0) ∧ y.edge = (0, 0) ∧ x.state = heads ∧
      y.state = tails ∧ x.node ≠ y.node ∧
      seen.countP (fun z => z.edge = (0, 0) ∧ z.state = heads) = 2) ∧
    coin.applicable coin.initialState = [0, 1] ∧
    let clock : StateM Unit ℕ := pure 0
    let search := (coin.recordedSearch clock glance 1 coin.initialState tosses).run ()
    (coin.decision clock glance 1 coin.initialState 0 [1] tosses).run () =
      (decided 0 [1] (forget search.1), search.2) ∧
    ∃ n ≤ 4, (forget search.1).2 = coin.searched 1 glance coin.initialState tosses n := by
  intro calls keys table seen
  obtain ⟨hcalls, hsearch, hdecision⟩ :=
    keys_tell_states_apart coin glance 1 coin.initialState tosses
  obtain ⟨hlength, hsame, -, hkept, -⟩ := hcalls calls [heads, tails]
  obtain ⟨-, hmerged, hcounted⟩ := hsearch 4
  have hkey := List.getElem?_eq_getElem (show 1 < keys.length by rw [hlength]; decide)
  have hget (n : ℕ) : (met 3).get? n = [coin.initialState, heads, tails][n]? :=
    Numbering.get?_ofList (nodup_met 3 le_rfl) n
  rw [searched_coin] at hcounted
  obtain ⟨x, hx, hedge, -, hstate, hcount⟩ := hcounted 0 0 _ rfl ⟨1, 1, 2⟩ (by decide)
  obtain ⟨y, hy, hedge', -, hstate', -⟩ := hcounted 0 0 _ rfl ⟨2, 3, 1⟩ (by decide)
  have hx' : heads = x.state := Option.some.inj ((hget 1).symm.trans hstate)
  have hy' : tails = y.state := Option.some.inj ((hget 2).symm.trans hstate')
  have hne : heads ≠ tails := by decide +kernel
  rw [← hx'] at hcount
  refine ⟨?_, ?_, ?_, ?_, ?_, ?_⟩
  · exact (hsame 0 2 _ _ rfl rfl).mpr ⟨rfl, rfl, rfl, rfl⟩
  · exact fun heq => absurd ((hsame 0 1 _ _ rfl rfl).mp heq) (by decide +kernel)
  · exact ⟨_, List.mem_of_getElem? hkey, (hkept 1 _ _ rfl hkey).1⟩
  · refine ⟨x, hx, y, hy, hedge, hedge', hx'.symm, hy'.symm, fun hnode => hne ?_, hcount.symm⟩
    rw [hx', hy']
    exact (hmerged x hx y hy (hedge.trans hedge'.symm)).mp hnode
  · decide +kernel
  · exact hdecision (pure 0 : StateM Unit ℕ) 0 [1] () (by decide)

end Coin

end Mdp

end DurativePlanning
