import DurativePlanning.Proofs.Exact
import DurativePlanning.Proofs.Search.Tally
import Mathlib.Algebra.BigOperators.Group.Finset.Piecewise
import Mathlib.Data.Rat.Floor

/-!
# The Statistics of a Search

A search keeps no record of its iterations, only their statistics at the edges of its tree. This
module sets the two side by side: for any sequence of iterations, some of which may fail, what the
tree holds at an edge is what the log of the iterations says of that edge. Over exact numbers the
returns at an edge are then summed up without loss.

* `Visit`, `Tree.Logged`: what one iteration did, and the trees that a log of iterations leads to.
* `Tree.Logged.statsAt_eq`, `Tree.Logged.tallyAt_eq`: the statistics as folds over the log.
* `Tree.statistics_of_logged`: the statistics of an edge, of a failed iteration and of a run.
-/

namespace DurativePlanning

variable {σ α : Type}

/-- **What one iteration did**: its descent, and what it reported in the end. -/
structure Visit (α : Type) where
  descent : Except TreeError (Descent α)
  result : Except TreeError (Iteration α)

namespace Visit

/-- The edges that the descent took, in order. -/
def path (v : Visit α) : List (ℕ × ℕ) :=
  match v.descent with
  | .ok d => d.path
  | .error _ => []

/-- The edges that the descent took, each with the node that it entered through the edge. -/
def moves (v : Visit α) : List ((ℕ × ℕ) × ℕ) :=
  match v.descent with
  | .ok d => Tree.moves d.path d.leaf
  | .error _ => []

/-- The total return; a failed iteration has none. -/
def return? (v : Visit α) : Option α :=
  match v.result with
  | .ok i => some i.totalReturn
  | .error _ => none

theorem map_fst_moves (v : Visit α) : v.moves.map Prod.fst = v.path := by
  rw [moves, path]
  split
  · exact Tree.map_fst_moves _ _
  · rfl

end Visit

/-- The returns of the iterations that took an edge and succeeded, in order. -/
def returnsAt (log : List (Visit α)) (p a : ℕ) : List α :=
  (log.filter fun v => (p, a) ∈ v.path).filterMap Visit.return?

/-- One more iteration adds its return where its path took the edge. -/
theorem returnsAt_concat (log : List (Visit α)) (v : Visit α) (p a : ℕ) :
    returnsAt (log ++ [v]) p a =
      returnsAt log p a ++ if (p, a) ∈ v.path then v.return?.toList else [] := by
  rw [returnsAt, List.filter_append, List.filterMap_append, returnsAt]
  by_cases h : (p, a) ∈ v.path
  · rw [if_pos h, List.filter_cons_of_pos (by simpa using h)]
    cases hv : v.return? <;> simp [hv]
  · rw [if_neg h, List.filter_cons_of_neg (by simpa using h)]
    rfl

/-- The sum over a log of how often `y` occurs in lists without repetitions is the number of lists
that have it. -/
theorem sum_map_count {β γ : Type} [BEq γ] [LawfulBEq γ] {l : List β} {f : β → List γ}
    (hnodup : ∀ x ∈ l, (f x).Nodup) (y : γ) :
    (l.map fun x => (f x).count y).sum = l.countP fun x => y ∈ f x := by
  induction l with
  | nil => rfl
  | cons x rest ih =>
      rw [List.forall_mem_cons] at hnodup
      rw [List.map_cons, List.sum_cons, ih hnodup.2, hnodup.1.count, List.countP_cons]
      simp only [decide_eq_true_eq]
      omega

/-- Where it succeeded and where it failed, an iteration took an edge. -/
theorem countP_path_eq (log : List (Visit α)) (p a : ℕ) :
    log.countP (fun v => (p, a) ∈ v.path) =
      (returnsAt log p a).length +
        log.countP fun v => (p, a) ∈ v.path ∧ v.return?.isNone = true := by
  induction log with
  | nil => rfl
  | cons v rest ih =>
      rw [List.countP_cons, List.countP_cons, ih, returnsAt, returnsAt]
      by_cases hmem : (p, a) ∈ v.path
      · rw [List.filter_cons_of_pos (by simpa using hmem)]
        cases hv : v.return? <;> simp [hv, hmem] <;> omega
      · rw [List.filter_cons_of_neg (by simpa using hmem)]
        simp [hmem]

namespace Tree

/-- The `count` of a successor is how often the edge was followed to its node. -/
theorem WellFormed.tally_child {t : Tree α} (ht : t.WellFormed) {p a : ℕ} {e : Edge α}
    (he : t.edge? p a = some e) {o : OutcomeEntry} (ho : o ∈ e.outcomes) :
    e.tally (· == o.child) = o.count := by
  have hcount : e.outcomes.count o = 1 :=
    List.count_eq_one_of_mem ((ht.distinct he).of_map _) ho
  rw [Edge.tally, List.sum_map_eq_nsmul_single o, hcount, one_nsmul]
  · simp
  · intro o' hne ho'
    have hchild : o'.child ≠ o.child := fun h => hne (ht.eq_of_child_eq he ho ho' h)
    simp [hchild]

variable [SearchArithmetic α]

/-- What an iteration would do. -/
def visit (t : Tree α) (env : Environment σ α) (config : SearchConfig α) (s : σ) : Visit α :=
  ⟨(t.descend env config.c config.selection config.maxDepth s).1, (t.iterate env config s).1⟩

/-- **The trees that a log of iterations leads to**, from a fresh tree: each iteration has settings,
an environment and a hidden state of its own, and may fail. -/
inductive Logged : Tree α → List (Visit α) → Prop
  | fresh (key : ℕ) (terminal : Bool) : Logged (.ofRoot key terminal) []
  | iterate {σ : Type} {t : Tree α} {log : List (Visit α)} (env : Environment σ α)
      (config : SearchConfig α) (s : σ) :
      Logged t log → Logged (t.iterate env config s).2.1 (log ++ [t.visit env config s])

variable {t : Tree α} {log : List (Visit α)}

theorem Logged.wellFormed (h : Logged t log) : t.WellFormed := by
  induction h with
  | fresh key terminal => exact wellFormed_ofRoot key terminal
  | iterate env config s _ ih => exact ih.iterate env config s

/-- Every descent succeeded, and left no node twice. -/
theorem Logged.exists_descent (h : Logged t log) :
    ∀ v ∈ log, ∃ d, v.descent = .ok d ∧ (d.path.map Prod.fst).Nodup := by
  induction h with
  | fresh => exact fun v hv => absurd hv List.not_mem_nil
  | iterate env config s h ih =>
      obtain ⟨d, hd, hnodup, -⟩ := iterate_counts h.wellFormed env config s
      rw [List.forall_mem_append, List.forall_mem_singleton]
      exact ⟨ih, d, hd, hnodup⟩

/-- The edges that a descent took are edges of the tree. -/
theorem Logged.exists_edge? (h : Logged t log) :
    ∀ v ∈ log, ∀ x ∈ v.path, ∃ e, t.edge? x.1 x.2 = some e := by
  induction h with
  | fresh => exact fun v hv => absurd hv List.not_mem_nil
  | @iterate σ t log env config s h ih =>
      obtain ⟨-, hlinks, hedges⟩ := h.wellFormed.keeps_iterate env config s
      rw [List.forall_mem_append, List.forall_mem_singleton]
      refine ⟨fun v hv x hx => ?_, fun x hx => ?_⟩
      · obtain ⟨e, he⟩ := ih v hv x hx
        obtain ⟨e', he', -⟩ := hlinks he
        exact ⟨e', he'⟩
      · obtain ⟨d, hd, -⟩ := iterate_counts h.wellFormed env config s
        simp only [Visit.path, visit, hd] at hx
        exact hedges d hd x hx

/-- **The returns of the log** are recorded at the edge, in order: `statsAt` is `returnsAt` folded
by `record`. -/
theorem Logged.statsAt_eq (h : Logged t log) (p a : ℕ) :
    t.statsAt p a = (returnsAt log p a).foldl EdgeStats.record .empty := by
  induction h with
  | fresh key terminal =>
      rw [statsAt, edge?_ofRoot]
      rfl
  | @iterate σ t log env config s h ih =>
      obtain ⟨d, hd, -, -, hstats⟩ := iterate_counts h.wellFormed env config s
      rw [hstats, returnsAt_concat, List.foldl_append, ← ih]
      simp only [Visit.path, Visit.return?, visit, hd]
      by_cases hmem : (p, a) ∈ d.path
      · simp only [if_pos hmem]
        cases (t.iterate env config s).1 <;> rfl
      · simp only [if_neg hmem]
        cases (t.iterate env config s).1 <;> rfl

/-- **The moves of the log** are counted at the edge by `tallyAt`. -/
theorem Logged.tallyAt_eq (h : Logged t log) (p a : ℕ) (counts : ℕ → Bool) :
    t.tallyAt p a counts =
      (log.map fun v => v.moves.countP fun x => x.1 = (p, a) ∧ counts x.2 = true).sum := by
  induction h with
  | fresh key terminal =>
      rw [tallyAt, edge?_ofRoot]
      rfl
  | @iterate σ t log env config s h ih =>
      obtain ⟨d, hd, -, htally, -⟩ := iterate_counts h.wellFormed env config s
      rw [htally, ih, List.map_append, List.sum_append, List.map_singleton, List.sum_singleton]
      simp only [Visit.moves, visit, hd]

/-! ### The successors of an edge -/

/-- **The counts of an edge** add up to the iterations whose descents took it, whether they failed
or not: `tallyAt` with all nodes. -/
theorem Logged.sum_counts (h : Logged t log) {p a : ℕ} {e : Edge α} (he : t.edge? p a = some e) :
    (e.outcomes.map (·.count)).sum = log.countP fun v => (p, a) ∈ v.path := by
  have htally := h.tallyAt_eq p a fun _ => true
  rw [tallyAt_of_edge? he] at htally
  have hpaths : ∀ v ∈ log, v.path.Nodup := fun v hv => by
    obtain ⟨d, hd, hnodup⟩ := h.exists_descent v hv
    rw [Visit.path, hd]
    exact hnodup.of_map _
  rw [← sum_map_count hpaths]
  refine Eq.trans ?_ (htally.trans ?_)
  · simp [Edge.tally]
  · refine congrArg List.sum (List.map_congr_left fun v _ => ?_)
    rw [← v.map_fst_moves, List.count, List.countP_map]
    exact List.countP_congr fun x _ => by simp

/-- **The count of one successor** is the number of iterations whose descents entered its node
through the edge. -/
theorem Logged.count_eq (h : Logged t log) {p a : ℕ} {e : Edge α} (he : t.edge? p a = some e)
    {o : OutcomeEntry} (ho : o ∈ e.outcomes) :
    o.count = log.countP fun v => ((p, a), o.child) ∈ v.moves := by
  have htally := h.tallyAt_eq p a (· == o.child)
  rw [tallyAt_of_edge? he, h.wellFormed.tally_child he ho] at htally
  have hmoves : ∀ v ∈ log, v.moves.Nodup := fun v hv => by
    obtain ⟨d, hd, hnodup⟩ := h.exists_descent v hv
    refine List.Nodup.of_map Prod.fst ?_
    rw [v.map_fst_moves, Visit.path, hd]
    exact hnodup.of_map _
  rw [← sum_map_count hmoves, htally]
  refine congrArg List.sum (List.map_congr_left fun v _ => ?_)
  exact List.countP_congr fun x _ => by simp [Prod.ext_iff]

/-- **A failed iteration** changes the statistics of no edge. -/
theorem Logged.statsAt_of_error (h : Logged t log) {env : Environment σ α}
    {config : SearchConfig α} {s : σ} {cause : TreeError}
    (herror : (t.iterate env config s).1 = .error cause) (p a : ℕ) :
    (t.iterate env config s).2.1.statsAt p a = t.statsAt p a := by
  obtain ⟨d, -, -, -, hstats⟩ := iterate_counts h.wellFormed env config s
  rw [hstats, herror]

end Tree

/-! ### Sums over classes -/

/-- What is summed up separately for each of some classes, of which every entry has exactly one, is
summed up once. -/
theorem sum_range_filter {β M : Type} [AddCommMonoid M] {l : List β} {size : ℕ}
    {picks : ℕ → β → Bool} (h : ∀ x ∈ l, ∃ a < size, ∀ b, picks b x = true ↔ b = a) (f : β → M) :
    ((List.range size).map fun b => ((l.filter (picks b)).map f).sum).sum = (l.map f).sum := by
  change ∑ b ∈ Finset.range size, _ = _
  induction l with
  | nil => simp
  | cons x rest ih =>
      rw [List.forall_mem_cons] at h
      obtain ⟨⟨a, ha, hpicks⟩, hrest⟩ := h
      have hsplit : ∀ b, (((x :: rest).filter (picks b)).map f).sum =
          (if b = a then f x else 0) + ((rest.filter (picks b)).map f).sum := by
        intro b
        by_cases hb : b = a
        · rw [List.filter_cons_of_pos ((hpicks b).mpr hb), if_pos hb]
          rfl
        · rw [List.filter_cons_of_neg fun h => hb ((hpicks b).mp h), if_neg hb, zero_add]
      simp only [hsplit, Finset.sum_add_distrib, ih hrest, Finset.sum_ite_eq',
        Finset.mem_range, if_pos ha]
      rfl

/-- A sum over the values that some entries have is a sum over the entries. -/
theorem sum_map_filterMap {β γ M : Type} [AddCommMonoid M] (f : β → Option γ) (g : γ → M)
    (l : List β) :
    ((l.filterMap f).map g).sum = (l.map fun x => ((f x).map g).getD 0).sum := by
  induction l with
  | nil => rfl
  | cons x rest ih => cases hx : f x <;> simp [hx, ih]

/-! ### Exact statistics -/

/-- `visits` goes up by one for each return that is recorded. -/
theorem EdgeStats.visits_foldl_record [SearchArithmetic α] (xs : List α) (s : EdgeStats α) :
    (xs.foldl record s).visits = s.visits + xs.length := by
  induction xs generalizing s with
  | nil => rfl
  | cons x rest ih =>
      rw [List.foldl_cons, ih, List.length_cons]
      simp only [record]
      omega

section Exact

variable {K : Type} [Field K] [LinearOrder K] [IsStrictOrderedRing K] [FloorSemiring K]
  [Elementary K]

namespace EdgeStats

theorem total_foldl_record (xs : List K) (s : EdgeStats K) :
    (xs.foldl record s).total = s.total + xs.sum := by
  induction xs generalizing s with
  | nil => exact (add_zero _).symm
  | cons x rest ih =>
      rw [List.foldl_cons, ih, List.sum_cons, ← add_assoc]
      rfl

/-- The greater of two returns is kept. -/
theorem raise_some (x y : K) : raise (some y) x = some (max y x) := by
  rw [raise]
  rcases lt_or_ge y x with h | h
  · rw [if_pos h, max_eq_right h.le]
  · rw [if_neg (not_lt.mpr h), max_eq_left h]

/-- After a first return the greatest of all is kept. -/
theorem greatest_foldl_record_of_some {xs : List K} {s : EdgeStats K} {y : K}
    (hs : s.greatest = some y) : (xs.foldl record s).greatest = some (xs.foldl max y) := by
  induction xs generalizing s y with
  | nil => exact hs
  | cons x rest ih =>
      have hnext : (s.record x).greatest = some (max y x) := by
        rw [record, hs, raise_some]
      exact ih hnext

/-- The **greatest** return is that of `List.max?`. -/
theorem greatest_foldl_record (xs : List K) :
    (xs.foldl record (empty : EdgeStats K)).greatest = xs.max? := by
  cases xs with
  | nil => rfl
  | cons x rest =>
      rw [List.max?_cons', List.foldl_cons]
      exact greatest_foldl_record_of_some (s := (empty : EdgeStats K).record x) rfl

/-- The **mean** `q` of the returns, zero without any. -/
theorem q_foldl_record (xs : List K) : (xs.foldl record (empty : EdgeStats K)).q =
    if xs = [] then 0 else xs.sum / xs.length := by
  have hvisits : (xs.foldl record (empty : EdgeStats K)).visits = xs.length :=
    (visits_foldl_record xs empty).trans (Nat.zero_add _)
  have htotal : (xs.foldl record (empty : EdgeStats K)).total = xs.sum :=
    (total_foldl_record xs empty).trans (zero_add _)
  rw [q, hvisits, htotal]
  simp only [List.length_eq_zero_iff]
  rfl

/-- The greatest `best` of the returns, zero without any. -/
theorem best_foldl_record (xs : List K) :
    (xs.foldl record (empty : EdgeStats K)).best = xs.max?.getD 0 := by
  have hvisits : (xs.foldl record (empty : EdgeStats K)).visits = xs.length :=
    (visits_foldl_record xs empty).trans (Nat.zero_add _)
  rw [best, hvisits, greatest_foldl_record]
  cases xs with
  | nil => rfl
  | cons x rest => rfl

end EdgeStats

namespace EdgeStats

/-- `visits` times `q` is the sum of the returns. -/
theorem visits_mul_q_foldl_record (xs : List K) :
    ((xs.foldl record (empty : EdgeStats K)).visits : K) *
      (xs.foldl record (empty : EdgeStats K)).q = xs.sum := by
  rw [q_foldl_record, visits_foldl_record]
  cases xs with
  | nil => exact mul_zero _
  | cons x rest =>
      have hlength : ((x :: rest).length : K) ≠ 0 := by
        rw [List.length_cons]
        exact Nat.cast_ne_zero.mpr (Nat.succ_ne_zero _)
      rw [if_neg (List.cons_ne_nil x rest)]
      change ((0 + (x :: rest).length : ℕ) : K) * _ = _
      rw [Nat.zero_add, mul_div_cancel₀ _ hlength]

end EdgeStats

namespace Tree

/-! ### The totals of a run -/

variable {t : Tree K} {log : List (Visit K)}

/-- The statistics of the edges of a node in order. -/
theorem map_stats_eq {n : Node K} {i : ℕ} (hn : t.node? i = some n) :
    n.edges.toList.map (·.stats) = (List.range n.edges.size).map (t.statsAt i) := by
  refine List.ext_getElem (by simp) fun a ha _ => ?_
  rw [List.length_map, Array.length_toList] at ha
  have hat : t.edge? i a = some n.edges[a] :=
    (edge?_of_node? hn a).trans (Array.getElem?_eq_getElem ha)
  rw [List.getElem_map, Array.getElem_toList, List.getElem_map, List.getElem_range,
    statsAt_of_edge? hat]

/-- A quantity summed up over the edges of the root is summed up over the returns of the log, if
each iteration succeeded and took an edge of the root. -/
theorem Logged.sum_root {M : Type} [AddCommMonoid M] (h : Logged t log) {n : Node K}
    (hn : t.node? root = some n) (hroot : ∀ v ∈ log, ∃ a, (root, a) ∈ v.path)
    (read : EdgeStats K → M) {g : K → M}
    (hread : ∀ xs : List K, read (xs.foldl EdgeStats.record .empty) = (xs.map g).sum) :
    (n.edges.toList.map fun e => read e.stats).sum = ((log.filterMap Visit.return?).map g).sum := by
  have hclass : ∀ v ∈ log, ∃ a < n.edges.size, ∀ b, decide ((root, b) ∈ v.path) = true ↔ b = a := by
    intro v hv
    obtain ⟨a, ha⟩ := hroot v hv
    obtain ⟨d, hd, hnodup⟩ := h.exists_descent v hv
    obtain ⟨e, he⟩ := h.exists_edge? v hv _ ha
    obtain ⟨n', hn', he'⟩ := edge?_eq_some_iff.mp he
    obtain rfl : n = n' := Option.some.inj (hn.symm.trans hn')
    refine ⟨a, (Array.getElem?_eq_some_iff.mp he').1, fun b => ?_⟩
    rw [decide_eq_true_eq]
    refine ⟨fun hb => ?_, fun hb => hb ▸ ha⟩
    rw [Visit.path, hd] at ha hb
    exact congrArg Prod.snd (List.inj_on_of_nodup_map hnodup hb ha rfl)
  have hmap : n.edges.toList.map (fun e => read e.stats) =
      (List.range n.edges.size).map fun b => read (t.statsAt root b) := by
    have hstats := congrArg (List.map read) (map_stats_eq hn)
    rwa [List.map_map, List.map_map] at hstats
  rw [hmap]
  simp only [h.statsAt_eq, hread, returnsAt, sum_map_filterMap]
  exact sum_range_filter hclass _

/-- **What holds while a run goes on** without errors: the totals are those of the log, every
descent has left the root, and the next one will. -/
structure Tallied (env : Environment σ K) (metrics : RunMetrics K) (t : Tree K) (s : σ)
    (log : List (Visit K)) : Prop where
  logged : Logged t log
  left : ∀ v ∈ log, ∃ a, (root, a) ∈ v.path
  completed : (log.filterMap Visit.return?).length = metrics.completed
  sum : (log.filterMap Visit.return?).sum = metrics.sum
  offers : ∃ n, t.node? root = some n ∧ n.terminal = false ∧
    (n.expanded = true ∨ (env.actionCount n.key s).1 ≠ 0)

variable {env : Environment σ K} {config : SearchConfig K} {metrics : RunMetrics K} {s s' : σ}
  {t' : Tree K} {i : Iteration K}

/-- One more iteration without an error keeps `Tallied`, with the iteration added to the log. -/
theorem Tallied.iterate (h : Tallied env metrics t s log) (hdepth : config.maxDepth ≠ 0)
    (hi : t.iterate env config s = (.ok i, t', s')) :
    Tallied env (metrics.record i) t' s' (log ++ [t.visit env config s]) := by
  obtain ⟨n, hn, hterminal, hopen⟩ := h.offers
  have ht := h.logged.wellFormed
  obtain ⟨d, t₁, s₁, hd, hwalk, hne⟩ :=
    descend_walk ht env config.c config.selection config.maxDepth s
  obtain ⟨rest, hnodes⟩ := hwalk.exists_nodes
  obtain ⟨a, ha⟩ : ∃ a, (root, a) ∈ d.path := by
    obtain ⟨⟨p, a⟩, path, hpath⟩ := List.exists_cons_of_ne_nil (hne hn hterminal hdepth hopen)
    rw [hpath] at hnodes ⊢
    obtain rfl : p = root := (List.cons.inj hnodes).1
    exact ⟨a, List.mem_cons_self⟩
  have hvisit : (t.visit env config s).path = d.path := by
    simp only [Visit.path, visit, hd]
  have hreturn : (t.visit env config s).return? = some i.totalReturn := by
    simp only [Visit.return?, visit, hi]
  have hlogged := h.logged.iterate env config s
  obtain ⟨hkeeps, -, hedges⟩ := ht.keeps_iterate env config s
  rw [hi] at hlogged hkeeps hedges
  refine ⟨hlogged, ?_, ?_, ?_, ?_⟩
  · rw [List.forall_mem_append, List.forall_mem_singleton, hvisit]
    exact ⟨h.left, a, ha⟩
  · rw [List.filterMap_append, List.length_append, h.completed]
    simp [hreturn, RunMetrics.record]
  · rw [List.filterMap_append, List.sum_append, h.sum]
    simp [hreturn, RunMetrics.record]
  · obtain ⟨n', hn', hbare⟩ := hkeeps hn
    obtain ⟨e, he⟩ := hedges d (congrArg Prod.fst hd) _ ha
    obtain ⟨n'', hn'', he⟩ := edge?_eq_some_iff.mp he
    obtain rfl : n' = n'' := Option.some.inj (hn'.symm.trans hn'')
    refine ⟨n', hn', (Node.terminal_eq_of_bare_eq hbare).trans hterminal, Or.inl ?_⟩
    exact (hlogged.wellFormed.expanded hn').mpr
      (Nat.zero_lt_of_lt (Array.getElem?_eq_some_iff.mp he).1)

/-- What holds at the end of a run without errors from a fresh tree: `Tallied` for the log of its
iterations. -/
theorem run_tallied {τ : Type} (clock : StateM τ ℕ) (key : ℕ) (time : τ)
    (hactions : (env.actionCount key s).1 ≠ 0) (hdepth : config.maxDepth ≠ 0) :
    Ends (fun metrics _ t s => ∃ log, Tallied env metrics t s log) (fun _ _ => True)
      (((ofRoot key false).run clock env config s).run time).1 := by
  rw [run, run_bind]
  refine runFrom_induction ?_ (fun _ _ _ _ _ _ _ _ => trivial) ?_ (fun _ _ _ _ _ _ _ _ _ => trivial)
    ⟨[], .fresh key false, fun v hv => absurd hv List.not_mem_nil, rfl, rfl, _, rfl, rfl,
      Or.inr hactions⟩
  · rintro metrics its t s ⟨log, h⟩
    exact ⟨log, h.logged, h.left, h.completed, h.sum, h.offers⟩
  · rintro metrics its t s i t' s' ⟨log, h⟩ hi
    exact ⟨_, h.iterate hdepth hi⟩

/-- **The statistics of a search are the log of its iterations.** After any sequence of iterations
no descent took an edge twice, an edge holds the number, the mean and the greatest of the returns of
exactly those iterations that took it and succeeded, and the count of a successor is the number of
iterations that entered its node through the edge; failed iterations are counted there only. So the
edges of the root add up to the totals of a run. -/
theorem statistics_of_logged (h : Logged t log) :
    (∀ v ∈ log, ∃ d, v.descent = .ok d ∧ d.path.Nodup) ∧
    (∀ p a e, t.edge? p a = some e →
      e.stats.visits = (returnsAt log p a).length ∧
      e.stats.q = (if returnsAt log p a = [] then 0
        else (returnsAt log p a).sum / (returnsAt log p a).length) ∧
      e.stats.best = (returnsAt log p a).max?.getD 0 ∧
      (e.outcomes.map (·.count)).sum = e.stats.visits +
        log.countP (fun v => (p, a) ∈ v.path ∧ v.return?.isNone = true) ∧
      ∀ o ∈ e.outcomes, o.count = log.countP fun v => ((p, a), o.child) ∈ v.moves) ∧
    (∀ {σ : Type} (env : Environment σ K) (config : SearchConfig K) (s : σ) (cause : TreeError),
      (t.iterate env config s).1 = .error cause →
        ∀ p a, (t.iterate env config s).2.1.statsAt p a = t.statsAt p a) ∧
    ∀ {σ τ : Type} (clock : StateM τ ℕ) (env : Environment σ K) (config : SearchConfig K) (key : ℕ)
      (s : σ) (time : τ) (metrics : RunMetrics K) (its : List (Iteration K)) (t' : Tree K) (s' : σ),
      (((ofRoot key false).run clock env config s).run time).1 = (.ok (metrics, its), t', s') →
        (env.actionCount key s).1 ≠ 0 → config.maxDepth ≠ 0 →
          ∃ edges, t'.rootEdges = .ok edges ∧ (edges.map (·.visits)).sum = metrics.completed ∧
            (edges.map fun e => (e.visits : K) * e.q).sum = metrics.sum := by
  refine ⟨?_, ?_, fun env config s cause herror p a => h.statsAt_of_error herror p a, ?_⟩
  · intro v hv
    obtain ⟨d, hd, hnodup⟩ := h.exists_descent v hv
    exact ⟨d, hd, hnodup.of_map _⟩
  · intro p a e he
    have hstats : e.stats = (returnsAt log p a).foldl EdgeStats.record .empty :=
      (statsAt_of_edge? he).symm.trans (h.statsAt_eq p a)
    have hvisits : e.stats.visits = (returnsAt log p a).length := by
      rw [hstats, EdgeStats.visits_foldl_record]
      exact Nat.zero_add _
    refine ⟨hvisits, ?_, ?_, ?_, fun o ho => h.count_eq he ho⟩
    · rw [hstats, EdgeStats.q_foldl_record]
    · rw [hstats, EdgeStats.best_foldl_record]
    · rw [h.sum_counts he, countP_path_eq, hvisits]
  · intro σ τ clock env config key s time metrics its t' s' hrun hactions hdepth
    have hends := run_tallied clock key time hactions hdepth
    rw [hrun] at hends
    obtain ⟨log, h⟩ := hends
    obtain ⟨n, hn, -⟩ := h.offers
    refine ⟨_, by rw [rootEdges, hn], ?_, ?_⟩
    · have hsum := h.logged.sum_root hn h.left EdgeStats.visits (g := fun _ => 1)
        fun xs => by rw [EdgeStats.visits_foldl_record]; simp [EdgeStats.empty]
      rw [List.map_map]
      refine hsum.trans ?_
      rw [← h.completed]
      simp
    · have hsum := h.logged.sum_root hn h.left (fun x => (x.visits : K) * x.q) (g := id)
        fun xs => by rw [EdgeStats.visits_mul_q_foldl_record, List.map_id]
      rw [List.map_map]
      refine hsum.trans ?_
      rw [List.map_id, h.sum]

end Tree

end Exact

namespace Tree

/-- An environment in which a rollout takes the action that the hidden state names, whether it is
offered or not. -/
def obstinate : Environment ℕ ℚ where
  actionCount state named := (if state = 0 then 2 else 1, named)
  step _ action named := (⟨action + 1, 3, false⟩, named)
  choose _ _ named := (named, named)

/-- Settings for descents and rollouts of two steps together. -/
def twoSteps : SearchConfig ℚ :=
  ⟨2, none, 1, 1, 2, .discounted, 1, .avg⟩

-- No two values are compared below, so that no logarithm is ever taken.
local instance : Elementary ℚ := ⟨id, id⟩

/-- The tree after three iterations, of which the second one fails. -/
noncomputable def obstinateTree : Tree ℚ :=
  ((((ofRoot 0 false).iterate obstinate twoSteps 0).2.1.iterate obstinate twoSteps 5).2.1.iterate
    obstinate twoSteps 0).2.1

/-- Of three iterations the second one fails. The edge that it took shares its counts with another
iteration, and has only that one's return. -/
theorem statistics_of_logged_obstinate :
    ∃ log, Logged obstinateTree log ∧ log.map (·.return?.isNone) = [false, true, false] ∧
      ∃ e, obstinateTree.edge? 0 1 = some e ∧ e.stats.visits = 1 ∧ e.stats.q = 6 ∧
        e.stats.best = 6 ∧ (e.outcomes.map (·.count)).sum = 1 + 1 := by
  obtain ⟨log, h, hlog, hreturns, hfailed⟩ : ∃ log, Logged obstinateTree log ∧
      log.map (·.return?.isNone) = [false, true, false] ∧ returnsAt log 0 1 = [6] ∧
      log.countP (fun v => (0, 1) ∈ v.path ∧ v.return?.isNone = true) = 1 :=
    ⟨_, .iterate _ _ _ (.iterate _ _ _ (.iterate _ _ _ (.fresh 0 false))), rfl,
      by decide +kernel, rfl⟩
  obtain ⟨e, he⟩ : ∃ e, obstinateTree.edge? 0 1 = some e := ⟨_, rfl⟩
  obtain ⟨hvisits, hq, hbest, hcounts, -⟩ := (statistics_of_logged h).2.1 0 1 e he
  rw [hreturns] at hvisits hq hbest
  rw [hfailed, hvisits] at hcounts
  exact ⟨log, h, hlog, e, he, hvisits, by simpa using hq, by simpa using hbest, hcounts⟩

end Tree

end DurativePlanning
