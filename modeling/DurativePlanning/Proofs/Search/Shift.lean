import DurativePlanning.Proofs.Search.Statistics

/-!
# Returns Raised by a Constant

When all returns that were recorded at the edges of a node are raised by the same number, then so
are the mean and the greatest return of every edge that was taken, and with them its score. An edge
that was never taken is tried first in any case. So the node selects the same edge as before,
whichever of the two values the selection goes by.

* `Edge.Above`: an edge whose returns are those of another one, raised by a constant.
* `Edge.Above.score_eq`: the score is raised as well.
* `Node.Above`: a node all of whose edges are raised by the same constant.
* `Node.Above.select_eq`: such a node selects the same edge.
-/

namespace DurativePlanning

variable {K : Type} [Field K] [LinearOrder K] [IsStrictOrderedRing K] [FloorSemiring K]
  [Elementary K]

/-! ### Statistics -/

/-- An edge whose returns are those of another one, **raised by a constant**, and that has the same
successors. -/
structure Edge.Above (x : K) (e e' : Edge K) : Prop where
  action : e.action = e'.action
  outcomes : e.outcomes = e'.outcomes
  stats : ∃ returns : List K, e'.stats = returns.foldl EdgeStats.record .empty ∧
    e.stats = (returns.map (x + ·)).foldl EdgeStats.record .empty

namespace EdgeStats

variable (x : K) {returns : List K}

theorem visits_foldl_record_raised (returns : List K) :
    ((returns.map (x + ·)).foldl record (empty : EdgeStats K)).visits =
      (returns.foldl record (empty : EdgeStats K)).visits := by
  rw [visits_foldl_record, visits_foldl_record, List.length_map]

/-- The mean `q` is raised by the constant. -/
theorem q_foldl_record_raised (hne : returns ≠ []) :
    ((returns.map (x + ·)).foldl record (empty : EdgeStats K)).q =
      x + (returns.foldl record (empty : EdgeStats K)).q := by
  have hlength : (returns.length : K) ≠ 0 :=
    Nat.cast_ne_zero.mpr (List.length_eq_zero_iff.not.mpr hne)
  have hmap : returns.map (x + ·) ≠ [] := fun h => hne (List.map_eq_nil_iff.mp h)
  have hsum : (returns.map (x + ·)).sum = returns.length * x + returns.sum := by
    rw [List.sum_map_add, List.map_const', List.sum_replicate, nsmul_eq_mul, List.map_id']
  rw [q_foldl_record, q_foldl_record, if_neg hmap, if_neg hne, hsum, List.length_map, add_div,
    mul_div_cancel_left₀ x hlength]

/-- The greatest return `best` is raised by the constant. -/
theorem best_foldl_record_raised (hne : returns ≠ []) :
    ((returns.map (x + ·)).foldl record (empty : EdgeStats K)).best =
      x + (returns.foldl record (empty : EdgeStats K)).best := by
  have hfold : ∀ (l : List K) (y : K), (l.map (x + ·)).foldl max (x + y) = x + l.foldl max y := by
    intro l
    induction l with
    | nil => exact fun _ => rfl
    | cons z rest ih =>
        intro y
        rw [List.map_cons, List.foldl_cons, List.foldl_cons, max_add_add_left, ih]
  rw [best_foldl_record, best_foldl_record]
  obtain ⟨y, rest, rfl⟩ := List.exists_cons_of_ne_nil hne
  rw [List.map_cons, List.max?_cons', List.max?_cons', hfold]
  rfl

end EdgeStats

namespace Edge.Above

variable {x : K} {e e' : Edge K}

/-- An edge without returns. -/
theorem ofAction (x : K) (a : ℕ) : (Edge.ofAction a : Edge K).Above x (.ofAction a) :=
  ⟨rfl, rfl, [], rfl, rfl⟩

/-- One more return, raised like those before. -/
theorem record (h : e.Above x e') (y : K) : (e.record (x + y)).Above x (e'.record y) := by
  obtain ⟨returns, hstats', hstats⟩ := h.stats
  refine ⟨h.action, h.outcomes, returns ++ [y], ?_, ?_⟩
  · rw [List.foldl_append, ← hstats']
    rfl
  · rw [List.map_append, List.foldl_append, ← hstats]
    rfl

theorem meet (h : e.Above x e') (key : ℕ) : (e.meet key).Above x (e'.meet key) :=
  ⟨h.action, by rw [outcomes_meet, outcomes_meet, h.outcomes], h.stats⟩

theorem extend (h : e.Above x e') (key child : ℕ) :
    (e.extend key child).Above x (e'.extend key child) :=
  ⟨h.action, congrArg (· ++ [_]) h.outcomes, h.stats⟩

theorem visits_eq (h : e.Above x e') : e.stats.visits = e'.stats.visits := by
  obtain ⟨returns, hstats', hstats⟩ := h.stats
  rw [hstats, hstats', EdgeStats.visits_foldl_record_raised]

/-- The **value** of an edge that was taken is raised, whether `selection` goes by the mean or by
the greatest return. -/
theorem value_eq (h : e.Above x e') (htaken : e.stats.visits ≠ 0) (selection : Selection) :
    e.stats.value selection = x + e'.stats.value selection := by
  obtain ⟨returns, hstats', hstats⟩ := h.stats
  have hne : returns ≠ [] := by
    rintro rfl
    exact htaken (by rw [hstats]; rfl)
  rw [hstats, hstats']
  cases selection with
  | avg => exact EdgeStats.q_foldl_record_raised x hne
  | max => exact EdgeStats.best_foldl_record_raised x hne

/-- Both edges have the same entry for a key. -/
theorem outcome?_eq (h : e.Above x e') (key : ℕ) : e'.outcome? key = e.outcome? key := by
  rw [outcome?, outcome?, h.outcomes]

end Edge.Above

/-! ### Scores -/

/-- A score raised by a constant: nothing is known of an edge that was never tried. -/
def Score.raise (x : K) : Score K → Score K
  | untried => untried
  | value y => value (x + y)

/-- **Which of two scores is preferred** by `beats` does not depend on a constant that raises
both. -/
theorem Score.beats_raise (x : K) (score : Score K) (top : Option (Score K)) :
    (score.raise x).beats (top.map (raise x)) = score.beats top := by
  rcases score with _ | y
  · rcases top with _ | _ | z
    all_goals rfl
  · rcases top with _ | _ | z
    · rfl
    · rfl
    · simp only [Option.map_some, raise, beats]
      exact decide_eq_decide.mpr (add_lt_add_iff_left x)

/-- **The score is raised**: the bonus of `score` depends on visits only, which are the same. -/
theorem Edge.Above.score_eq {x : K} {e e' : Edge K} (h : e.Above x e') (visits : ℕ) (c : K)
    (selection : Selection) :
    e.score visits c selection = (e'.score visits c selection).raise x := by
  by_cases htaken : e.stats.visits = 0
  · have htaken' : e'.stats.visits = 0 := h.visits_eq.symm.trans htaken
    rw [score, score, if_pos htaken, if_pos htaken', Score.raise]
  · have htaken' : e'.stats.visits ≠ 0 := fun h' => htaken (h.visits_eq.trans h')
    rw [score, score, if_neg htaken, if_neg htaken', Score.raise, h.value_eq htaken, h.visits_eq]
    exact congrArg Score.value (add_assoc x _ _)

namespace Node

/-- `firstBest` of edges that are raised by the same constant is the same. -/
theorem firstBest_eq_of_above {x : K} {visits : ℕ} {c : K} {selection : Selection}
    {l l' : List (Edge K)} (h : List.Forall₂ (Edge.Above x) l l') (position fallback : ℕ)
    (top : Option (Score K)) :
    firstBest visits c selection position fallback (top.map (Score.raise x)) l =
      firstBest visits c selection position fallback top l' := by
  induction h generalizing position fallback top with
  | nil => rfl
  | cons hfirst _ ih =>
      rw [firstBest, firstBest, hfirst.score_eq, Score.beats_raise]
      split
      · exact ih (position + 1) position (some _)
      · exact ih (position + 1) fallback top

/-! ### Nodes -/

/-- A node **all of whose edges are raised** by the same constant. -/
structure Above (x : K) (n n' : Node K) : Prop where
  bare : n'.bare = n.bare
  expanded : n'.expanded = n.expanded
  size : n'.edges.size = n.edges.size
  edge : ∀ {a : ℕ} {e e' : Edge K}, n.edges[a]? = some e → n'.edges[a]? = some e' → e.Above x e'

namespace Above

variable {x : K} {n n' : Node K} {a : ℕ} {e : Edge K}

/-- A node without edges. -/
theorem leaf (x : K) (key depth : ℕ) (parent : Option (ℕ × ℕ)) (terminal : Bool) :
    (Node.leaf key depth parent terminal : Node K).Above x (.leaf key depth parent terminal) :=
  ⟨rfl, rfl, rfl, fun he => absurd he (by simp [Node.leaf])⟩

/-- Each edge has its counterpart. -/
theorem exists_edge (h : n.Above x n') (he : n.edges[a]? = some e) :
    ∃ e', n'.edges[a]? = some e' ∧ e.Above x e' := by
  have hlt : a < n'.edges.size := h.size ▸ (Array.getElem?_eq_some_iff.mp he).1
  have he' : n'.edges[a]? = some n'.edges[a] := Array.getElem?_eq_getElem hlt
  exact ⟨_, he', h.edge he he'⟩

theorem getElem?_eq_none (h : n.Above x n') (he : n.edges[a]? = none) : n'.edges[a]? = none := by
  rw [Array.getElem?_eq_none_iff] at he ⊢
  exact h.size.trans_le he

/-- The edges of both nodes correspond in order. -/
theorem forall₂ (h : n.Above x n') :
    List.Forall₂ (Edge.Above x) n.edges.toList n'.edges.toList := by
  refine List.forall₂_iff_get.mpr ⟨by simpa using h.size.symm, fun a ha ha' => ?_⟩
  rw [Array.length_toList] at ha ha'
  exact h.edge (Array.getElem?_eq_getElem ha) (Array.getElem?_eq_getElem ha')

theorem visits_eq (h : n.Above x n') : n.visits = n'.visits := by
  have hfold : ∀ {l l' : List (Edge K)}, List.Forall₂ (Edge.Above x) l l' → ∀ total : ℕ,
      l.foldl (fun total e => total + e.stats.visits) total =
        l'.foldl (fun total e => total + e.stats.visits) total := by
    intro l l' hl
    induction hl with
    | nil => exact fun _ => rfl
    | cons hfirst _ ih =>
        intro total
        rw [List.foldl_cons, List.foldl_cons, hfirst.visits_eq]
        exact ih _
  rw [visits, visits, ← Array.foldl_toList, ← Array.foldl_toList, hfold h.forall₂]

/-- **A node whose edges are raised selects the same edge** by `select`. -/
theorem select_eq (h : n.Above x n') (c : K) (selection : Selection) :
    n'.select c selection = n.select c selection := by
  have hempty : n'.edges.isEmpty = n.edges.isEmpty := by
    rw [Array.isEmpty, Array.isEmpty, h.size]
  rw [select, select, hempty, ← h.visits_eq]
  split
  · rfl
  · exact congrArg some (firstBest_eq_of_above h.forall₂ 0 0 none).symm

/-- A node gets its edges. -/
theorem expand (h : n.Above x n') (hexpanded : n.expanded = false) (k : ℕ) :
    (n.expand k).Above x (n'.expand k) := by
  have hexpanded' : n'.expanded = false := h.expanded.trans hexpanded
  refine ⟨?_, ?_, ?_, ?_⟩
  · rw [Node.expand, Node.expand, if_neg (by simp [hexpanded']), if_neg (by simp [hexpanded])]
    exact h.bare
  · simp [Node.expand, hexpanded, hexpanded']
  · simp [Node.expand, hexpanded, hexpanded']
  · intro a e e' he he'
    rw [Tree.getElem?_edges_expand hexpanded] at he
    rw [Tree.getElem?_edges_expand hexpanded'] at he'
    split at he
    · next hlt =>
      rw [if_pos hlt] at he'
      obtain rfl := Option.some.inj he
      obtain rfl := Option.some.inj he'
      exact .ofAction x a
    · exact absurd he (by simp)

/-- An edge is replaced in both nodes. -/
theorem setEdge (h : n.Above x n') {e e' : Edge K} (he : e.Above x e') (a : ℕ) :
    ({ n with edges := n.edges.setIfInBounds a e } : Node K).Above x
      { n' with edges := n'.edges.setIfInBounds a e' } := by
  refine ⟨h.bare, h.expanded, by simpa using h.size, ?_⟩
  intro b f f' hf hf'
  rw [Array.getElem?_setIfInBounds] at hf hf'
  by_cases hab : a = b
  · rw [if_pos hab] at hf hf'
    split at hf
    · split at hf'
      · obtain rfl := Option.some.inj hf
        obtain rfl := Option.some.inj hf'
        exact he
      · exact absurd hf' (by simp)
    · exact absurd hf (by simp)
  · rw [if_neg hab] at hf hf'
    exact h.edge hf hf'

end Above

end Node

end DurativePlanning
