import DurativePlanning.Proofs.Search.Growth
import DurativePlanning.Proofs.Search.Selection
import Mathlib.Algebra.Order.BigOperators.Group.List

/-!
# Actions in Turn

A search tries every action of a state once before it tries one of them again. An edge that was
never tried is ranked above all others, and of several such edges the first one is taken. So the
edges of a node are tried in their order, and from then on the upper confidence bounds decide. This
holds at every node of every tree, however it is grown, because a return is recorded only at edges
that were selected, and no descent selects twice at one node.

* `InTurn`: the numbers of visits that this allows.
* `Tree.TakesTurns`: the invariant of a tree, kept by walks and by iterations.
* `Tree.turns_of_grown`: what the edges of a node say, and which of them comes next.
-/

namespace DurativePlanning

/-! ### Numbers of visits -/

/-- Numbers of visits that come about **in turn**: every edge was tried, or the first `tried` ones
were tried once each and the others never. -/
def InTurn (counts : List ℕ) : Prop :=
  (∀ k ∈ counts, 0 < k) ∨
    ∃ tried rest, counts = List.replicate tried 1 ++ List.replicate (rest + 1) 0

namespace InTurn

variable {counts : List ℕ} {a k : ℕ}

/-- Edges that were never tried. -/
theorem replicate_zero (k : ℕ) : InTurn (List.replicate k 0) := by
  cases k with
  | zero => exact Or.inl fun k hk => absurd hk List.not_mem_nil
  | succ rest => exact Or.inr ⟨0, rest, rfl⟩

/-- **One more visit** of an edge, which is the first that was never tried if there is one. -/
theorem set (h : InTurn counts) (hk : counts[a]? = some k)
    (hfirst : ∀ b, counts[b]? = some 0 → (∀ k ∈ counts.take b, 0 < k) → a = b) :
    InTurn (counts.set a (k + 1)) := by
  rcases h with htried | ⟨tried, rest, rfl⟩
  · refine Or.inl fun x hx => ?_
    rcases List.mem_or_eq_of_mem_set hx with hx | rfl
    · exact htried x hx
    · exact Nat.succ_pos k
  · obtain rfl : a = tried := hfirst tried (by simp) (by simp)
    obtain rfl : k = 0 := by simpa using hk.symm
    have hset : (List.replicate a 1 ++ List.replicate (rest + 1) 0).set a (0 + 1) =
        List.replicate (a + 1) 1 ++ List.replicate rest 0 := by
      rw [List.set_append_right _ _ (by simp), List.length_replicate, Nat.sub_self,
        List.replicate_succ, List.set_cons_zero, List.replicate_succ', List.append_assoc]
      rfl
    rw [hset]
    cases rest with
    | zero => exact Or.inl (by simp)
    | succ rest => exact Or.inr ⟨a + 1, rest, rfl⟩

/-- The visits of edges of which the first ones were visited once each. -/
theorem sum_ones_zeros (tried rest : ℕ) :
    (List.replicate tried 1 ++ List.replicate rest 0).sum = tried := by
  simp

/-- Visits of all edges that are no more than the edges are one visit of each. -/
theorem eq_replicate_one (htried : ∀ k ∈ counts, 0 < k) (hle : counts.sum ≤ counts.length) :
    counts = List.replicate counts.length 1 := by
  induction counts with
  | nil => rfl
  | cons x rest ih =>
      rw [List.forall_mem_cons] at htried
      rw [List.sum_cons, List.length_cons] at hle
      have hrest := List.length_le_sum_of_one_le rest htried.2
      obtain rfl : x = 1 := by have := htried.1; omega
      rw [List.length_cons, List.replicate_succ, ← ih htried.2 (by omega)]

/-- **As long as there are no more visits than edges**, the first edges were visited once each. -/
theorem eq_of_sum_le (h : InTurn counts) (hle : counts.sum ≤ counts.length)
    (hk : counts[a]? = some k) : k = if a < counts.sum then 1 else 0 := by
  rcases h with htried | ⟨tried, rest, rfl⟩
  · have hsum := List.length_le_sum_of_one_le counts htried
    obtain ⟨hlt, -⟩ := List.getElem?_eq_some_iff.mp hk
    have hone := List.mem_of_getElem? hk
    rw [eq_replicate_one htried hle] at hone
    rw [if_pos (hlt.trans_le hsum)]
    exact List.eq_of_mem_replicate hone
  · rw [sum_ones_zeros]
    rw [List.getElem?_append, List.length_replicate] at hk
    split at hk
    · next hlt =>
      rw [if_pos hlt]
      exact List.eq_of_mem_replicate (List.mem_of_getElem? hk)
    · next hge =>
      rw [if_neg hge]
      exact List.eq_of_mem_replicate (List.mem_of_getElem? hk)

/-- With fewer visits than edges, the number of visits is the position of the first edge that was
not visited. -/
theorem first_untried (h : InTurn counts) (hlt : counts.sum < counts.length) :
    counts[counts.sum]? = some 0 ∧ ∀ k ∈ counts.take counts.sum, 0 < k := by
  rcases h with htried | ⟨tried, rest, rfl⟩
  · exact absurd (List.length_le_sum_of_one_le counts htried) (Nat.not_le.mpr hlt)
  · rw [sum_ones_zeros]
    exact ⟨by simp, by simp⟩

/-- **With at least as many visits as edges**, every edge was visited. -/
theorem pos_of_length_le (h : InTurn counts) (hle : counts.length ≤ counts.sum) :
    ∀ k ∈ counts, 0 < k := by
  rcases h with htried | ⟨tried, rest, rfl⟩
  · exact htried
  · rw [sum_ones_zeros, List.length_append, List.length_replicate, List.length_replicate] at hle
    omega

end InTurn

/-! ### Trees -/

namespace Tree

/-- **The invariant**: at every node the edges are visited `InTurn`. -/
def TakesTurns {α : Type} (t : Tree α) : Prop := ∀ ⦃i n⦄, t.node? i = some n → InTurn n.counts

namespace TakesTurns

section Walk

variable {α : Type} {t t' : Tree α} {i a leaf : ℕ} {n n' : Node α} {e : Edge α}
  {path : List (ℕ × ℕ)}

/-- A new root has no edges yet. -/
theorem ofRoot (key : ℕ) (terminal : Bool) : (ofRoot key terminal : Tree α).TakesTurns := by
  intro i n hn
  obtain ⟨-, rfl⟩ := eq_of_node?_ofRoot hn
  exact .replicate_zero 0

/-- Only the node that is replaced has to be looked at. -/
theorem setNode (h : t.TakesTurns) (hn : t.node? i = some n) (hturn : InTurn n'.counts) :
    (t.setNode i n').TakesTurns := by
  intro j m hm
  rw [node?_setNode hn] at hm
  split at hm
  · obtain rfl := Option.some.inj hm
    exact hturn
  · exact h hm

/-- A new leaf has no edges yet. -/
theorem push_leaf (h : t.TakesTurns) (key depth : ℕ) (parent : Option (ℕ × ℕ)) (terminal : Bool) :
    (t.push (.leaf key depth parent terminal)).TakesTurns := by
  intro j m hm
  rw [node?_push] at hm
  split at hm
  · obtain rfl := Option.some.inj hm
    exact .replicate_zero 0
  · exact h hm

/-- An edge may be replaced by one at which the same was recorded. -/
theorem setEdge {e' : Edge α} (h : t.TakesTurns) (hn : t.node? i = some n)
    (he : n.edges[a]? = some e) (hstats : e'.stats = e.stats) : (t.setEdge i n a e').TakesTurns := by
  refine h.setNode hn ?_
  rw [Node.counts, stats_of_stats_eq he hstats]
  exact h hn

/-- **A walk** visits no edge: a `Walk` keeps the turns. -/
theorem walk [SearchArithmetic α] (h : t.TakesTurns) (hwalk : Walk t i path leaf t') :
    t'.TakesTurns := by
  induction hwalk with
  | rest => exact h
  | @expand t _ i n k _ _ hn hexpanded _ _ ih =>
      refine ih (h.setNode hn ?_)
      have hcounts : (n.expand k).counts = List.replicate k 0 := by
        simp [Node.counts, Node.stats, Node.expand, hexpanded, Edge.ofAction, EdgeStats.empty,
          Function.comp_def]
      rw [hcounts]
      exact .replicate_zero k
  | meet hn he _ _ ih => exact ih (h.setEdge hn he rfl)
  | enter hn he _ => exact (h.push_leaf _ _ _ _).setEdge (node?_push_of_node? hn _) he rfl

end Walk

section Record

variable {K : Type} [Field K] [LinearOrder K] [IsStrictOrderedRing K] [FloorSemiring K]
  [Elementary K] {t : Tree K} {i a : ℕ} {n : Node K} {e : Edge K} {c : K} {selection : Selection}
  {path : List (ℕ × ℕ)}

/-- **A return** may be recorded at the edge that `select` gives. -/
theorem record (h : t.TakesTurns) (hn : t.node? i = some n)
    (hselect : n.select c selection = some a) (he : n.edges[a]? = some e) (x : K) :
    (t.setEdge i n a (e.record x)).TakesTurns := by
  refine h.setNode hn ?_
  have hcounts : ({ n with edges := n.edges.setIfInBounds a (e.record x) } : Node K).counts =
      n.counts.set a (e.stats.visits + 1) := by
    rw [Node.counts, Node.stats_setIfInBounds, List.map_set]
    rfl
  rw [hcounts]
  refine (h hn).set ?_ fun b hb hbefore => ?_
  · rw [Node.counts, List.getElem?_map, Node.getElem?_stats he, Option.map_some]
  · exact Option.some.inj (hselect.symm.trans (Node.select_of_untried hb hbefore c selection))

/-- `backpropagate` keeps the turns along a path that leaves no node twice and every node by its
selected edge. -/
theorem backpropagate (h : t.TakesTurns) (hnodup : (path.map Prod.fst).Nodup)
    (hselect : ∀ y ∈ path, ∃ n, t.node? y.1 = some n ∧ n.select c selection = some y.2) (x : K) :
    (t.backpropagate x path).2.TakesTurns := by
  induction path generalizing t with
  | nil => exact h
  | cons step rest ih =>
      obtain ⟨i, a⟩ := step
      rw [List.map_cons, List.nodup_cons] at hnodup
      rw [List.forall_mem_cons] at hselect
      obtain ⟨⟨n, hn, hselected⟩, hrest⟩ := hselect
      rw [Tree.backpropagate]
      simp only [hn]
      split
      · exact h
      · next e he =>
        refine ih (h.record hn hselected he x) hnodup.2 fun y hy => ?_
        obtain ⟨m, hm, hm'⟩ := hrest y hy
        have hne : i ≠ y.1 := fun h => hnodup.1 (List.mem_map.mpr ⟨y, hy, h.symm⟩)
        refine ⟨m, ?_, hm'⟩
        rw [Tree.setEdge, node?_setNode hn, if_neg hne, hm]

/-- **An iteration** keeps the turns, also when it fails: its path leaves every node by the edge
that `select` gives, and no node twice. -/
theorem iterate {σ : Type} (h : t.TakesTurns) (ht : t.WellFormed) (env : Environment σ K)
    (config : SearchConfig K) (s : σ) : (t.iterate env config s).2.1.TakesTurns := by
  obtain ⟨d, t₁, s₁, hd, hwalk, ⟨_, _, _, _, -, -, hi⟩ | ⟨r, t₂, s₂, hback, hi⟩⟩ :=
    iterate_cases ht env config s
  · rw [hi]
    exact h.walk hwalk
  · obtain ⟨steps, hpath, hsteps⟩ := ((descend_eq_ok_iff ht).mp hd).selects
    rw [List.nil_append] at hpath
    subst hpath
    have hkept := (h.walk hwalk).backpropagate (hwalk.nodup ht)
      (fun y hy => (hsteps y hy).imp fun _ hn => ⟨hn.1, hn.2.2⟩) (d.reward + r)
    rw [hback] at hkept
    rw [hi]
    exact hkept

end Record

end TakesTurns

/-! ### Grown trees -/

variable {K : Type} [Field K] [LinearOrder K] [IsStrictOrderedRing K] [FloorSemiring K]
  [Elementary K] {t t' : Tree K} {i a : ℕ} {n : Node K}

/-- **At every node of a grown tree** the edges are visited in turn, by `Grown.keeps`. -/
theorem Grown.takesTurns (h : t.Grown) : t.TakesTurns := by
  refine (h.keeps (fun key terminal => .ofRoot key terminal) ?_
    fun env config s ht hturns => hturns.iterate ht env config s).2
  intro σ t env c selection maxDepth s ht hturns
  obtain ⟨d, t', s', hd, hwalk, -⟩ := descend_walk ht env c selection maxDepth s
  rw [hd]
  exact hturns.walk hwalk

/-- A descent leaves a node that had its edges before by the edge that was selected then. -/
theorem select_of_descend {σ : Type} {env : Environment σ K} {c : K} {selection : Selection}
    {maxDepth : ℕ} {s s' : σ} {d : Descent K} (ht : t.WellFormed) (hn : t.node? i = some n)
    (hexpanded : n.expanded = true)
    (hd : t.descend env c selection maxDepth s = (.ok d, t', s')) (ha : (i, a) ∈ d.path) :
    n.select c selection = some a := by
  have hloop := (descend_eq_ok_iff ht).mp hd
  obtain ⟨steps, hpath, hsteps⟩ := hloop.selects
  rw [List.nil_append] at hpath
  obtain ⟨m, hm, -, hselect⟩ := hsteps (i, a) (hpath ▸ ha)
  obtain ⟨_, -, hwalk⟩ := hloop.walk
  obtain ⟨m', hm', -, hstats⟩ := hwalk.keepsStats hn hexpanded
  obtain rfl : m = m' := Option.some.inj (hm.symm.trans hm')
  rwa [select_eq_of_stats_eq hstats] at hselect

/-- **No action is tried twice before every action was tried once**, at any node of a tree that is
grown in any way. While the visits are no more than the edges, exactly the first edges were visited,
once each, and the next one is selected; with more visits every edge was visited. From as many
visits as edges on, the first of the edges with the greatest upper confidence bound is selected.
Every further descent leaves the node by the edge that is selected. -/
theorem turns_of_grown (h : t.Grown) (hn : t.node? i = some n) (hexpanded : n.expanded = true) :
    (n.left ≤ n.edges.size → ∀ a e, n.edges[a]? = some e →
      e.stats.visits = if a < n.left then 1 else 0) ∧
    (n.edges.size < n.left → ∀ e ∈ n.edges, 1 ≤ e.stats.visits) ∧
    (∀ c selection,
      (n.left < n.edges.size → n.select c selection = some n.left) ∧
      (n.edges.size ≤ n.left → ∃ a, n.select c selection = some a ∧
        IsFirstGreatest (n.edges.toList.map fun e => e.stats.value selection +
          c * Elementary.sqrt (Elementary.ln (n.left : K) / (e.stats.visits : K))) a)) ∧
    ∀ {σ : Type} (env : Environment σ K) (c : K) (selection : Selection) (maxDepth : ℕ) (s s' : σ)
      (d : Descent K) (t' : Tree K), t.descend env c selection maxDepth s = (.ok d, t', s') →
        ∀ a, (i, a) ∈ d.path → n.select c selection = some a := by
  have ht := h.shape.1
  have hturn := h.takesTurns hn
  have hsize : n.counts.length = n.edges.size := by simp [Node.counts, Node.stats]
  refine ⟨fun hle a e he => ?_, fun hlt e he => ?_, fun c selection => ⟨fun hlt => ?_, fun hle => ?_⟩,
    fun env c selection maxDepth s s' d t' hd a ha => select_of_descend ht hn hexpanded hd ha⟩
  · refine hturn.eq_of_sum_le (hsize ▸ hle) ?_
    rw [Node.counts, List.getElem?_map, Node.getElem?_stats he, Option.map_some]
  · refine hturn.pos_of_length_le (hsize ▸ hlt.le) _ ?_
    exact List.mem_map_of_mem (List.mem_map_of_mem he.val)
  · obtain ⟨huntried, hbefore⟩ := hturn.first_untried (hsize ▸ hlt)
    exact Node.select_of_untried huntried hbefore c selection
  · have hpos := (ht.expanded hn).mp hexpanded
    obtain ⟨a, -, hselect, -⟩ := Node.exists_select hpos c selection
    have hgreatest := (Node.select_of_tried (hturn.pos_of_length_le (hsize ▸ hle))).mp hselect
    rw [Node.visits_eq_max_left, Nat.max_eq_left (hpos.trans_le hle), Node.stats,
      List.map_map] at hgreatest
    exact ⟨a, hselect, hgreatest⟩

/-- An environment whose first state offers two actions, which end all at once. -/
def fork : Environment Unit ℚ where
  actionCount _ _ := (2, ())
  step _ action _ := (⟨action + 1, action, true⟩, ())
  choose _ _ _ := (0, ())

attribute [local instance] Elementary.standIn

/-- The tree after three iterations. -/
noncomputable def forkTree : Tree ℚ :=
  let config : SearchConfig ℚ := ⟨3, none, 1, 1, 1, .discounted, 1, .avg⟩
  (((ofRoot 0 false).iterate fork config ()).2.1.iterate fork config ()).2.1.iterate fork config ()
    |>.2.1

/-- After three iterations at the fork both edges were visited, and the one with the greatest score
is selected. -/
theorem turns_of_grown_fork :
    forkTree.Grown ∧ ∃ n, forkTree.node? 0 = some n ∧ n.expanded = true ∧ n.edges.size < n.left ∧
      (∀ e ∈ n.edges, 1 ≤ e.stats.visits) ∧
      ∃ a, n.select 1 .avg = some a ∧ IsFirstGreatest (n.edges.toList.map fun e =>
        e.stats.value .avg + 1 * Elementary.sqrt (Elementary.ln (n.left : ℚ) / e.stats.visits)) a := by
  have hgrown : forkTree.Grown := .iterate _ _ _ (.iterate _ _ _ (.iterate _ _ _ (.fresh 0 false)))
  have hroot : (forkTree.node? 0).any (fun n => n.expanded && n.edges.size < n.left) = true := by
    decide +kernel
  rw [Option.any_eq_true] at hroot
  obtain ⟨n, hn, hroot⟩ := hroot
  rw [Bool.and_eq_true, decide_eq_true_eq] at hroot
  obtain ⟨hexpanded, hlt⟩ := hroot
  obtain ⟨-, htried, hselects, -⟩ := turns_of_grown hgrown hn hexpanded
  exact ⟨hgrown, n, hn, hexpanded, hlt, htried hlt, (hselects 1 .avg).2 hlt.le⟩

end Tree

end DurativePlanning
