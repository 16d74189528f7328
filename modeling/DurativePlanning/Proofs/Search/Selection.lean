import DurativePlanning.Proofs.Exact
import DurativePlanning.Proofs.Search.Loop
import Mathlib.Data.List.Induction
import Mathlib.Data.Rat.Floor
import Mathlib.Order.WithBot

/-!
# The First of the Greatest

A node leaves by the edge with the greatest score, and of several such edges by the first one; an
edge that was never tried comes before all others. The reports on the root pick in the same way.
Both go through their lists with the best entry so far in hand. This module says what they find,
over exact numbers: a score is ranked among the numbers and one more value above them, and the
position that is found is the first one that holds the greatest of the ranks.

* `IsFirstGreatest`: the first position that holds the greatest entry of a list.
* `EdgeStats.rank`: how an edge is ranked, given what was recorded at it.
* `Node.select_eq_some_iff`: which edge a node selects; `Node.select_of_untried` and
  `Node.select_of_tried`: the same by whether some edge was never tried.
* `Tree.pickBest_eq_some`: which edge is reported.
* `Tree.Descends.selects`: a descent leaves every node on its path by the selected edge.
-/

namespace DurativePlanning

/-! ### The first greatest entry -/

section Order

variable {γ : Type} [LinearOrder γ] {l : List γ} {a b : ℕ} {x y : γ}

/-- A position of a list that holds the greatest entry, and is the **first** one that does. -/
def IsFirstGreatest (l : List γ) (a : ℕ) : Prop :=
  ∃ x, l[a]? = some x ∧ (∀ y ∈ l, y ≤ x) ∧ ∀ y ∈ l.take a, y < x

namespace IsFirstGreatest

theorem lt_length (h : IsFirstGreatest l a) : a < l.length := by
  obtain ⟨x, hx, -⟩ := h
  exact (List.getElem?_eq_some_iff.mp hx).1

theorem singleton (x : γ) : IsFirstGreatest [x] 0 :=
  ⟨x, rfl, by simp, fun y hy => absurd hy (by simp)⟩

/-- An entry that is greater than all before it takes their place. -/
theorem concat_of_lt (h : IsFirstGreatest l a) (hx : l[a]? = some x) (hy : x < y) :
    IsFirstGreatest (l ++ [y]) l.length := by
  obtain ⟨x', hx', hle, -⟩ := h
  obtain rfl := Option.some.inj (hx'.symm.trans hx)
  refine ⟨y, by simp, fun z hz => ?_, fun z hz => ?_⟩
  · rcases List.mem_append.mp hz with hz | hz
    · exact (hle z hz).trans hy.le
    · exact (List.mem_singleton.mp hz).le
  · rw [List.take_left] at hz
    exact (hle z hz).trans_lt hy

/-- An entry that is no greater changes nothing. -/
theorem concat_of_le (h : IsFirstGreatest l a) (hx : l[a]? = some x) (hy : y ≤ x) :
    IsFirstGreatest (l ++ [y]) a := by
  have hlt := h.lt_length
  obtain ⟨x', hx', hle, hfirst⟩ := h
  obtain rfl := Option.some.inj (hx'.symm.trans hx)
  refine ⟨x', by rw [List.getElem?_append_left hlt, hx], fun z hz => ?_, fun z hz => ?_⟩
  · rcases List.mem_append.mp hz with hz | hz
    · exact hle z hz
    · exact (List.mem_singleton.mp hz).trans_le hy
  · rw [List.take_append_of_le_length hlt.le] at hz
    exact hfirst z hz

/-- A list has one first greatest position. -/
theorem unique (h : IsFirstGreatest l a) (h' : IsFirstGreatest l b) : a = b := by
  have hle : ∀ {a b : ℕ}, IsFirstGreatest l a → IsFirstGreatest l b → ¬a < b := by
    rintro a b ⟨x, hx, hle, -⟩ ⟨y, hy, -, hfirst⟩ hlt
    have hmem : x ∈ l.take b := by
      refine List.mem_of_getElem? (i := a) ?_
      rw [List.getElem?_take_of_lt hlt, hx]
    exact not_lt.mpr (hle y (List.mem_of_getElem? hy)) (hfirst x hmem)
  exact Nat.le_antisymm (Nat.not_lt.mp (hle h' h)) (Nat.not_lt.mp (hle h h'))

end IsFirstGreatest

/-- Every list with entries has an `IsFirstGreatest` position. -/
theorem exists_isFirstGreatest (hne : l ≠ []) : ∃ a, IsFirstGreatest l a := by
  induction l using List.reverseRecOn with
  | nil => exact absurd rfl hne
  | append_singleton l y ih =>
      by_cases hl : l = []
      · subst hl
        exact ⟨0, .singleton y⟩
      · obtain ⟨a, h⟩ := ih hl
        obtain ⟨x, hx, -⟩ := id h
        rcases lt_or_ge x y with hy | hy
        · exact ⟨_, h.concat_of_lt hx hy⟩
        · exact ⟨_, h.concat_of_le hx hy⟩

/-- The first greatest value of a function on the first numbers. -/
theorem isFirstGreatest_map_range_iff {f : ℕ → γ} {k : ℕ} :
    IsFirstGreatest ((List.range k).map f) a ↔
      a < k ∧ (∀ b < k, f b ≤ f a) ∧ ∀ b < a, f b < f a := by
  constructor
  · intro h
    have hlt : a < k := by simpa using h.lt_length
    obtain ⟨x, hx, hle, hfirst⟩ := h
    obtain rfl : f a = x := by simpa [hlt] using hx
    refine ⟨hlt, fun b hb => hle _ (List.mem_map_of_mem (List.mem_range.mpr hb)),
      fun b hb => hfirst _ ?_⟩
    rw [← List.map_take, List.take_range, Nat.min_eq_left hlt.le]
    exact List.mem_map_of_mem (List.mem_range.mpr hb)
  · rintro ⟨hlt, hle, hfirst⟩
    refine ⟨f a, by simp [hlt], ?_, ?_⟩
    · simpa using hle
    · rw [← List.map_take, List.take_range, Nat.min_eq_left hlt.le]
      simpa using hfirst

/-- `StrictMono` maps keep the first greatest position. -/
theorem isFirstGreatest_map_iff {δ : Type} [LinearOrder δ] {f : γ → δ} (hf : StrictMono f) :
    IsFirstGreatest (l.map f) a ↔ IsFirstGreatest l a := by
  constructor
  · rintro ⟨_, hx, hle, hfirst⟩
    rw [List.getElem?_map, Option.map_eq_some_iff] at hx
    obtain ⟨x, hx, rfl⟩ := hx
    refine ⟨x, hx, fun y hy => hf.le_iff_le.mp (hle _ (List.mem_map_of_mem hy)), fun y hy => ?_⟩
    refine hf.lt_iff_lt.mp (hfirst _ ?_)
    rw [← List.map_take]
    exact List.mem_map_of_mem hy
  · rintro ⟨x, hx, hle, hfirst⟩
    refine ⟨f x, by rw [List.getElem?_map, hx, Option.map_some], ?_, ?_⟩
    · exact List.forall_mem_map.mpr fun y hy => hf.monotone (hle y hy)
    · rw [← List.map_take]
      exact List.forall_mem_map.mpr fun y hy => hf (hfirst y hy)

end Order

/-! ### Ranks -/

namespace Node

variable {α : Type}

/-- What was recorded at the edges of a node, in order. -/
def stats (n : Node α) : List (EdgeStats α) := n.edges.toList.map (·.stats)

/-- How often the edges of a node were taken, in order. -/
def counts (n : Node α) : List ℕ := n.stats.map (·.visits)

/-- How often the edges of a node were taken, all together. -/
def left (n : Node α) : ℕ := n.counts.sum

/-- Replacing an edge replaces its statistics. -/
theorem stats_setIfInBounds (n : Node α) (a : ℕ) (e : Edge α) :
    ({ n with edges := n.edges.setIfInBounds a e } : Node α).stats = n.stats.set a e.stats := by
  rw [stats, stats, Array.toList_setIfInBounds, List.map_set]

/-- The statistics at a position are those of the edge there. -/
theorem getElem?_stats_eq_some_iff {n : Node α} {a : ℕ} {s : EdgeStats α} :
    n.stats[a]? = some s ↔ ∃ e, n.edges[a]? = some e ∧ e.stats = s := by
  rw [stats, List.getElem?_map, Array.getElem?_toList, Option.map_eq_some_iff]

/-- The statistics of an edge are listed at its position. -/
theorem getElem?_stats {n : Node α} {a : ℕ} {e : Edge α} (h : n.edges[a]? = some e) :
    n.stats[a]? = some e.stats :=
  getElem?_stats_eq_some_iff.mpr ⟨e, h, rfl⟩

end Node

variable {K : Type} [Field K] [LinearOrder K] [IsStrictOrderedRing K] [FloorSemiring K]
  [Elementary K]

/-- Stand-ins for the logarithm and the root, with which searches over rational numbers can be
evaluated. -/
abbrev Elementary.standIn : Elementary ℚ := ⟨id, id⟩

/-- The place of a score among the numbers, and `⊤` when nothing is known. -/
def Score.rank : Score K → WithTop K
  | untried => ⊤
  | value x => x

/-- `beats` prefers a score to the best so far when it is ranked above it. -/
theorem Score.beats_some_iff (x y : Score K) : x.beats (some y) = true ↔ y.rank < x.rank := by
  rcases x with _ | x <;> rcases y with _ | y
  · simp [beats, rank]
  · simp [beats, rank, SearchArithmetic.belowAllBounds]
  · simp [beats, rank]
  · simp [beats, rank]

/-- Any score is preferred to none. -/
theorem Score.beats_none (x : Score K) : x.beats none = true := by
  cases x with
  | untried => rfl
  | value x => simp [beats, SearchArithmetic.aboveAllBounds]

namespace EdgeStats

/-- The **upper confidence bound** of an edge whose node was left `left` times. -/
noncomputable def bound (s : EdgeStats K) (left : ℕ) (c : K) (selection : Selection) : K :=
  s.value selection + c * Elementary.sqrt (Elementary.ln (left : K) / (s.visits : K))

/-- **How an edge is ranked**: by its upper confidence bound, and as `⊤` as long as it was never
tried. -/
noncomputable def rank (s : EdgeStats K) (left : ℕ) (c : K) (selection : Selection) : WithTop K :=
  if s.visits = 0 then ⊤ else s.bound left c selection

end EdgeStats

/-- The rank of the score of an edge is the rank of its statistics. -/
theorem Edge.rank_score (e : Edge K) (left : ℕ) (c : K) (selection : Selection) :
    (e.score left c selection).rank = e.stats.rank left c selection := by
  rw [score, EdgeStats.rank]
  split <;> rfl

/-! ### Selection -/

namespace Node

variable {n : Node K} {c : K} {selection : Selection} {a : ℕ}

/-- The visits that a node goes by are those of its edges, and at least one. -/
theorem visits_eq_max_left {α : Type} [SearchArithmetic α] (n : Node α) :
    n.visits = max n.left 1 := by
  have hfold : ∀ (l : List (Edge α)) (total : ℕ),
      l.foldl (fun total e => total + e.stats.visits) total =
        total + ((l.map (·.stats)).map (·.visits)).sum := by
    intro l
    induction l with
    | nil => exact fun _ => rfl
    | cons e rest ih =>
        intro total
        rw [List.foldl_cons, ih, List.map_cons, List.map_cons, List.sum_cons, Nat.add_assoc]
  rw [visits, ← Array.foldl_toList, hfold, Nat.zero_add]
  rfl

/-- `firstBest` finds the first greatest rank, when the best one before is in hand. -/
theorem isFirstGreatest_firstBest {left fallback : ℕ} {top : Score K} (before l : List (Edge K))
    (h : IsFirstGreatest (before.map fun e => (e.score left c selection).rank) fallback)
    (htop : (before.map fun e => (e.score left c selection).rank)[fallback]? = some top.rank) :
    IsFirstGreatest ((before ++ l).map fun e => (e.score left c selection).rank)
      (firstBest left c selection before.length fallback (some top) l) := by
  induction l generalizing before fallback top with
  | nil => rwa [List.append_nil]
  | cons e rest ih =>
      rw [firstBest, List.append_cons]
      have hlength : before.length + 1 = (before ++ [e]).length := by simp
      by_cases hbeats : (e.score left c selection).beats (some top) = true
      · simp only [hbeats, if_true, hlength]
        refine ih _ ?_ (by simp)
        rw [List.map_append, List.map_singleton, ← List.length_map]
        exact h.concat_of_lt htop ((Score.beats_some_iff _ _).mp hbeats)
      · simp only [hbeats, hlength]
        have hlt := h.lt_length
        refine ih _ ?_ ?_
        · rw [List.map_append, List.map_singleton]
          exact h.concat_of_le htop (not_lt.mp ((Score.beats_some_iff _ _).not.mp hbeats))
        · rw [List.map_append, List.getElem?_append_left hlt, htop]

/-- **A node selects the first of the edges with the greatest rank**: `select` gives the
`IsFirstGreatest` position. -/
theorem select_eq_some_iff : n.select c selection = some a ↔
    IsFirstGreatest (n.stats.map fun s => s.rank n.visits c selection) a := by
  have hranks : n.stats.map (fun s => s.rank n.visits c selection) =
      n.edges.toList.map fun e => (e.score n.visits c selection).rank := by
    rw [stats, List.map_map]
    exact List.map_congr_left fun e _ => (e.rank_score ..).symm
  rw [hranks, select]
  cases hedges : n.edges.toList with
  | nil =>
      have hempty : n.edges.isEmpty = true := by simp [← Array.toList_eq_nil_iff, hedges]
      simp only [hempty, if_true]
      refine ⟨fun h => absurd h (by simp), fun h => ?_⟩
      exact absurd h.lt_length (Nat.not_lt_zero a)
  | cons e rest =>
      have hempty : n.edges.isEmpty = false := by
        simp [← Array.toList_eq_nil_iff, hedges]
      have hfound : IsFirstGreatest ((e :: rest).map fun e => (e.score n.visits c selection).rank)
          (firstBest n.visits c selection 0 0 none (e :: rest)) := by
        rw [firstBest]
        simp only [Score.beats_none, if_true]
        exact isFirstGreatest_firstBest [e] rest (.singleton _) rfl
      simp only [hempty, Bool.false_eq_true, if_false, Option.some.injEq]
      exact ⟨fun h => h ▸ hfound, fun h => hfound.unique h⟩

/-- `select` gives the first edge that was never tried. -/
theorem select_of_untried (ha : n.counts[a]? = some 0) (hbefore : ∀ k ∈ n.counts.take a, 0 < k)
    (c : K) (selection : Selection) : n.select c selection = some a := by
  rw [counts, List.getElem?_map, Option.map_eq_some_iff] at ha
  obtain ⟨s, hs, hvisits⟩ := ha
  rw [counts, ← List.map_take, List.forall_mem_map] at hbefore
  refine select_eq_some_iff.mpr ⟨⊤, ?_, fun _ _ => le_top, ?_⟩
  · rw [List.getElem?_map, hs, Option.map_some, EdgeStats.rank, if_pos hvisits]
  · rw [← List.map_take, List.forall_mem_map]
    intro s hs
    rw [EdgeStats.rank, if_neg (hbefore s hs).ne']
    exact WithTop.coe_lt_top _

/-- When every edge was tried, `select` gives **the first of those with the greatest upper
confidence bound**. -/
theorem select_of_tried (htried : ∀ k ∈ n.counts, 0 < k) : n.select c selection = some a ↔
    IsFirstGreatest (n.stats.map fun s => s.bound n.visits c selection) a := by
  have hranks : n.stats.map (fun s => s.rank n.visits c selection) =
      (n.stats.map fun s => s.bound n.visits c selection).map WithTop.some := by
    rw [List.map_map]
    refine List.map_congr_left fun s hs => ?_
    rw [EdgeStats.rank, if_neg (htried _ (List.mem_map_of_mem hs)).ne']
    rfl
  rw [select_eq_some_iff, hranks, isFirstGreatest_map_iff WithTop.coe_strictMono]

end Node

/-! ### Reports -/

namespace Tree

/-- `pickBest` finds the first greatest value, when the best one before is in hand. -/
theorem pickBest_some {value : RootEdge K → K} {action a : ℕ} {x : K} (before l : List (RootEdge K))
    (h : IsFirstGreatest (before.map value) a) (hx : (before.map value)[a]? = some x)
    (haction : (before.map (·.action))[a]? = some action) :
    ∃ b, IsFirstGreatest ((before ++ l).map value) b ∧
      (pickBest value (some (action, x)) l).map Prod.fst = ((before ++ l).map (·.action))[b]? := by
  induction l generalizing before action a x with
  | nil => exact ⟨a, by rwa [List.append_nil], by rw [List.append_nil, haction]; rfl⟩
  | cons e rest ih =>
      rw [pickBest, List.append_cons]
      by_cases hle : value e ≤ x
      · rw [if_pos hle]
        have hlt : a < (before.map value).length := h.lt_length
        have hlt' : a < (before.map (·.action)).length := by simpa using hlt
        refine ih (a := a) (x := x) _ ?_ ?_ ?_
        · rw [List.map_append]
          exact h.concat_of_le hx hle
        · rw [List.map_append, List.getElem?_append_left hlt, hx]
        · rw [List.map_append, List.getElem?_append_left hlt', haction]
      · rw [if_neg hle]
        refine ih (a := before.length) _ ?_ (by simp) (by simp)
        rw [List.map_append, ← List.length_map]
        exact h.concat_of_lt hx (not_le.mp hle)

/-- **The edge that is reported** is the first of those with the greatest value. -/
theorem pickBest_eq_some {value : RootEdge K → K} {l : List (RootEdge K)} {a : ℕ}
    (h : IsFirstGreatest (l.map value) a) :
    (pickBest value none l).map Prod.fst = (l.map (·.action))[a]? := by
  cases l with
  | nil => exact absurd h.lt_length (Nat.not_lt_zero a)
  | cons e rest =>
      have hsingle : IsFirstGreatest ([e].map value) 0 := .singleton _
      obtain ⟨b, hb, hpick⟩ := pickBest_some [e] rest hsingle rfl rfl
      rw [pickBest, hpick, h.unique hb]
      rfl

end Tree

/-! ### Descents -/

namespace Tree

section Stats

variable {α : Type} {t t' : Tree α} {i a leaf : ℕ} {n : Node α} {e e' : Edge α}
  {path : List (ℕ × ℕ)}

/-- Replacing an edge by one at which the same was recorded leaves `stats` as they are. -/
theorem stats_of_stats_eq (he : n.edges[a]? = some e) (hstats : e'.stats = e.stats) :
    ({ n with edges := n.edges.setIfInBounds a e' } : Node α).stats = n.stats := by
  rw [Node.stats_setIfInBounds, hstats]
  have hat := Node.getElem?_stats he
  rw [List.getElem?_eq_some_iff] at hat
  obtain ⟨hlt, hat⟩ := hat
  rw [← hat, List.set_getElem_self]

/-- Every node that has its edges still has them in another tree, and the same was recorded at
them. -/
def KeepsStats (t t' : Tree α) : Prop :=
  ∀ ⦃i n⦄, t.node? i = some n → n.expanded = true →
    ∃ n', t'.node? i = some n' ∧ n'.expanded = true ∧ n'.stats = n.stats

theorem KeepsStats.trans {t'' : Tree α} (h : KeepsStats t t') (h' : KeepsStats t' t'') :
    KeepsStats t t'' := by
  intro i n hn hexpanded
  obtain ⟨n', hn', hexpanded', hstats⟩ := h hn hexpanded
  obtain ⟨n'', hn'', hexpanded'', hstats'⟩ := h' hn' hexpanded'
  exact ⟨n'', hn'', hexpanded'', hstats'.trans hstats⟩

/-- An edge may be replaced by one at which the same was recorded. -/
theorem keepsStats_setEdge (hn : t.node? i = some n) (he : n.edges[a]? = some e)
    (hstats : e'.stats = e.stats) : KeepsStats t (t.setEdge i n a e') := by
  intro j m hm hexpanded
  rw [setEdge, node?_setNode hn]
  split
  · next hij =>
    subst hij
    obtain rfl := Option.some.inj (hn.symm.trans hm)
    exact ⟨_, rfl, hexpanded, stats_of_stats_eq he hstats⟩
  · exact ⟨m, hm, hexpanded, rfl⟩

/-- **A walk records nothing** at the nodes that have their edges: `Walk` keeps their `stats`. -/
theorem Walk.keepsStats [SearchArithmetic α] (hwalk : Walk t i path leaf t') : KeepsStats t t' := by
  induction hwalk with
  | rest => exact fun _ n hn hexpanded => ⟨n, hn, hexpanded, rfl⟩
  | expand hn hexpanded hk _ ih =>
      refine KeepsStats.trans (fun j m hm hm' => ⟨m, ?_, hm', rfl⟩) ih
      rw [node?_setNode hn, if_neg]
      · exact hm
      · rintro rfl
        obtain rfl := Option.some.inj (hn.symm.trans hm)
        exact absurd (hexpanded.symm.trans hm') (by simp)
  | @meet t t' i n a e o path leaf hn he _ _ ih =>
      have hmeet : KeepsStats t (t.setEdge i n a (e.meet o.key)) := keepsStats_setEdge hn he rfl
      exact hmeet.trans ih
  | enter hn he _ =>
      refine KeepsStats.trans (fun j m hm hm' => ⟨m, node?_push_of_node? hm _, hm', rfl⟩)
        (keepsStats_setEdge (node?_push_of_node? hn _) he rfl)

end Stats

variable {σ : Type} {env : Environment σ K} {c : K} {selection : Selection} {maxDepth i : ℕ}
  {path : List (ℕ × ℕ)} {reward : K} {t t' : Tree K} {s s' : σ} {d : Descent K}

/-- Selection goes by what was recorded. -/
theorem select_eq_of_stats_eq {n n' : Node K} (h : n'.stats = n.stats) (c : K)
    (selection : Selection) : n'.select c selection = n.select c selection := by
  refine Option.ext fun a => ?_
  rw [Node.select_eq_some_iff, Node.select_eq_some_iff, Node.visits_eq_max_left,
    Node.visits_eq_max_left, Node.left, Node.left, Node.counts, Node.counts, h]

/-- **A descent leaves every node on its path by the selected edge**, the one that `select` gives in
the tree that the descent leaves. -/
theorem Descends.selects (h : Descends env c selection maxDepth i path reward t s d t' s') :
    ∃ steps, d.path = path ++ steps ∧
      ∀ x ∈ steps, ∃ n, t'.node? x.1 = some n ∧ n.expanded = true ∧
        n.select c selection = some x.2 := by
  induction h with
  | stop => exact ⟨[], (List.append_nil _).symm, fun x hx => absurd hx List.not_mem_nil⟩
  | barren => exact ⟨[], (List.append_nil _).symm, fun x hx => absurd hx List.not_mem_nil⟩
  | expand _ _ _ _ _ _ ih => exact ih
  | @meet i path reward t t' s s' n a e o d hn _ _ hexpanded hselect he _ hrest ih =>
      obtain ⟨steps, hpath, hsteps⟩ := ih
      obtain ⟨_, -, hwalk⟩ := hrest.walk
      have hmeet : KeepsStats t (t.setEdge i n a (e.meet (env.step n.key a s).1.next)) :=
        keepsStats_setEdge hn he rfl
      obtain ⟨n', hn', hexpanded', hstats⟩ := hmeet.trans hwalk.keepsStats hn hexpanded
      refine ⟨(i, a) :: steps, by rw [hpath, List.append_assoc]; rfl, ?_⟩
      exact List.forall_mem_cons.mpr ⟨⟨n', hn', hexpanded',
        (select_eq_of_stats_eq hstats c selection).trans hselect⟩, hsteps⟩
  | @enter i path reward t s n a e hn _ _ hexpanded hselect he hnew =>
      have hwalk : Walk t i [(i, a)] t.size (t.grow i n a e (env.step n.key a s).1.next
        (env.step n.key a s).1.terminal) := .enter hn he hnew
      obtain ⟨n', hn', hexpanded', hstats⟩ := hwalk.keepsStats hn hexpanded
      refine ⟨[(i, a)], rfl, fun x hx => ?_⟩
      obtain rfl := List.mem_singleton.mp hx
      exact ⟨n', hn', hexpanded', (select_eq_of_stats_eq hstats c selection).trans hselect⟩

end Tree

end DurativePlanning
