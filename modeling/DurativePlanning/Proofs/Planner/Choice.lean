import DurativePlanning.Proofs.Mdp.Built
import DurativePlanning.Proofs.Planner.Promise
import Mathlib.Data.List.Perm.Basic

/-!
# What a Rollout Looks At

A rollout draws some of the decisions that can be taken, without putting any of them back, and takes
the best one of those. The candidates wait in a pool; the one that is drawn changes places with the
first one that waits, so that the candidates drawn so far and those that still wait make up the pool
at any time. The score of a candidate plays no part in what is drawn, and what is drawn plays no
part in the comparison of scores.

* `Draws`: candidates drawn one after the other, without putting any back.
* `Mdp.bestOfDraws_eq`: drawing and scoring are independent of each other.
* `Mdp.isFirstBest_of_bestOf`: the first of the greatest scores wins.
* `Mdp.rolloutChoice_maximises`: a rollout takes the best of the decisions it looks at.
-/

namespace DurativePlanning

variable {α γ : Type}

/-! ### Drawing without putting back -/

section Draw

variable [Arithmetic α] [WordSource γ]

/-- An index that `pick` gives lies below the count. -/
theorem pick_lt (source : γ) {count : ℕ} (hcount : 0 < count) : (pick α source count).1 < count :=
  (Nat.min_le_right _ _).trans_lt (Nat.sub_lt hcount Nat.one_pos)

variable (α) in
/-- **Candidates drawn one after the other** from those that wait, and the source afterwards. The
source picks a place among those that wait; the candidate at that place changes places with the
first one, and is drawn. -/
inductive Draws : (waiting : List ℕ) → γ → (drawn : List ℕ) → γ → Prop
  | done (waiting : List ℕ) (source : γ) : Draws waiting source [] source
  | draw {waiting rest drawn : List ℕ} {source source₁ source' : γ} {place candidate : ℕ} :
      pick α source waiting.length = (place, source₁) → place < waiting.length →
        waiting.swap 0 place = candidate :: rest → Draws rest source₁ drawn source' →
          Draws waiting source (candidate :: drawn) source'

/-- `Draws` can go on as long as candidates wait. -/
theorem exists_draws (waiting : List ℕ) (source : γ) {n : ℕ} (hn : n ≤ waiting.length) :
    ∃ drawn source', Draws α waiting source drawn source' ∧ drawn.length = n := by
  induction n generalizing waiting source with
  | zero => exact ⟨[], source, .done waiting source, rfl⟩
  | succ n ih =>
      rcases hpick : pick α source waiting.length with ⟨place, source₁⟩
      have hplace : place < waiting.length := by
        have hlt := pick_lt (α := α) source (Nat.zero_lt_of_lt hn)
        rwa [hpick] at hlt
      have hlength : (waiting.swap 0 place).length = waiting.length := List.length_swap
      obtain ⟨candidate, rest, hswap⟩ :
          ∃ candidate rest, waiting.swap 0 place = candidate :: rest :=
        List.exists_cons_of_length_pos (hlength ▸ Nat.zero_lt_of_lt hn)
      rw [hswap, List.length_cons] at hlength
      obtain ⟨drawn, source', hdraws, hdrawn⟩ := ih rest source₁ (by omega)
      exact ⟨candidate :: drawn, source', .draw hpick hplace hswap hdraws, by simp [hdrawn]⟩

/-- **Nothing is put back, and nothing gets lost**: the drawn candidates and some others are a
permutation of those that waited, by induction on `Draws`. -/
theorem Draws.exists_perm {waiting drawn : List ℕ} {source source' : γ}
    (h : Draws α waiting source drawn source') : ∃ left, (drawn ++ left).Perm waiting := by
  induction h with
  | done waiting source => exact ⟨waiting, .refl _⟩
  | @draw waiting rest drawn source source₁ source' place candidate _ _ hswap _ ih =>
      obtain ⟨left, hleft⟩ := ih
      refine ⟨left, (hleft.cons candidate).trans ?_⟩
      rw [← hswap]
      exact List.swap_perm waiting 0 place

/-- From different candidates, different ones are drawn. -/
theorem Draws.nodup {waiting drawn : List ℕ} {source source' : γ}
    (h : Draws α waiting source drawn source') (hwaiting : waiting.Nodup) : drawn.Nodup := by
  obtain ⟨left, hperm⟩ := h.exists_perm
  exact (List.nodup_append.mp (hperm.nodup_iff.mpr hwaiting)).1

/-- Only candidates that wait are drawn. -/
theorem Draws.subset {waiting drawn : List ℕ} {source source' : γ}
    (h : Draws α waiting source drawn source') : drawn ⊆ waiting := by
  obtain ⟨left, hperm⟩ := h.exists_perm
  exact fun c hc => hperm.subset (List.mem_append_left left hc)

/-- When as many candidates are drawn as wait, the draws are a permutation of them, by
`Draws.exists_perm`. -/
theorem Draws.perm_of_length_le {waiting drawn : List ℕ} {source source' : γ}
    (h : Draws α waiting source drawn source') (hlength : waiting.length ≤ drawn.length) :
    drawn.Perm waiting := by
  obtain ⟨left, hperm⟩ := h.exists_perm
  have hnone : left = [] := by
    have hsum := hperm.length_eq
    rw [List.length_append] at hsum
    exact List.eq_nil_of_length_eq_zero (by omega)
  rwa [hnone, List.append_nil] at hperm

end Draw

/-! ### The pool -/

/-- `List.swap` behind some first entries is a swap of what comes after them. -/
theorem drop_swap_add {β : Type} (l : List β) (i j : ℕ) :
    (l.swap i (i + j)).drop i = (l.drop i).swap 0 j := by
  induction i generalizing l with
  | zero => rw [Nat.zero_add, List.drop_zero, List.drop_zero]
  | succ i ih =>
      cases l with
      | nil => simp
      | cons x rest =>
          rw [Nat.add_right_comm, List.drop_succ_cons, ← ih rest]
          rfl

namespace Mdp

section Pool

variable [Arithmetic α] [WordSource γ]

/-- The best one of some candidates in order by `betterOf`, when the one of `best` is in hand. -/
def bestOf (score : ℕ → α) (best : Option (ℕ × α)) (candidates : List ℕ) : Option (ℕ × α) :=
  candidates.foldl (fun best c => some (betterOf best c (score c))) best

/-- **Drawing and scoring are independent of each other**: whatever the scores are, `bestOfDraws` is
`bestOf` over the candidates that are drawn, and the source is the one after the draws. -/
theorem bestOfDraws_eq (score : ℕ → α) {pool : Array ℕ} {i : ℕ} {drawn : List ℕ}
    {source source' : γ} (h : Draws α (pool.toList.drop i) source drawn source')
    (best : Option (ℕ × α)) :
    bestOfDraws score drawn.length i pool best source = (bestOf score best drawn, source') := by
  induction drawn generalizing pool i source best with
  | nil => cases h with | done => rfl
  | cons candidate drawn ih =>
      cases h with
      | @draw _ rest _ _ source₁ _ place _ hpick hplace hswap hrest =>
          have hlength : (pool.toList.drop i).length = pool.size - i := by simp
          -- the swap is within the bounds of the pool
          rw [hlength] at hpick hplace
          have hi : i < pool.size := by omega
          have hj : i + place < pool.size := by omega
          have hpool : (pool.swapIfInBounds i (i + place)).toList =
              pool.toList.swap i (i + place) := by
            rw [Array.swapIfInBounds_def, dif_pos hi, dif_pos hj, Array.toList_swap,
              List.swap_eq_of_lt hi hj]
            rfl
          have hdrop : (pool.swapIfInBounds i (i + place)).toList.drop i = candidate :: rest := by
            rw [hpool, drop_swap_add, hswap]
          have hcandidate : (pool.swapIfInBounds i (i + place)).getD i 0 = candidate := by
            have hget : (pool.swapIfInBounds i (i + place)).toList[i]? = some candidate := by
              rw [← List.head?_drop, hdrop, List.head?_cons]
            rw [Array.getD_eq_getD_getElem?, ← Array.getElem?_toList, hget, Option.getD_some]
          have hnext : (pool.swapIfInBounds i (i + place)).toList.drop (i + 1) = rest := by
            rw [← List.tail_drop, hdrop, List.tail_cons]
          rw [List.length_cons, bestOfDraws]
          simp only [hpick, hcandidate]
          exact ih (hnext ▸ hrest) _

end Pool

/-! ### The first of the greatest scores -/

section Order

variable [Arithmetic α] {score : ℕ → α} {candidates before l : List ℕ} {c d best : ℕ}

/-- A candidate is the **first of the best** when no score is above its own, and the scores of those
that come before it do not reach it. The second clause is a negation, as scores may be undefined. -/
structure IsFirstBest (score : ℕ → α) (candidates : List ℕ) (best : ℕ) : Prop where
  greatest : ∀ c ∈ candidates, score c ≤ score best
  first : ∃ j, candidates[j]? = some best ∧ ∀ c ∈ candidates.take j, ¬score best ≤ score c

/-- The best one of some candidates is one of them, or the one that was in hand before. -/
theorem exists_mem_bestOf_some (score : ℕ → α) (c : ℕ) (l : List ℕ) :
    ∃ best ∈ c :: l, bestOf score (some (c, score c)) l = some (best, score best) := by
  induction l generalizing c with
  | nil => exact ⟨c, List.mem_cons_self, rfl⟩
  | cons d rest ih =>
      rw [bestOf, List.foldl_cons, betterOf]
      split
      · obtain ⟨best, hbest, hkept⟩ := ih c
        exact ⟨best, List.cons_subset_cons c (List.subset_cons_self d rest) hbest, hkept⟩
      · obtain ⟨best, hbest, hkept⟩ := ih d
        exact ⟨best, List.mem_cons_of_mem c hbest, hkept⟩

/-- `bestOf` of some candidates is one of them, with its score. -/
theorem exists_mem_bestOf (hne : candidates ≠ []) (score : ℕ → α) :
    ∃ best ∈ candidates, bestOf score none candidates = some (best, score best) := by
  obtain ⟨c, l, rfl⟩ := List.exists_cons_of_ne_nil hne
  exact exists_mem_bestOf_some score c l

/-- A further candidate whose score is not above the best leaves the first of the best what it is:
`betterOf` replaces it for a greater score only. -/
theorem IsFirstBest.concat_of_le (h : IsFirstBest score before c) (hd : score d ≤ score c) :
    IsFirstBest score (before ++ [d]) c := by
  obtain ⟨hgreatest, j, hj, hfirst⟩ := h
  have hlt : j < before.length := (List.getElem?_eq_some_iff.mp hj).1
  refine ⟨?_, j, by rwa [List.getElem?_append_left hlt], ?_⟩
  · rw [List.forall_mem_append, List.forall_mem_singleton]
    exact ⟨hgreatest, hd⟩
  · rwa [List.take_append_of_le_length hlt.le]

variable [WeaklyOrdered α]

/-- A further candidate whose score is above the best is the best one from then on. -/
theorem IsFirstBest.concat_of_not_le (h : IsFirstBest score before c)
    (hdefined : ∀ e ∈ before ++ [d], score e ≤ score e) (hd : ¬score d ≤ score c) :
    IsFirstBest score (before ++ [d]) d := by
  obtain ⟨hgreatest, j, hj, -⟩ := h
  have hc : score c ≤ score c := hdefined c (List.mem_append_left _ (List.mem_of_getElem? hj))
  have hd' : score d ≤ score d := hdefined d (by simp)
  have hup : score c ≤ score d := (WeaklyOrdered.total hc hd').resolve_right hd
  refine ⟨?_, before.length, by simp, ?_⟩
  · rw [List.forall_mem_append, List.forall_mem_singleton]
    exact ⟨fun e he => WeaklyOrdered.trans (hgreatest e he) hup, hd'⟩
  · rw [List.take_left]
    exact fun e he hle => hd (WeaklyOrdered.trans hle (hgreatest e he))

/-- `bestOf` keeps the first of the best, when the first of the best before is in hand: by induction
on the further candidates. -/
theorem IsFirstBest.bestOf (h : IsFirstBest score before c)
    (hdefined : ∀ e ∈ before ++ l, score e ≤ score e)
    (hbest : bestOf score (some (c, score c)) l = some (best, score best)) :
    IsFirstBest score (before ++ l) best := by
  induction l generalizing before c with
  | nil =>
      obtain ⟨rfl, -⟩ := Prod.mk.inj (Option.some.inj hbest)
      rwa [List.append_nil]
  | cons d rest ih =>
      rw [List.append_cons] at hdefined ⊢
      rw [Mdp.bestOf, List.foldl_cons, betterOf] at hbest
      split at hbest
      · next hle => exact ih (h.concat_of_le hle) hdefined hbest
      · next hgt =>
        refine ih (h.concat_of_not_le (fun e he => ?_) hgt) hdefined hbest
        exact hdefined e (List.mem_append_left rest he)

/-- **The best one of some candidates** is the first of the best: `bestOf` with nothing in hand
gives an `IsFirstBest`, when all scores are defined. -/
theorem isFirstBest_of_bestOf (hdefined : ∀ c ∈ candidates, score c ≤ score c)
    (hbest : bestOf score none candidates = some (best, score best)) :
    IsFirstBest score candidates best := by
  cases candidates with
  | nil => exact absurd hbest (by simp [bestOf])
  | cons c l =>
      have hone : IsFirstBest score [c] c :=
        ⟨List.forall_mem_singleton.mpr (hdefined c List.mem_cons_self), 0, rfl, by simp⟩
      exact hone.bestOf hdefined hbest

end Order

/-! ### The choice of a rollout -/

section Choice

variable [Arithmetic α]

/-- **What a rollout looks at**: `k` of the decisions that are possible, or all of them, drawn
without putting any back. It takes the one that `bestOf` keeps when they are scored by what they
promise. -/
theorem exists_examined [WordSource γ] (m : Mdp α) (s : State) {k : ℕ} (hk : 1 ≤ k)
    (hpossible : m.applicable s ≠ []) (source : γ) :
    ∃ examined source', Draws α (List.range (m.applicable s).length) source examined source' ∧
      (∀ score : ℕ → α, bestOfDraws score (min k (m.applicable s).length) 0
        (Array.range (m.applicable s).length) none source = (bestOf score none examined, source')) ∧
      examined.length = min k (m.applicable s).length ∧
      ∃ best ∈ examined, bestOf (m.promise s) none examined = some (best, m.promise s best) ∧
        m.rolloutChoice s (m.applicable s).length k source = (best, source') := by
  have hcount : 1 ≤ (m.applicable s).length := List.length_pos_of_ne_nil hpossible
  obtain ⟨examined, source', hdraws, hlength⟩ := exists_draws (α := α)
    (List.range (m.applicable s).length) source (n := min k (m.applicable s).length) (by simp)
  have hscored : ∀ score : ℕ → α, bestOfDraws score (min k (m.applicable s).length) 0
      (Array.range (m.applicable s).length) none source =
        (bestOf score none examined, source') := by
    intro score
    rw [← hlength]
    refine bestOfDraws_eq score ?_ none
    rwa [List.drop_zero, Array.toList_range]
  have hne : examined ≠ [] := by
    rintro rfl
    rw [List.length_nil] at hlength
    omega
  obtain ⟨best, hbest, hkept⟩ := exists_mem_bestOf hne (m.promise s)
  refine ⟨examined, source', hdraws, hscored, hlength, best, hbest, hkept, ?_⟩
  rw [rolloutChoice]
  simp only [candidateScore_eq, hscored, hkept]
  rfl

/-- The first of the best among all that wait is the best of all, when all of them are drawn. -/
theorem IsFirstBest.greatest_of_draws [WordSource γ] {score : ℕ → α} {candidates : List ℕ}
    {best count : ℕ} {source source' : γ} (h : IsFirstBest score candidates best)
    (hdraws : Draws α (List.range count) source candidates source')
    (hall : count ≤ candidates.length) {i : ℕ} (hi : i < count) : score i ≤ score best := by
  have hperm := hdraws.perm_of_length_le (by rwa [List.length_range])
  exact h.greatest i (hperm.mem_iff.mpr (List.mem_range.mpr hi))

/-- **A rollout takes the best of the decisions it looks at.** Let some decisions be possible in a
state, and let a rollout look at up to `k` of them, at least one. Whatever numbers are drawn, it
looks at `k` different ones, or at all of them if there are fewer, which are drawn without putting
any back; what they are worth does not influence which ones these are. It takes one of those, so it
always takes a decision that is possible. Where what they promise is defined, as exact numbers are
and doubles that did not overflow, it takes the first of those that promise the most; and when it
may look at all of them, one that promises the most of all. -/
theorem rolloutChoice_maximises [WeaklyOrdered α] [WordSource γ] (m : Mdp α) (s : State)
    {k : ℕ} (hk : 1 ≤ k) (hpossible : m.applicable s ≠ []) (source : γ) :
    let count := (m.applicable s).length
    ∃ examined source', Draws α (List.range count) source examined source' ∧
      (∀ score : ℕ → α, bestOfDraws score (min k count) 0 (Array.range count) none source =
        (bestOf score none examined, source')) ∧
      examined.length = min k count ∧ examined.Nodup ∧ (∀ i ∈ examined, i < count) ∧
      ∃ best ∈ examined, m.rolloutChoice s count k source = (best, source') ∧
        ((∀ i ∈ examined, m.promise s i ≤ m.promise s i) →
          IsFirstBest (m.promise s) examined best ∧
            (count ≤ k → ∀ i < count, m.promise s i ≤ m.promise s best)) := by
  intro count
  obtain ⟨examined, source', hdraws, hscored, hlength, best, hbest, hkept, hchoice⟩ :=
    exists_examined m s hk hpossible source
  refine ⟨examined, source', hdraws, hscored, hlength, hdraws.nodup List.nodup_range,
    fun i hi => List.mem_range.mp (hdraws.subset hi), best, hbest, hchoice, fun hdefined => ?_⟩
  have hfirst := isFirstBest_of_bestOf hdefined hkept
  exact ⟨hfirst, fun hall i hi => hfirst.greatest_of_draws hdraws (by omega) hi⟩

end Choice

/-- **Over exact numbers every promise is defined**, so without further conditions a rollout takes a
decision of the greatest expectation: no decision that it looks at gains a greater fraction of the
goals on average, and no decision at all does so when it looks at all of them. -/
theorem exists_greatest_expectation {K : Type} [Field K] [LinearOrder K] [IsStrictOrderedRing K]
    [FloorSemiring K] [WordSource γ] (m : Mdp K) (s : State) {k : ℕ} (hk : 1 ≤ k)
    (hpossible : m.applicable s ≠ []) (source : γ) :
    let expectation (action : ℕ) : K := ((m.transitions s action).map fun x =>
      x.1 * ((m.gained s x.2 : K) / (m.goalCount : K))).sum
    ∃ (examined : List ℕ) (best action : ℕ),
      examined.length = min k (m.applicable s).length ∧ examined.Nodup ∧
      (m.rolloutChoice s (m.applicable s).length k source).1 = best ∧ best ∈ examined ∧
      (m.applicable s)[best]? = some action ∧
      (∀ i ∈ examined, ∃ other, (m.applicable s)[i]? = some other ∧
        expectation other ≤ expectation action) ∧
      ((m.applicable s).length ≤ k → ∀ other ∈ m.applicable s,
        expectation other ≤ expectation action) := by
  intro expectation
  obtain ⟨examined, source', hdraws, -, hlength, best, hbest, hkept, hchoice⟩ :=
    exists_examined m s hk hpossible source
  have hfirst := isFirstBest_of_bestOf (fun i _ => le_refl (m.promise s i)) hkept
  have hexists : ∀ i ∈ examined, ∃ action, (m.applicable s)[i]? = some action := fun i hi =>
    ⟨_, List.getElem?_eq_getElem (List.mem_range.mp (hdraws.subset hi))⟩
  have hpromise : ∀ {i action}, (m.applicable s)[i]? = some action →
      m.promise s i = expectation action := fun haction => m.promise_eq_sum s haction
  obtain ⟨action, haction⟩ := hexists best hbest
  refine ⟨examined, best, action, hlength, hdraws.nodup List.nodup_range,
    congrArg Prod.fst hchoice, hbest, haction, fun i hi => ?_, fun hall other hother => ?_⟩
  · obtain ⟨other, hother⟩ := hexists i hi
    refine ⟨other, hother, ?_⟩
    rw [← hpromise haction, ← hpromise hother]
    exact hfirst.greatest i hi
  · obtain ⟨i, hi, hat⟩ := List.getElem_of_mem hother
    rw [← hpromise haction, ← hpromise (List.getElem?_eq_some_iff.mpr ⟨hi, hat⟩)]
    exact hfirst.greatest_of_draws hdraws (by omega) hi

/-- **Over doubles every promise is defined without an overflow**, so when the probabilities and the
rewards of all successors are finite, a rollout takes the first of the best decisions that it looks
at. -/
theorem isFirstBest_rolloutChoice [WordSource γ] (m : Mdp Float) (s : State) {k : ℕ} (hk : 1 ≤ k)
    (hpossible : m.applicable s ≠ []) (source : γ)
    (hfinite : ∀ action ∈ m.applicable s, ∀ x ∈ m.transitions s action,
      x.1.isFinite = true ∧ (m.progress s x.2).isFinite = true) :
    ∃ examined source', Draws Float (List.range (m.applicable s).length) source examined source' ∧
      examined.length = min k (m.applicable s).length ∧
      IsFirstBest (m.promise s) examined
        (m.rolloutChoice s (m.applicable s).length k source).1 := by
  obtain ⟨examined, source', hdraws, -, hlength, best, -, hkept, hchoice⟩ :=
    exists_examined m s hk hpossible source
  refine ⟨examined, source', hdraws, hlength, ?_⟩
  rw [hchoice]
  exact isFirstBest_of_bestOf (fun i _ => m.promise_le_self s hfinite i) hkept

/-- Putting something on the tray. -/
def serve (name : String) (effects : List Literal) : ConvertedAction α where
  course := .instant ⟨name, [], effects, []⟩
  resources := .empty
  combinable := false

/-- A tray on which there should be a cup and a plate. -/
def tray : Mdp Float :=
  combinationProcess ⟨⟨"tray", {}, .empty, .empty, [⟨⟨0⟩, true⟩, ⟨⟨1⟩, true⟩], 3⟩,
    [serve "rest" [], serve "cup" [⟨⟨0⟩, true⟩], serve "plate" [⟨⟨1⟩, true⟩]], []⟩ 1

/-- The words of a list in order, and then zeros. -/
abbrev wordsInOrder : WordSource (List UInt64) := ⟨fun words => (words.headD 0, words.tail)⟩

attribute [local instance] wordsInOrder

/-- A rollout on the empty tray that looks at two of the three decisions, the last one of them
first, does not rest: the plate comes first, and the cup promises no more. -/
theorem rolloutChoice_maximises_tray :
    let word : List UInt64 := [18446744073709551615]
    tray.applicable tray.initialState ≠ [] ∧
    tray.rolloutChoice tray.initialState 3 2 word = (2, []) ∧
    ∃ examined source', Draws Float (List.range 3) word examined source' ∧
      examined.length = 2 ∧ examined.Nodup ∧
      IsFirstBest (tray.promise tray.initialState) examined 2 := by
  intro word
  have happlicable : tray.applicable tray.initialState = [0, 1, 2] := by decide +kernel
  have hpossible : tray.applicable tray.initialState ≠ [] := by rw [happlicable]; simp
  have hchoice : tray.rolloutChoice tray.initialState 3 2 word = (2, []) := by decide +kernel
  have hfinite : ∀ action ∈ tray.applicable tray.initialState,
      ∀ x ∈ tray.transitions tray.initialState action,
        x.1.isFinite = true ∧ (tray.progress tray.initialState x.2).isFinite = true := by
    decide +kernel
  obtain ⟨examined, source', hdraws, -, hlength, hnodup, -, best, -, htaken, hfirst⟩ :=
    rolloutChoice_maximises tray tray.initialState (show 1 ≤ 2 by decide) hpossible word
  rw [happlicable] at hdraws hlength htaken
  obtain rfl : best = 2 := congrArg Prod.fst (htaken.symm.trans hchoice)
  exact ⟨hpossible, hchoice, examined, source', hdraws, hlength, hnodup,
    (hfirst fun i _ => tray.promise_le_self tray.initialState hfinite i).1⟩

end Mdp

end DurativePlanning
