import DurativePlanning.Proofs.Planner.Asked
import DurativePlanning.Proofs.Search.Budget
import DurativePlanning.Proofs.Search.Statistics

/-!
# What a Search Samples

Wherever a descent takes an edge, a successor of the state is drawn, and the descent goes on to a
node. The successor itself is seen by nobody but the table of states; this module reads it off the
record of what the descent asks, and follows it. The table only grows and nodes are never removed,
so that a node, once it stands for a state that was drawn, stands for it to the end of the search.

* `Sample`, `samplesAlong`: the successors drawn along a path, with the nodes gone to.
* `Mdp.drawnOf`: the successors drawn for the steps on a record.
* `Mdp.Stands`: what a sample stands for in a tree and a table.
* `Mdp.exists_drawn_of_descends`: a descent draws one successor per edge, and each stands for
  something.
* `Mdp.Sampled`, `Mdp.Sampled.iterations`: what the samples of a search say of its tree.
-/

namespace DurativePlanning

variable {α γ : Type}

/-! ### Samples -/

/-- A **sample**: a successor that was drawn where a descent took an edge, and the node to which the
descent went on. The edge is given by its node and action. -/
structure Sample where
  edge : ℕ × ℕ
  state : State
  node : ℕ
  deriving DecidableEq

/-- The samples along a path that ends in a node, when these `states` were drawn at its edges. -/
def samplesAlong (path : List (ℕ × ℕ)) (leaf : ℕ) (states : List State) : List Sample :=
  ((Tree.moves path leaf).zip states).map fun x => ⟨x.1.1, x.2, x.1.2⟩

/-- Each move along the path has its sample. -/
theorem map_move_samplesAlong {path : List (ℕ × ℕ)} {leaf : ℕ} {states : List State}
    (hlength : path.length = states.length) :
    (samplesAlong path leaf states).map (fun x => (x.edge, x.node)) = Tree.moves path leaf := by
  have hmoves : (Tree.moves path leaf).length = path.length := by
    rw [← List.length_map Prod.fst, Tree.map_fst_moves]
  rw [samplesAlong, List.map_map]
  exact List.map_fst_zip (by rw [hmoves, hlength])

/-- The samples along a path begin with the one at its first edge. -/
theorem samplesAlong_cons {path : List (ℕ × ℕ)} {leaf next : ℕ} {rest : List ℕ}
    (h : path.map Prod.fst ++ [leaf] = next :: rest) (edge : ℕ × ℕ) (state : State)
    (states : List State) : samplesAlong (edge :: path) leaf (state :: states) =
      ⟨edge, state, next⟩ :: samplesAlong path leaf states := by
  rw [samplesAlong, Tree.moves_cons h]
  rfl

namespace Mdp

section Drawn

variable [Arithmetic α] [WordSource γ]

/-- The successor that `draw` gives when a `step` is asked for; nothing is drawn for other
questions. -/
def drawn? (m : Mdp α) : Question × StateTable × γ → Option State
  | (.step key position, table, source) =>
    (table.get? key).bind fun s =>
      (m.applicable s)[position]?.map fun action => (m.draw s action source).1
  | (.actionCount _, _) | (.choose _ _, _) => none

/-- The successors that are drawn for the steps on a record, the first one first. -/
def drawnOf (m : Mdp α) (log : List (Question × StateTable × γ)) : List State :=
  log.reverse.filterMap m.drawn?

/-- One more question on the record is the last one that is drawn for. -/
theorem drawnOf_cons (m : Mdp α) (asked : Question × StateTable × γ)
    (log : List (Question × StateTable × γ)) :
    m.drawnOf (asked :: log) = m.drawnOf log ++ (m.drawn? asked).toList := by
  rw [drawnOf, List.reverse_cons, List.filterMap_append]
  cases hdrawn : m.drawn? asked <;> simp [drawnOf, hdrawn]

/-- A `step` on a state in the table draws a successor of the decision at its position. -/
theorem drawn?_step {m : Mdp α} {table : StateTable} {source : γ} {key position action : ℕ}
    {s : State} (hs : table.get? key = some s)
    (haction : (m.applicable s)[position]? = some action) :
    m.drawn? (.step key position, table, source) = some (m.draw s action source).1 := by
  simp only [drawn?, hs, haction, Option.bind_some, Option.map_some]

variable (γ) in
/-- **What a sample stands for** in a tree and a table: the state was drawn where the action of the
edge was taken in the state of its node, and the node is the successor of the edge for the state. -/
structure Stands (m : Mdp α) (t : Tree α) (table : StateTable) (x : Sample) : Prop where
  origin : ∃ n s action, ∃ source : γ, t.node? x.edge.1 = some n ∧ table.get? n.key = some s ∧
    (m.applicable s)[x.edge.2]? = some action ∧ x.state = (m.draw s action source).1
  target : ∃ n, t.node? x.node = some n ∧ n.parent = some x.edge ∧ table.get? n.key = some x.state

/-- `Stands` is kept as the tree and the table grow. -/
theorem Stands.mono {m : Mdp α} {t t' : Tree α} {table table' : StateTable} {x : Sample}
    (h : m.Stands γ t table x) (hkeeps : Tree.Keeps t t')
    (hgrown : table.toList <+: table'.toList) : m.Stands γ t' table' x := by
  obtain ⟨⟨n, s, action, source, hn, hs, haction, hstate⟩, ⟨n₁, hn₁, hparent, hs₁⟩⟩ := h
  obtain ⟨n', hn', hbare⟩ := hkeeps hn
  obtain ⟨n₁', hn₁', hbare₁⟩ := hkeeps hn₁
  refine ⟨⟨n', s, action, source, hn', ?_, haction, hstate⟩, n₁', hn₁', ?_, ?_⟩
  · exact Node.key_eq_of_bare_eq hbare ▸ Numbering.get?_mono hgrown hs
  · exact (Node.parent_eq_of_bare_eq hbare₁).trans hparent
  · exact Node.key_eq_of_bare_eq hbare₁ ▸ Numbering.get?_mono hgrown hs₁

end Drawn

/-! ### What a descent samples -/

section Descent

variable [SearchArithmetic α] [WordSource γ] {m : Mdp α} {k : ℕ} {t t' : Tree α}
  {s s' : (StateTable × γ) × List (Question × StateTable × γ)}

/-- `actionCount` of a known state draws nothing, and is put on the record. -/
theorem actionCount_recorded_of_known {key : ℕ} (hknown : m.tableView.known s.1 key) :
    ((m.environment k).recorded.actionCount key s).2 =
      (s.1, (.actionCount key, s.1) :: s.2) := by
  obtain ⟨state, hstate⟩ := hknown
  rw [Environment.actionCount_recorded, environment_actionCount hstate]

/-- **A step draws a successor**, which has its number in the table from then on: `environment_step`
read through the record. -/
theorem exists_drawn_of_step {n : Node α} {i a : ℕ} {e : Edge α}
    (hknown : t.KnownTo m.tableView s.1) (hn : t.node? i = some n) (hexpanded : n.expanded = true)
    (he : n.edges[a]? = some e) :
    ∃ before action drawn, s.1.1.get? n.key = some before ∧
      (m.applicable before)[a]? = some action ∧ drawn = (m.draw before action s.1.2).1 ∧
      s.1.1.toList <+: ((m.environment k).recorded.step n.key a s).2.1.1.toList ∧
      ((m.environment k).recorded.step n.key a s).2.1.1.get?
        ((m.environment k).recorded.step n.key a s).1.next = some drawn ∧
      m.drawnOf ((m.environment k).recorded.step n.key a s).2.2 = m.drawnOf s.2 ++ [drawn] := by
  obtain ⟨before, hbefore, -, hcount⟩ := hknown.offers hn hexpanded
  have hlt : a < (m.applicable before).length :=
    hcount ▸ (Array.getElem?_eq_some_iff.mp he).1
  have haction := List.getElem?_eq_getElem hlt
  refine ⟨before, _, _, hbefore, haction, rfl, ?_⟩
  rw [Environment.step_recorded, environment_step hbefore haction, drawnOf_cons,
    drawn?_step hbefore haction]
  exact ⟨Numbering.prefix_intern _ _, Numbering.get?_intern _ _, rfl⟩

/-- **A descent draws one successor at each edge that it takes**, and goes on to the node that the
edge has for it: by induction on `Descends`. -/
theorem exists_drawn_of_descends {c : α} {selection : Selection} {maxDepth i : ℕ}
    {path : List (ℕ × ℕ)} {reward : α} {d : Descent α}
    (h : Tree.Descends (m.environment k).recorded c selection maxDepth i path reward t s d t' s')
    (ht : t.WellFormed) (hknown : t.KnownTo m.tableView s.1) :
    s.1.1.toList <+: s'.1.1.toList ∧ ∃ edges states, d.path = path ++ edges ∧
      m.drawnOf s'.2 = m.drawnOf s.2 ++ states ∧ edges.length = states.length ∧
      ∀ x ∈ samplesAlong edges d.leaf states, m.Stands γ t' s'.1.1 x := by
  induction h with
  | stop =>
      exact ⟨List.prefix_rfl, [], [], (List.append_nil _).symm, (List.append_nil _).symm, rfl,
        fun x hx => absurd hx List.not_mem_nil⟩
  | barren hn _ _ _ _ =>
      rw [actionCount_recorded_of_known (hknown.known hn), drawnOf_cons]
      exact ⟨List.prefix_rfl, [], [], (List.append_nil _).symm, rfl, rfl,
        fun x hx => absurd hx List.not_mem_nil⟩
  | expand hn _ _ hexpanded hcount _ ih =>
      obtain ⟨hgrows, hoffers⟩ := (m.environment_serves k).actionCount (hknown.known hn)
      obtain ⟨hgrown, edges, states, hpath, hdrawn, hrest⟩ :=
        ih (ht.setNode_expand hn hexpanded hcount)
          ((hknown.grows hgrows).setNode_expand hn hexpanded (hoffers hcount))
      rw [actionCount_recorded_of_known (hknown.known hn)] at hgrown hdrawn
      rw [drawnOf_cons] at hdrawn
      exact ⟨hgrown, edges, states, hpath, hdrawn.trans (by rw [drawn?]; simp), hrest⟩
  | @meet i path reward t t' s s' n a e o d hn _ _ hexpanded _ he hfound hrest ih =>
      obtain ⟨before, action, drawn, hbefore, haction, hdraw, hgrown, hget, hlog⟩ :=
        exists_drawn_of_step (k := k) hknown hn hexpanded he
      obtain ⟨hgrown', edges, states, hpath, hdrawn, hlength, hstands⟩ :=
        ih (ht.setEdge_meet hn he _)
          ((hknown.grows (grows_tableView hgrown)).setEdge hn a (e.meet _))
      obtain ⟨steps, hsteps, hwalk⟩ := hrest.walk
      obtain rfl : edges = steps := List.append_cancel_left (hpath.symm.trans hsteps)
      obtain ⟨later, hnodes⟩ := hwalk.exists_nodes
      obtain ⟨ho, hkey⟩ := Edge.mem_of_outcome? hfound
      obtain ⟨child, hchild, hchildKey, hparent⟩ :=
        ht.child ((Tree.edge?_of_node? hn a).trans he) o ho
      have hkeeps := (Tree.keeps_setEdge hn a _).trans hwalk.keeps
      -- The node of the entry has the key that the table has just given to the state.
      have hmet : m.Stands γ t _ ⟨(i, a), drawn, o.child⟩ :=
        ⟨⟨n, before, action, s.1.2, hn, Numbering.get?_mono hgrown hbefore, haction, hdraw⟩,
          child, hchild, hparent, by rw [hchildKey, hkey]; exact hget⟩
      refine ⟨hgrown.trans hgrown', (i, a) :: edges, drawn :: states, ?_, ?_,
        congrArg (· + 1) hlength, ?_⟩
      · rw [hpath, List.append_assoc]
        rfl
      · rw [hdrawn, hlog, List.append_assoc]
        rfl
      · rw [samplesAlong_cons hnodes, List.forall_mem_cons]
        exact ⟨hmet.mono hkeeps hgrown', hstands⟩
  | @enter i path reward t s n a e hn _ _ hexpanded _ he hnew =>
      obtain ⟨before, action, drawn, hbefore, haction, hdraw, hgrown, hget, hlog⟩ :=
        exists_drawn_of_step (k := k) hknown hn hexpanded he
      obtain ⟨n', hn', hbare⟩ := Tree.keeps_grow hn a e
        ((m.environment k).recorded.step n.key a s).1.next
        ((m.environment k).recorded.step n.key a s).1.terminal hn
      refine ⟨hgrown, [(i, a)], [drawn], rfl, hlog, rfl, fun x hx => ?_⟩
      obtain rfl := List.mem_singleton.mp hx
      refine ⟨⟨n', before, action, s.1.2, hn', ?_, haction, hdraw⟩,
        _, Tree.node?_grow_size hn a e _ _, rfl, hget⟩
      rw [Node.key_eq_of_bare_eq hbare]
      exact Numbering.get?_mono hgrown hbefore

end Descent

/-! ### A table that grows -/

section Grown

variable {m : Mdp α} {k : ℕ} {table : StateTable} {hidden : StateTable × γ}

/-- What a table tells by having grown out of another one. -/
def grownView (table : StateTable) : View (StateTable × γ) where
  known hidden _ := table.toList <+: hidden.1.toList
  offers hidden _ _ := table.toList <+: hidden.1.toList

/-- `grownView` tells no less of a table that grows. -/
theorem grows_grownView {hidden' : StateTable × γ} (h : hidden.1.toList <+: hidden'.1.toList) :
    (grownView table).Grows hidden hidden' :=
  ⟨fun hgrown => hgrown.trans h, fun hgrown => hgrown.trans h⟩

variable [SearchArithmetic α] [WordSource γ]

/-- The table only grows, whatever is asked: `environment` serves `grownView`. -/
theorem environment_serves_grownView (m : Mdp α) (k : ℕ) (table : StateTable) :
    (m.environment k).Serves (grownView (γ := γ) table) where
  actionCount {hidden key} h := by
    have hsame : ((m.environment k).actionCount key hidden).2 = hidden := by
      simp only [environment]
      split <;> rfl
    rw [hsame]
    exact ⟨.refl hidden, fun _ => h⟩
  step {hidden key position _} h _ := by
    simp only [environment]
    split
    · exact ⟨.refl hidden, h⟩
    · split
      · exact ⟨.refl hidden, h⟩
      · exact ⟨grows_grownView (Numbering.prefix_intern _ _), h.trans (Numbering.prefix_intern _ _)⟩
  choose {hidden key count} h := by
    simp only [environment]
    split
    · exact .refl hidden
    · exact grows_grownView List.prefix_rfl

/-- The table grows while a leaf is estimated. -/
theorem prefix_estimate (config : SearchConfig α) (leaf : Node α)
    (h : table.toList <+: hidden.1.toList) :
    table.toList <+: (Tree.estimate (m.environment k) config leaf hidden).2.1.toList := by
  rw [Tree.estimate]
  split
  · exact h
  · rw [rollout, walk_recorded (m.environment k) _ _ _ _ _ (hidden, [])]
    have hknown : (grownView table).known hidden leaf.key := h
    exact (goes_walk (s := (hidden, [])) (m.environment_serves_grownView k table)
      hknown).grows.known hknown

end Grown

/-! ### What a search samples -/

section Search

variable [SearchArithmetic α] [WordSource γ]

/-- What the descent of an iteration samples. -/
def iterationSamples (m : Mdp α) (k : ℕ) (config : SearchConfig α) (t : Tree α)
    (hidden : StateTable × γ) : List Sample :=
  match t.descend (m.environment k).recorded config.c config.selection config.maxDepth
    (hidden, []) with
  | (.error _, _) => []
  | (.ok d, _, _, log) => samplesAlong d.path d.leaf (m.drawnOf log)

/-- What the descents of up to `n` iterations sample. The last iteration may fail after its descent.
-/
def samples (m : Mdp α) (k : ℕ) (config : SearchConfig α) :
    (n : ℕ) → Tree α → StateTable × γ → List Sample
  | 0, _, _ => []
  | n + 1, t, hidden =>
    m.iterationSamples k config t hidden ++
      match t.iterate (m.environment k) config hidden with
      | (.error _, _) => []
      | (.ok _, t, hidden) => samples m k config n t hidden

/-- **What the samples of a search say** of its tree and its table: each `Stands` for something, and
`tallyAt` an edge counts the samples that were taken there. -/
structure Sampled (m : Mdp α) (t : Tree α) (hidden : StateTable × γ) (samples : List Sample) :
    Prop where
  wellFormed : t.WellFormed
  known : t.KnownTo m.tableView hidden
  stands : ∀ x ∈ samples, m.Stands γ t hidden.1 x
  counted : ∀ p a counts, t.tallyAt p a counts =
    samples.countP fun x => x.edge = (p, a) ∧ counts x.node = true

variable {m : Mdp α} {t : Tree α} {hidden : StateTable × γ} {seen : List Sample}

/-- The states of all nodes are in the table after an iteration: the tree is `KnownTo` `tableView`
again. -/
theorem knownTo_iterate (ht : t.WellFormed) (hknown : t.KnownTo m.tableView hidden) (k : ℕ)
    (config : SearchConfig α) : (t.iterate (m.environment k) config hidden).2.1.KnownTo
      m.tableView (t.iterate (m.environment k) config hidden).2.2 := by
  have hminds := Tree.minds_iterate (s := (hidden, [])) (m.environment_serves k) ht hknown config
  have hforget : t.iterate (m.environment k) config hidden =
      forget (t.iterate (m.environment k).recorded config (hidden, [])) :=
    Tree.iterate_recorded t config (hidden, [])
  rw [hforget]
  exact hminds.known

/-- **One more iteration** samples what its descent draws: `Sampled` holds with `iterationSamples`
put at the end. -/
theorem Sampled.iterate (h : m.Sampled t hidden seen) (k : ℕ) (config : SearchConfig α) :
    m.Sampled (t.iterate (m.environment k) config hidden).2.1
      (t.iterate (m.environment k) config hidden).2.2
      (seen ++ m.iterationSamples k config t hidden) := by
  obtain ⟨d, t₁, hidden₁, log, leaf, hrecorded, hd, hleaf, -⟩ :=
    Tree.exists_descend_recorded h.wellFormed (m.environment k) config.c config.selection
      config.maxDepth hidden
  obtain ⟨hgrown, edges, states, hpath, hdrawn, hlength, hstands⟩ :=
    exists_drawn_of_descends ((Tree.descend_eq_ok_iff h.wellFormed).mp hrecorded) h.wellFormed
      h.known
  rw [List.nil_append] at hpath
  subst hpath
  have hsamples : m.iterationSamples k config t hidden = samplesAlong d.path d.leaf states := by
    have hlog : m.drawnOf log = states := hdrawn
    rw [iterationSamples, hrecorded, ← hlog]
  have hgrown₁ : hidden₁.1.toList <+:
      (t.iterate (m.environment k) config hidden).2.2.1.toList := by
    rw [Tree.hidden_iterate hd hleaf]
    exact prefix_estimate config leaf List.prefix_rfl
  have hkeeps₁ := Tree.keeps_iterate_of_descend h.wellFormed hd
  obtain ⟨hkeeps, -⟩ := h.wellFormed.keeps_iterate (m.environment k) config hidden
  have hgrownAll := hgrown.trans hgrown₁
  refine ⟨h.wellFormed.iterate _ config hidden, knownTo_iterate h.wellFormed h.known k config, ?_,
    fun p a counts => ?_⟩
  · rw [hsamples, List.forall_mem_append]
    exact ⟨fun x hx => (h.stands x hx).mono hkeeps hgrownAll,
      fun x hx => (hstands x hx).mono hkeeps₁ hgrown₁⟩
  · obtain ⟨d', hd', -, htally, -⟩ :=
      Tree.iterate_counts h.wellFormed (m.environment k) config hidden
    obtain rfl : d = d' := Except.ok.inj ((congrArg Prod.fst hd).symm.trans hd')
    rw [htally, h.counted, List.countP_append, hsamples, ← map_move_samplesAlong hlength,
      List.countP_map]
    rfl

/-- **Any number of iterations** sample what their descents draw, by induction with
`Sampled.iterate`. -/
theorem Sampled.iterations (h : m.Sampled t hidden seen) (k : ℕ) (config : SearchConfig α) (n : ℕ) :
    m.Sampled (Tree.iterations (m.environment k) config n t hidden).2.1
      (Tree.iterations (m.environment k) config n t hidden).2.2
      (seen ++ m.samples k config n t hidden) := by
  induction n generalizing t hidden seen with
  | zero => rwa [samples, List.append_nil]
  | succ n ih =>
      have hnext := h.iterate k config
      rcases hi : t.iterate (m.environment k) config hidden with ⟨cause | i, t', hidden'⟩
      · rw [hi] at hnext
        rw [Tree.iterations_of_error hi, samples, hi, List.append_nil]
        exact hnext
      · rw [hi] at hnext
        rw [Tree.iterations_of_ok hi, samples, hi, ← List.append_assoc]
        exact ih hnext

end Search

end Mdp

end DurativePlanning
