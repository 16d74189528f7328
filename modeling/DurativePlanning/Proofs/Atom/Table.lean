import DurativePlanning.Proofs.Numbering

/-!
# What Is Known of a Table of Atoms

A table of atoms is made of a list, and it takes in further ground fluents one by one. Atoms are
stored by number in many places, and of the table itself only its list is stored, so what counts is
that a table is determined by its list, and that an atom never changes what it stands for.

* `AtomTable.Built`: a table, with the ground fluents that it was given.
* `AtomTable.Built.eq_ofList`: a table depends on what it was given, and not on how.
* `AtomTable.table_of_built`: the atoms in use, what numbering does, and what comes back from a
  list.
-/

namespace DurativePlanning

namespace AtomTable

variable {t : AtomTable} {f g : GroundFluent} {a : AtomId} {met : List GroundFluent}

/-- **How tables come about**, with the ground fluents `met` that they were given:
`AtomTable.ofList`, and then `AtomTable.internAtom` once for each further ground fluent. -/
inductive Built : List GroundFluent → AtomTable → Prop
  | ofList (l : List GroundFluent) : Built l (.ofList l)
  | intern {l : List GroundFluent} {t : AtomTable} (f : GroundFluent) :
      Built l t → Built (l ++ [f]) (t.internAtom f).2

/-- A table depends on what it was given, and not on how: it is `ofList met`. -/
theorem Built.eq_ofList (h : Built met t) : t = .ofList met := by
  induction h with
  | ofList l => rfl
  | intern f _ ih =>
      rw [Numbering.ofList_concat, ← ih]
      rfl

/-- The atoms that `lookup` gives are those whose index is below `size`. -/
theorem exists_lookup_iff : (∃ f, t.lookup f = some a) ↔ a.index < t.size := by
  obtain ⟨n⟩ := a
  simp only [lookup, Option.map_eq_some_iff, AtomId.mk.injEq, exists_eq_right]
  exact Numbering.exists_number?_iff

/-- `internAtom` on a ground fluent that has an atom answers with this atom and the same table. -/
theorem internAtom_of_lookup (h : t.lookup f = some a) : t.internAtom f = (a, t) := by
  obtain ⟨n, hn, rfl⟩ := Option.map_eq_some_iff.mp h
  rw [internAtom, Numbering.intern_of_number? hn]

/-- `internAtom` on a new ground fluent answers with the atom numbered `size`, and puts the ground
fluent at the end of `toList`. -/
theorem internAtom_of_lookup_eq_none (h : t.lookup f = none) :
    (t.internAtom f).1 = ⟨t.size⟩ ∧ (t.internAtom f).2.toList = t.toList ++ [f] := by
  obtain ⟨hnumber, hlist⟩ := Numbering.intern_of_number?_eq_none (Option.map_eq_none_iff.mp h)
  exact ⟨congrArg AtomId.mk hnumber, hlist⟩

/-- `lookup` finds no atom exactly for the ground fluents that the table was not given. -/
theorem Built.lookup_eq_none_iff (h : Built met t) : t.lookup f = none ↔ f ∉ met := by
  obtain rfl := h.eq_ofList
  rw [lookup, Option.map_eq_none_iff, Numbering.number?_eq_none_iff, Numbering.mem_toList_ofList]

/-- **Tables of atoms**, however they came about, as long as the numbers of thirty-two bits suffice.
Looking up and getting are inverse to each other, the atoms in use are exactly those below the size,
and no number is cut. Numbering a ground fluent that the table was given before changes nothing; a
new one gets the next atom, is put at the end, and moves no other. A table is made again from its
list, and its list holds the first occurrences of what the table was given, so that a list comes
back as it was exactly when it repeats nothing. -/
theorem table_of_built (h : Built met t) (hcount : t.size ≤ UInt32.size) :
    (∀ f a, t.lookup f = some a ↔ t.fluent? a = some f) ∧
    (∀ a, (∃ f, t.lookup f = some a) ↔ a.index < t.size) ∧
    (∀ a, a.index < t.size → AtomId.ofNumber a.index = a) ∧
    (∀ f ∈ met, ∃ a, t.lookup f = some a ∧ t.internAtom f = (a, t)) ∧
    (∀ f, f ∉ met → (t.internAtom f).1 = ⟨t.size⟩ ∧ (t.internAtom f).2.toList = t.toList ++ [f] ∧
      ∀ g a, t.lookup g = some a → (t.internAtom f).2.lookup g = some a) ∧
    Numbering.ofList t.toList = t ∧
    t.toList = Numbering.firsts met ∧ (t.toList = met ↔ met.Nodup) := by
  have hlist : t.toList = Numbering.firsts met := by
    rw [h.eq_ofList, Numbering.toList_ofList_eq_firsts]
  have hself : t.toList = met ↔ met.Nodup := by
    rw [h.eq_ofList]
    exact Numbering.toList_ofList_eq_self_iff
  refine ⟨fun f a => lookup_eq_some_iff, fun a => exists_lookup_iff, fun a ha => ?_,
    fun f hf => ?_, fun f hf => ?_, t.ofList_toList, hlist, hself⟩
  · exact congrArg AtomId.mk (word32_of_lt (Nat.lt_of_lt_of_le ha hcount))
  · obtain ⟨a, ha⟩ := Option.ne_none_iff_exists'.mp fun hnone => h.lookup_eq_none_iff.mp hnone hf
    exact ⟨a, ha, internAtom_of_lookup ha⟩
  · obtain ⟨hatom, hpushed⟩ := internAtom_of_lookup_eq_none (h.lookup_eq_none_iff.mpr hf)
    exact ⟨hatom, hpushed, fun g a => lookup_mono (hpushed ▸ List.prefix_append _ _)⟩

/-- A light that is on in a room. -/
def lightIn (room : ℕ) : GroundFluent := ⟨⟨0⟩, [⟨room⟩]⟩

/-- A table is made of a list that holds one of three lights twice, and is given another one of them
once more. Each of them has one atom, and the list does not come back as it was. -/
theorem table_of_built_lights :
    let met := [lightIn 4, lightIn 2, lightIn 4, lightIn 7] ++ [lightIn 2]
    ∃ t, Built met t ∧ t.size ≤ UInt32.size ∧ t.toList = [lightIn 4, lightIn 2, lightIn 7] ∧
      t.lookup (lightIn 2) = some ⟨1⟩ ∧ (t.internAtom (lightIn 9)).1 = ⟨3⟩ ∧ t.toList ≠ met := by
  intro met
  obtain ⟨t, hbuilt⟩ : ∃ t, Built met t := ⟨_, .intern (lightIn 2) (.ofList _)⟩
  have hfirsts : t.toList = [lightIn 4, lightIn 2, lightIn 7] := by
    rw [hbuilt.eq_ofList, Numbering.toList_ofList_eq_firsts]
    decide
  have hsize : t.size = 3 := Array.length_toList.symm.trans (congrArg List.length hfirsts)
  have hcount : t.size ≤ UInt32.size := by
    rw [hsize]
    decide
  obtain ⟨hinverse, -, -, -, hnew, -, -, hself⟩ := table_of_built hbuilt hcount
  have hfluent : t.fluent? ⟨1⟩ = some (lightIn 2) := by
    rw [fluent?, Numbering.get?_eq_getElem?, hfirsts]
    rfl
  refine ⟨t, hbuilt, hcount, hfirsts, (hinverse _ _).mpr hfluent, ?_, mt hself.mp (by decide)⟩
  rw [(hnew (lightIn 9) (by decide)).1, hsize]

end AtomTable

end DurativePlanning
