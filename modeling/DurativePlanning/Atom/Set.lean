import DurativePlanning.Identifier

/-!
# Sets of Atoms

The atoms that hold in a state, and the atoms that an action needs for itself, are finite sets. An
`AtomSet` keeps its atoms in ascending order, so two sets with the same atoms are equal.

* `AtomSet.mem_insert`, `AtomSet.mem_erase`, `AtomSet.mem_union`: what the operations do.
* `AtomSet.ext`: a set is determined by its atoms.
-/

namespace DurativePlanning

/-- A finite set of atoms, listed in ascending order. The field `ascending` makes the list unique,
so that equal sets are equal as structures (`AtomSet.ext`). -/
structure AtomSet where
  toList : List AtomId
  ascending : toList.Pairwise fun a b => a.index < b.index

namespace AtomSet

instance : DecidableEq AtomSet := fun s t =>
  if h : s.toList = t.toList then isTrue (by cases s; cases t; cases h; rfl)
  else isFalse fun e => h (by rw [e])

instance : Membership AtomId AtomSet := ⟨fun s a => a ∈ s.toList⟩

/-- Membership is membership in `toList`. -/
theorem mem_def {a : AtomId} {s : AtomSet} : a ∈ s ↔ a ∈ s.toList := Iff.rfl

instance (a : AtomId) (s : AtomSet) : Decidable (a ∈ s) :=
  inferInstanceAs (Decidable (a ∈ s.toList))

def empty : AtomSet := ⟨[], .nil⟩

instance : Inhabited AtomSet := ⟨empty⟩

/-- Whether an atom is in a set. -/
def contains (s : AtomSet) (a : AtomId) : Bool := decide (a ∈ s)

/-- An atom put in its place in an ascending list, once. -/
def insertInto (a : AtomId) : List AtomId → List AtomId
  | [] => [a]
  | b :: rest =>
    if a.index < b.index then a :: b :: rest
    else if a = b then b :: rest
    else b :: insertInto a rest

/-- `insertInto` adds the atom and loses none. -/
theorem mem_insertInto {a x : AtomId} {l : List AtomId} :
    x ∈ insertInto a l ↔ x = a ∨ x ∈ l := by
  induction l with
  | nil => simp [insertInto]
  | cons b rest ih =>
    rw [insertInto]
    split
    · simp
    · split
      · next h => subst h; simp
      · simp only [List.mem_cons, ih]
        constructor
        · rintro (h | h | h) <;> simp [h]
        · rintro (h | h | h) <;> simp [h]

/-- `insertInto` keeps a list ascending. -/
theorem pairwise_insertInto {a : AtomId} {l : List AtomId}
    (h : l.Pairwise fun x y => x.index < y.index) :
    (insertInto a l).Pairwise fun x y => x.index < y.index := by
  induction l with
  | nil => simp [insertInto]
  | cons b rest ih =>
    rw [List.pairwise_cons] at h
    rw [insertInto]
    split
    · next hab =>
      refine List.pairwise_cons.2 ⟨fun x hx => ?_, List.pairwise_cons.2 h⟩
      rcases List.mem_cons.1 hx with rfl | hx
      · exact hab
      · exact Nat.lt_trans hab (h.1 x hx)
    · split
      · exact List.pairwise_cons.2 h
      · next hab hne =>
        refine List.pairwise_cons.2 ⟨fun x hx => ?_, ih h.2⟩
        rcases mem_insertInto.1 hx with rfl | hx
        · have : x.index ≠ b.index := fun e => hne (by cases x; cases b; cases e; rfl)
          omega
        · exact h.1 x hx

/-- The set with one more atom. -/
def insert (s : AtomSet) (a : AtomId) : AtomSet :=
  ⟨insertInto a s.toList, pairwise_insertInto s.ascending⟩

/-- The set without an atom. -/
def erase (s : AtomSet) (a : AtomId) : AtomSet :=
  ⟨s.toList.filter (· ≠ a), s.ascending.filter _⟩

/-- The atoms of a list, each once: they are put in with `insert`, from left to right. -/
def ofList (l : List AtomId) : AtomSet := l.foldl insert empty

/-- The atoms that are in either set: those of the second one are put into the first one with
`insert`. -/
def union (s t : AtomSet) : AtomSet := t.toList.foldl insert s

/-- Whether two sets share no atom, tested with `contains` on each atom of the first one. -/
def disjoint (s t : AtomSet) : Bool := s.toList.all fun a => !t.contains a

/-! ### Membership -/

/-- Nothing is in `empty`. -/
theorem not_mem_empty (a : AtomId) : ¬ a ∈ empty := by simp [mem_def, empty]

/-- `contains` decides membership. -/
theorem contains_iff {s : AtomSet} {a : AtomId} : s.contains a = true ↔ a ∈ s := by
  simp [contains]

/-- The members of `s.insert a` are `a` and those of `s`. -/
theorem mem_insert {s : AtomSet} {a x : AtomId} : x ∈ s.insert a ↔ x = a ∨ x ∈ s :=
  mem_insertInto

/-- The members of `s.erase a` are those of `s` other than `a`. -/
theorem mem_erase {s : AtomSet} {a x : AtomId} : x ∈ s.erase a ↔ x ≠ a ∧ x ∈ s := by
  simp [mem_def, erase, and_comm]

/-- Putting in the atoms of a list one by one adds exactly these atoms. -/
theorem mem_foldl_insert {l : List AtomId} {s : AtomSet} {x : AtomId} :
    x ∈ l.foldl insert s ↔ x ∈ s ∨ x ∈ l := by
  induction l generalizing s with
  | nil => simp
  | cons a rest ih =>
    simp only [List.foldl_cons, ih, mem_insert, List.mem_cons]
    constructor
    · rintro ((h | h) | h) <;> simp [h]
    · rintro (h | h | h) <;> simp [h]

/-- The members of `ofList l` are those of `l`. -/
theorem mem_ofList {l : List AtomId} {x : AtomId} : x ∈ ofList l ↔ x ∈ l := by
  simp [ofList, mem_foldl_insert, not_mem_empty]

/-- The members of `s.union t` are those of either set. -/
theorem mem_union {s t : AtomSet} {x : AtomId} : x ∈ s.union t ↔ x ∈ s ∨ x ∈ t :=
  mem_foldl_insert

/-- `disjoint` decides whether no atom is in both sets. -/
theorem disjoint_iff {s t : AtomSet} : s.disjoint t = true ↔ ∀ a, a ∈ s → ¬ a ∈ t := by
  simp [disjoint, contains, mem_def]

/-- Two ascending lists with the same members are the same list, which is why `AtomSet` is
extensional. -/
theorem eq_of_mem_iff {l r : List AtomId} (hl : l.Pairwise fun a b => a.index < b.index)
    (hr : r.Pairwise fun a b => a.index < b.index) (h : ∀ x, x ∈ l ↔ x ∈ r) : l = r := by
  induction l generalizing r with
  | nil => cases r with
    | nil => rfl
    | cons b r => exact absurd ((h b).2 (by simp)) (by simp)
  | cons a l ih =>
    cases r with
    | nil => exact absurd ((h a).1 (by simp)) (by simp)
    | cons b r =>
      rw [List.pairwise_cons] at hl hr
      have hab : a = b := by
        rcases List.mem_cons.1 ((h a).1 (by simp)) with e | ha
        · exact e
        · rcases List.mem_cons.1 ((h b).2 (by simp)) with e | hb
          · exact e.symm
          · have h₁ := hr.1 a ha
            have h₂ := hl.1 b hb
            omega
      subst hab
      congr 1
      refine ih hl.2 hr.2 fun x => ⟨fun hx => ?_, fun hx => ?_⟩
      · rcases List.mem_cons.1 ((h x).1 (List.mem_cons_of_mem _ hx)) with e | hx'
        · exact absurd (hl.1 x hx) (by rw [e]; exact Nat.lt_irrefl _)
        · exact hx'
      · rcases List.mem_cons.1 ((h x).2 (List.mem_cons_of_mem _ hx)) with e | hx'
        · exact absurd (hr.1 x hx) (by rw [e]; exact Nat.lt_irrefl _)
        · exact hx'

/-- A set is determined by its atoms. -/
theorem ext {s t : AtomSet} (h : ∀ a, a ∈ s ↔ a ∈ t) : s = t := by
  have : s.toList = t.toList := eq_of_mem_iff s.ascending t.ascending h
  cases s; cases t; cases this; rfl

end AtomSet

end DurativePlanning
