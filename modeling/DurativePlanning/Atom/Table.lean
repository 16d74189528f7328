import DurativePlanning.Fluent
import DurativePlanning.Numbering

/-!
# The Table of Atoms

Ground fluents are numbered in the order in which they are first met, and an atom is such a number.

* `AtomTable.lookup`: the atom of a ground fluent.
* `AtomTable.fluent?`: the ground fluent of an atom.
* `AtomTable.internAtom`: the atom of a ground fluent, a new one if it has none yet.
* `AtomTable.lookup_eq_some_iff`: looking up and getting are inverse to each other.
-/

namespace DurativePlanning

/-- A truth value asked of, or given to, an atom. -/
structure Literal where
  atom : AtomId
  value : Bool
  deriving DecidableEq, Repr, Inhabited

/-- Ground fluents by atom: a `Numbering` of them, in which `AtomId` is the number. -/
abbrev AtomTable := Numbering GroundFluent

namespace AtomTable

/-- The ground fluent of an atom. -/
def fluent? (t : AtomTable) (a : AtomId) : Option GroundFluent := t.get? a.index

/-- The atom of a ground fluent, if `t` has a number for it. -/
def lookup (t : AtomTable) (f : GroundFluent) : Option AtomId := (t.number? f).map AtomId.mk

/-- The atom of a ground fluent: its own if it has one, else the next free one
(`Numbering.intern`). -/
def internAtom (t : AtomTable) (f : GroundFluent) : AtomId × AtomTable :=
  (⟨(t.intern f).1⟩, (t.intern f).2)

/-- The atoms in ascending order. -/
def atoms (t : AtomTable) : List AtomId := (List.range t.size).map AtomId.mk

/-- `lookup` and `fluent?` are inverse to each other. -/
theorem lookup_eq_some_iff {t : AtomTable} {f : GroundFluent} {a : AtomId} :
    t.lookup f = some a ↔ t.fluent? a = some f := by
  obtain ⟨n⟩ := a
  simp [lookup, fluent?, ← Numbering.number?_eq_some_iff]

end AtomTable

end DurativePlanning
