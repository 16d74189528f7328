import Std.Data.ExtHashMap

/-!
# Numbering Values

Atoms and states are referred to by number. A `Numbering` gives out numbers in the order in which
values are first met: the values are listed by number, and an index finds the number of a value
again. The two are kept inverse to each other, so a numbering is determined by its list.

* `Numbering.intern`: the number of a value, a new one if it has none yet.
* `Numbering.number?_eq_some_iff`: finding a number and getting a value are inverse to each other.
* `Numbering.ext`: a numbering is determined by the values it lists.
-/

namespace DurativePlanning

/-- Values by number, and the number of each value; the field `inverse` says that the two agree. -/
structure Numbering (β : Type) [DecidableEq β] [Hashable β] where
  values : Array β
  index : Std.ExtHashMap β Nat
  inverse : ∀ (x : β) (n : Nat), index[x]? = some n ↔ values[n]? = some x

namespace Numbering

variable {β : Type} [DecidableEq β] [Hashable β]

/-- Nothing is numbered yet. -/
def empty : Numbering β := ⟨#[], ∅, by simp⟩

instance : Inhabited (Numbering β) := ⟨empty⟩

/-- The number of values, which is the next number that `intern` gives out. -/
def size (t : Numbering β) : Nat := t.values.size

/-- The value with a number. -/
def get? (t : Numbering β) (n : Nat) : Option β := t.values[n]?

/-- The number of a value. -/
def number? (t : Numbering β) (x : β) : Option Nat := t.index[x]?

/-- The values in order of number. -/
def toList (t : Numbering β) : List β := t.values.toList

/-- `number?` and `get?` are inverse to each other. -/
theorem number?_eq_some_iff {t : Numbering β} {x : β} {n : Nat} :
    t.number? x = some n ↔ t.get? n = some x :=
  t.inverse x n

/-- The numbering with a value that has no number yet; it gets the number `size`. -/
def push (t : Numbering β) (x : β) (h : t.number? x = none) : Numbering β where
  values := t.values.push x
  index := t.index.insert x t.values.size
  inverse y n := by
    have hx : t.index[x]? = none := h
    rw [Std.ExtHashMap.getElem?_insert, Array.getElem?_push]
    by_cases hxy : x = y
    · subst hxy
      have hn : t.values[n]? ≠ some x := fun e => by
        rw [(t.inverse x n).2 e] at hx
        exact Option.some_ne_none n hx
      by_cases hns : n = t.values.size
      · simp [hns]
      · simp [hns, hn, Ne.symm hns]
    · by_cases hns : n = t.values.size
      · have hout : t.index[y]? ≠ some n := fun e => by
          have := (t.inverse y n).1 e
          rw [hns, Array.getElem?_size] at this
          exact Option.some_ne_none y this.symm
        have hout' : t.index[y]? ≠ some t.values.size := hns ▸ hout
        simp [hxy, hns, hout']
      · simp [hxy, hns, t.inverse]

/-- The number of a value: its own if it has one, else the next free one. -/
def intern (t : Numbering β) (x : β) : Nat × Numbering β :=
  match h : t.number? x with
  | some n => (n, t)
  | none => (t.size, t.push x h)

/-- A numbering of the values of a list in order, each at its first occurrence (`intern`). -/
def ofList (l : List β) : Numbering β := l.foldl (fun t x => (t.intern x).2) empty

/-- A numbering is determined by the values it lists. -/
theorem ext {s t : Numbering β} (h : s.values = t.values) : s = t := by
  obtain ⟨values, index, inverse⟩ := s
  obtain ⟨values', index', inverse'⟩ := t
  subst h
  have : index = index' := Std.ExtHashMap.ext_getElem? fun x => by
    apply Option.ext
    intro n
    rw [inverse x n, inverse' x n]
  subst this
  rfl

instance : DecidableEq (Numbering β) := fun s t =>
  if h : s.values = t.values then isTrue (ext h) else isFalse fun e => h (by rw [e])

end Numbering

end DurativePlanning
