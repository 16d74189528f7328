import DurativePlanning.Arithmetic

/-!
# Drawing Numbers

Everything random comes from a source of sixty-four bit words. A word, read as a fraction of
`2 ^ 64`, is a number between zero and one; scaled by a count it picks an index below the count.

* `WordSource`, `SeededSource`: where words come from.
* `uniform`, `pick`: a number, and an index, from the next word.
-/

namespace DurativePlanning

/-- A state from which words can be taken, one after the other. -/
class WordSource (γ : Type) where
  next : γ → UInt64 × γ

/-- A `WordSource` that begins anew from a seed. -/
class SeededSource (γ : Type) extends WordSource γ where
  ofSeed : UInt64 → γ

variable {α γ : Type} [Arithmetic α] [WordSource γ]

/-- A word as a fraction of `2 ^ 64`. -/
def unitOf (w : UInt64) : α := Arithmetic.ofNat w.toNat / Arithmetic.ofNat UInt64.size

/-- The index below `count` at which a number between zero and one points. -/
def indexAt (u : α) (count : Nat) : Nat :=
  min (Arithmetic.truncate (u * Arithmetic.ofNat count)) (count - 1)

/-- A number between zero and one, made of the next word by `unitOf`. -/
def uniform (source : γ) : α × γ :=
  let (w, source) := WordSource.next source
  (unitOf w, source)

variable (α) in
/-- An index below `count`, computed with the numbers `α`. -/
def pick (source : γ) (count : Nat) : Nat × γ :=
  let (u, source) := uniform (α := α) source
  (indexAt u count, source)

end DurativePlanning
