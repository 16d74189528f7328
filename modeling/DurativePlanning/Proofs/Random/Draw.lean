import DurativePlanning.Proofs.Planner.Choice
import DurativePlanning.Proofs.Rounding
import DurativePlanning.Random.ChaCha

/-!
# The Range of a Draw

A word divided by `2 ^ 64` is below one, but the division is one of doubles, and the word has to
become a double first. Of the words near the top, the last 1024 are rounded up to `2 ^ 64`, so a
number that is drawn lies between zero and one, and it can be one. An index that is drawn lies
below the count all the same, since it is cut off there.

* `value?_unitOf`: the exact value of the number that a word becomes.
* `draw_range`: the ranges of the numbers and of the indices that are drawn, for every word.
* `uniform_ones_eq_one`: a generator in front of a word of ones, which draws one.
-/

namespace DurativePlanning

/-! ### The number of a word -/

/-- The exact value of the number that a word becomes: the nearest whole number that a double can
hold, as a fraction of `2 ^ 64`. -/
def fractionOf (w : UInt64) : ℚ := nearest w.toNat / 2 ^ 64

/-- **The division of doubles is exact**: the value of `unitOf w` is `fractionOf w`; only the word
itself is rounded. -/
theorem value?_unitOf (w : UInt64) : (Binary.ofFloat (unitOf w)).value? = some (fractionOf w) := by
  have hw : w.toNat < 2 ^ 64 := w.toNat_lt
  obtain hzero | hpos := Nat.eq_zero_or_pos w.toNat
  · have hparts : Binary.ofFloat (Float.ofNat 0 / Float.ofNat UInt64.size) =
        .finite false 0 (-1074) := rfl
    change (Binary.ofFloat (Float.ofNat w.toNat / Float.ofNat UInt64.size)).value? = _
    rw [fractionOf, hzero, hparts, nearest_of_lt (by decide)]
    simp [Binary.value?]
  · have hone : (1 : ℚ) ≤ nearest w.toNat := by exact_mod_cast nearest_pos hpos
    have hsize : (nearest w.toNat : ℚ) ≤ 2 ^ 64 := by
      exact_mod_cast nearest_le_two_pow (k := 11) hw
    exact ((normal_ofNat hpos hw.le).div_size hone hsize).pack.value?

theorem fractionOf_nonneg (w : UInt64) : 0 ≤ fractionOf w := by
  rw [fractionOf]
  positivity

theorem fractionOf_le_one (w : UInt64) : fractionOf w ≤ 1 := by
  rw [fractionOf, div_le_one (by positivity)]
  exact_mod_cast nearest_le_two_pow (k := 11) w.toNat_lt

/-- **The last 1024 words** become one: `fractionOf w` is below one exactly for the words before
them. -/
theorem fractionOf_lt_one_iff (w : UInt64) : fractionOf w < 1 ↔ w.toNat < 2 ^ 64 - 1024 := by
  rw [fractionOf, div_lt_one (by positivity), ← nearest_lt_iff w.toNat_lt]
  exact_mod_cast Iff.rfl

/-! ### Draws -/

section Draws

variable {γ : Type} [WordSource γ]

/-- **The range of a draw.** A number is between zero and one, and it is below one unless the word
is one of the last 1024; an index is below the count for every word. -/
theorem draw_range (source : γ) :
    ∃ q : ℚ, (Binary.ofFloat (uniform source).1).value? = some q ∧ 0 ≤ q ∧ q ≤ 1 ∧
      (q < 1 ↔ (WordSource.next source).1.toNat < 2 ^ 64 - 1024) ∧
      ∀ count, 0 < count → (pick Float source count).1 < count := by
  have hvalue : (Binary.ofFloat (uniform source).1).value? =
      some (fractionOf (WordSource.next source).1) := value?_unitOf _
  exact ⟨_, hvalue, fractionOf_nonneg _, fractionOf_le_one _, fractionOf_lt_one_iff _,
    fun count => pick_lt source⟩

end Draws

/-- A generator whose next words are all ones. -/
def ChaCha.ones : ChaCha.Stream := ⟨[], 1, Array.replicate 16 0xffffffff, 0⟩

/-- **A number that is drawn need not be below one.** -/
theorem uniform_ones_eq_one : (Binary.ofFloat (uniform ChaCha.ones).1).value? = some 1 := by
  have hnext : (WordSource.next ChaCha.ones).1.toNat = 2 ^ 64 - 1 := by decide
  have hlast : ¬fractionOf (WordSource.next ChaCha.ones).1 < 1 := by
    rw [fractionOf_lt_one_iff, hnext]
    decide
  have hone : fractionOf (WordSource.next ChaCha.ones).1 = 1 :=
    le_antisymm (fractionOf_le_one _) (not_lt.mp hlast)
  rw [← hone]
  exact value?_unitOf _

end DurativePlanning
