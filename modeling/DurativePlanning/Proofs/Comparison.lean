import DurativePlanning.Proofs.Exact
import Mathlib.Data.Prod.Lex

/-!
# Comparing Numbers

Where the best of several numbers is kept, it matters how numbers are compared, and not whether
operations round. Exact numbers are in a linear order. Doubles nearly are: two zeros are equal, and
there is one that is not at most itself, the undefined one, which is at most none and of which none
is at most. All others have a place in one line.

* `WeaklyOrdered`: numbers in one order, but for those that are not defined; exact numbers and
  doubles are such.
* `le_double_iff`: doubles are compared by their places.
* `le_self_double_iff`: which doubles are defined.
-/

namespace DurativePlanning

/-- Numbers that are **compared in one order**: whenever two of them are defined, one is at most the
other. A number `a` is defined when `a ≤ a`. -/
class WeaklyOrdered (α : Type) [Arithmetic α] : Prop where
  trans {a b c : α} : a ≤ b → b ≤ c → a ≤ c
  total {a b : α} : a ≤ a → b ≤ b → a ≤ b ∨ b ≤ a

/-- Exact numbers are in one order, and all of them are defined. -/
instance weaklyOrdered_exact {K : Type} [Field K] [LinearOrder K] [IsStrictOrderedRing K]
    [FloorSemiring K] : WeaklyOrdered K where
  trans := le_trans
  total _ _ := le_total _ _

/-! ### The places of doubles -/

open Float.Model Float.Model.UnpackedFloat

/-- Whether the parts of a double are those of a number. -/
def isNumber : UnpackedFloat → Bool
  | .notANumber => false
  | _ => true

/-- **The place of a double** among all doubles: by its kind first, then by its exponent, and then
by its mantissa. The place of `notANumber` does not matter. -/
def place : UnpackedFloat → ℤ ×ₗ ℤ ×ₗ ℤ
  | .infinity .negative => toLex (-2, toLex (0, 0))
  | .finite .negative m e _ => toLex (-1, toLex (-e, -m))
  | .zero _ => toLex (0, toLex (0, 0))
  | .finite .positive m e _ => toLex (1, toLex (e, m))
  | .infinity .positive => toLex (2, toLex (0, 0))
  | .notANumber => toLex (3, toLex (0, 0))

section Mantissa

variable (e e' : ℤ) (m m' : ℕ)

/-- Exponents decide, and mantissas decide between equal exponents. -/
theorem isLE_compare_then :
    ((compare e e').then (compare m m')).isLE = true ↔ e < e' ∨ e = e' ∧ m ≤ m' := by
  rcases lt_trichotomy e e' with h | rfl | h
  · simp [compare_lt_iff_lt.mpr h, h]
  · simp [Nat.isLE_compare]
  · simp [compare_gt_iff_gt.mpr h, h.not_gt, h.ne']

/-- Below zero it is the other way round. -/
theorem isGE_compare_then :
    ((compare e e').then (compare m m')).isGE = true ↔ e' < e ∨ e = e' ∧ m' ≤ m := by
  rcases lt_trichotomy e e' with h | rfl | h
  · simp [compare_lt_iff_lt.mpr h, h.not_gt, h.ne]
  · simp [Nat.isGE_compare]
  · simp [compare_gt_iff_gt.mpr h, h]

end Mantissa

/-- **Doubles are compared by their places**: `UnpackedFloat.le` holds of two numbers whose `place`s
are in order, and of nothing else. -/
theorem le_unpacked_iff (a b : UnpackedFloat) :
    a.le b = true ↔ isNumber a = true ∧ isNumber b = true ∧ place a ≤ place b := by
  -- two doubles of different kinds are told apart by their kinds
  rcases a with (_ | _) | _ | _ | ⟨_ | _, m, e, _⟩ <;>
    rcases b with (_ | _) | _ | _ | ⟨_ | _, m', e', _⟩ <;>
    dsimp only [UnpackedFloat.le, UnpackedFloat.compare, isNumber, place] <;>
    simp [Prod.Lex.toLex_le_toLex, isLE_compare_then, isGE_compare_then]
  all_goals rfl

section Double

variable {x y : Float}

/-- `Float.isNaN` is false exactly for the doubles whose parts are those of a number. -/
theorem isNaN_eq_false_iff : x.isNaN = false ↔ isNumber x.toModel.unpack = true := by
  change x.toModel.unpack.isNaN = false ↔ isNumber x.toModel.unpack = true
  cases x.toModel.unpack with
  | notANumber => exact iff_of_false (Ne.symm Bool.false_ne_true) Bool.false_ne_true
  | infinity | zero | finite => exact iff_of_true rfl rfl

/-- `x ≤ y` on doubles: neither is `NaN`, and the `place` of `x` is at most that of `y`. -/
theorem le_double_iff : x ≤ y ↔ x.isNaN = false ∧ y.isNaN = false ∧
    place x.toModel.unpack ≤ place y.toModel.unpack := by
  rw [isNaN_eq_false_iff, isNaN_eq_false_iff, ← le_unpacked_iff]
  exact decide_eq_true_iff (p := x.toModel ≤ y.toModel)

/-- **Which doubles are defined**: `x ≤ x` fails for `NaN` alone. -/
theorem le_self_double_iff : x ≤ x ↔ x.isNaN = false := by
  simp [le_double_iff]

end Double

/-- **Doubles are in one order**, but for the undefined one. -/
instance weaklyOrdered_doubles : WeaklyOrdered Float where
  trans {a b c} hab hbc := by
    obtain ⟨ha, -, hab⟩ := le_double_iff.mp hab
    obtain ⟨-, hc, hbc⟩ := le_double_iff.mp hbc
    exact le_double_iff.mpr ⟨ha, hc, hab.trans hbc⟩
  total {a b} ha hb := by
    have ha := le_self_double_iff.mp ha
    have hb := le_self_double_iff.mp hb
    exact (le_total (place a.toModel.unpack) (place b.toModel.unpack)).imp
      (fun h => le_double_iff.mpr ⟨ha, hb, h⟩) fun h => le_double_iff.mpr ⟨hb, ha, h⟩

end DurativePlanning
