import DurativePlanning.Proofs.Seconds
import DurativePlanning.Proofs.Signs
import Mathlib.Algebra.Order.Field.Rat
import Mathlib.Tactic.FieldSimp
import Mathlib.Tactic.NormNum
import Mathlib.Tactic.Positivity
import Mathlib.Tactic.Ring

/-!
# Whole Numbers as Doubles

A whole number of more than fifty-three bits is rounded when it becomes a double. What comes out is
the whole number `nearest` to it, and that is found by a division, so statements about doubles made
of counts become statements about whole numbers.

* `roundedMantissa_shiftRight`: the bits that are cut off decide as the rest of a division does.
* `Normal`: the parts of a positive double that uses all of its bits, with its exact value.
* `Normal.roundWithAccuracy`: rounding gives the nearest whole number.
* `normal_ofNat`: the double of a count up to `2 ^ 64`.
* `nearest_lt_iff`: which words of sixty-four bits are rounded up to `2 ^ 64`.
-/

namespace DurativePlanning

open Float.Model Float.Model.UnpackedFloat

/-! ### Rounding whole numbers -/

/-- `roundDiv` is at least rounding down. -/
theorem le_roundDiv (tie : Tie) (n d : ℕ) : n / d ≤ roundDiv tie n d := by
  rw [roundDiv]
  split
  · exact Nat.le_refl _
  · split
    · exact Nat.le_succ _
    · cases tie with
      | even => exact Nat.le_add_right _ _
      | up => exact Nat.le_succ _

/-- `roundDiv` does not change when both of its parts are multiplied by one number. -/
theorem roundDiv_mul_right (tie : Tie) (n d : ℕ) {c : ℕ} (hc : 0 < c) :
    roundDiv tie (n * c) (d * c) = roundDiv tie n d := by
  have hrest : 2 * (n % d * c) = 2 * (n % d) * c := (Nat.mul_assoc _ _ _).symm
  simp only [roundDiv, Nat.mul_div_mul_right n d hc, Nat.mul_mod_mul_right, hrest,
    Nat.mul_lt_mul_right hc]

/-- `roundDiv` divides a multiple without rest. -/
theorem roundDiv_mul_left (tie : Tie) (n : ℕ) {d : ℕ} (hd : 0 < d) :
    roundDiv tie (n * d) d = n := by
  have h := roundDiv_mul_right tie n 1 hd
  rwa [Nat.one_mul, roundDiv_one] at h

/-- The number of bits of a whole number beyond the `53` that a double has. -/
def excess (n : ℕ) : ℕ := n.log2 - 52

/-- **The whole number nearest to a given one** among those that have fifty-three bits followed by
zeros; of two equally near ones the one that ends in more zeros. -/
def nearest (n : ℕ) : ℕ := roundDiv .even n (2 ^ excess n) * 2 ^ excess n

/-- Below `2 ^ 53` no bits are beyond those of a double. -/
theorem excess_of_lt {n : ℕ} (h : n < 2 ^ 53) : excess n = 0 := by
  by_cases hn : n = 0
  · simp [excess, hn]
  · have := (Nat.log2_lt hn).mpr h
    rw [excess]
    omega

/-- Nothing is rounded where only zeros are cut off. -/
theorem nearest_mul_of_excess_le {n j : ℕ} (h : excess (n * 2 ^ j) ≤ j) :
    nearest (n * 2 ^ j) = n * 2 ^ j := by
  have hsplit : n * 2 ^ j = n * 2 ^ (j - excess (n * 2 ^ j)) * 2 ^ excess (n * 2 ^ j) := by
    rw [Nat.mul_assoc, ← Nat.pow_add, Nat.sub_add_cancel h]
  rw [nearest]
  generalize excess (n * 2 ^ j) = k at hsplit
  rw [hsplit, roundDiv_mul_left _ _ (Nat.two_pow_pos k)]

/-- Below `2 ^ 53` nothing is rounded. -/
theorem nearest_of_lt {n : ℕ} (h : n < 2 ^ 53) : nearest n = n := by
  rw [nearest, excess_of_lt h, Nat.pow_zero, roundDiv_one, Nat.mul_one]

/-- Zeros at the end add to the binary logarithm. -/
theorem log2_mul_two_pow {n : ℕ} (hn : n ≠ 0) (j : ℕ) : (n * 2 ^ j).log2 = n.log2 + j := by
  have hpos : 0 < 2 ^ j := Nat.two_pow_pos j
  rw [Nat.log2_eq_iff (Nat.mul_ne_zero hn hpos.ne')]
  constructor
  · rw [Nat.pow_add]
    exact Nat.mul_le_mul_right _ (Nat.log2_self_le hn)
  · rw [Nat.add_right_comm, Nat.pow_add]
    exact Nat.mul_lt_mul_of_pos_right Nat.lt_log2_self hpos

/-- **Zeros at the end do not count**: `nearest` commutes with multiplying by a power of two. -/
theorem nearest_mul_two_pow {n : ℕ} (hn : n ≠ 0) (j : ℕ) :
    nearest (n * 2 ^ j) = nearest n * 2 ^ j := by
  have hlog := log2_mul_two_pow hn j
  by_cases hsmall : n < 2 ^ 53
  · have hbits := (Nat.log2_lt hn).mpr hsmall
    rw [nearest_of_lt hsmall, nearest_mul_of_excess_le]
    rw [excess, hlog]
    omega
  · have hbits := (Nat.le_log2 hn).mpr (Nat.not_lt.mp hsmall)
    have hexcess : excess (n * 2 ^ j) = excess n + j := by
      rw [excess, excess, hlog]
      omega
    rw [nearest, nearest, hexcess, Nat.pow_add, roundDiv_mul_right _ _ _ (Nat.two_pow_pos j),
      Nat.mul_assoc]

/-! ### Cutting off bits -/

section Shift

open ExtendedMantissa

/-- What is left after some bits are cut off: the last of them, and whether one of the others
was set. -/
theorem shiftRight_exact (m k : ℕ) :
    ofMantissaAndAccuracy m .exact >>> (k + 1) =
      ⟨m / 2 ^ (k + 1), m / 2 ^ k % 2 != 0, m % 2 ^ k != 0⟩ := by
  induction k with
  | zero =>
      rw [Nat.pow_zero, Nat.mod_one, Nat.div_one]
      rfl
  | succ k ih =>
      have hstep : ofMantissaAndAccuracy m .exact >>> (k + 1 + 1) =
          (ofMantissaAndAccuracy m .exact >>> (k + 1)).shiftRightOne := rfl
      have hrest : m % 2 ^ (k + 1) = m % 2 ^ k + 2 ^ k * (m / 2 ^ k % 2) := Nat.mod_pow_succ
      have hsticky : (m / 2 ^ k % 2 != 0 || m % 2 ^ k != 0) = (m % 2 ^ (k + 1) != 0) := by
        have hpos := Nat.two_pow_pos k
        rw [hrest, Bool.eq_iff_iff]
        simp
        tauto
      rw [hstep, ih, shiftRightOne, hsticky, Nat.div_div_eq_div_mul, ← Nat.pow_succ]

/-- **The bits cut off decide the rounding** just as the rest of a division does: `roundedMantissa`
of a mantissa moved to the right is `roundDiv`. -/
theorem roundedMantissa_shiftRight (m k : ℕ) :
    (ofMantissaAndAccuracy m .exact >>> k).roundedMantissa = roundDiv .even m (2 ^ k) := by
  cases k with
  | zero =>
      rw [Nat.pow_zero, roundDiv_one]
      rfl
  | succ k =>
      have hrest : m % 2 ^ (k + 1) = m % 2 ^ k + 2 ^ k * (m / 2 ^ k % 2) := Nat.mod_pow_succ
      have hlow : m % 2 ^ k < 2 ^ k := Nat.mod_lt _ (Nat.two_pow_pos k)
      have hpow : 2 ^ (k + 1) = 2 * 2 ^ k := Nat.pow_succ'
      rw [shiftRight_exact, roundDiv, hrest]
      generalize m / 2 ^ (k + 1) = quotient
      generalize m % 2 ^ k = low at hlow
      obtain hbit | hbit := Nat.mod_two_eq_zero_or_one (m / 2 ^ k)
      · -- less than a half is cut off
        rw [hbit, if_pos (by omega)]
        by_cases hzero : low = 0
        · rw [hzero]
          rfl
        · rw [bne_iff_ne.mpr hzero]
          rfl
      · rw [hbit, if_neg (by omega)]
        by_cases hzero : low = 0
        · rw [hzero, if_neg (by omega)]
          rfl
        · rw [bne_iff_ne.mpr hzero, if_pos (by omega)]
          rfl

end Shift

/-! ### Sixty-four bits -/

/-- Fifty-three bits are left, or just one more than they can hold. -/
theorem roundDiv_excess_mem {m : ℕ} (hm : 2 ^ 52 ≤ m) :
    2 ^ 52 ≤ roundDiv .even m (2 ^ excess m) ∧ roundDiv .even m (2 ^ excess m) ≤ 2 ^ 53 := by
  have hne : m ≠ 0 := by omega
  have hpos := Nat.two_pow_pos (excess m)
  have hlog : m.log2 = 52 + excess m := by
    have : 52 ≤ m.log2 := (Nat.le_log2 hne).mpr hm
    rw [excess]
    omega
  have hlow : 2 ^ 52 * 2 ^ excess m ≤ m := by
    rw [← Nat.pow_add, ← hlog]
    exact Nat.log2_self_le hne
  have hhigh : m < 2 ^ 53 * 2 ^ excess m := by
    have : 53 + excess m = m.log2 + 1 := by omega
    rw [← Nat.pow_add, this]
    exact Nat.lt_log2_self
  constructor
  · exact ((Nat.le_div_iff_mul_le hpos).mpr hlow).trans (le_roundDiv _ _ _)
  · exact (roundDiv_le _ _ _).trans ((Nat.div_lt_iff_lt_mul hpos).mpr hhigh)

/-- What is positive is not rounded to zero. -/
theorem nearest_pos {n : ℕ} (hn : 0 < n) : 0 < nearest n := by
  by_cases hlow : n < 2 ^ 52
  · rwa [nearest_of_lt (by omega)]
  · obtain ⟨hfull, -⟩ := roundDiv_excess_mem (Nat.not_lt.mp hlow)
    exact Nat.mul_pos (by omega) (Nat.two_pow_pos _)

/-- `nearest` does not lead beyond a power of two. -/
theorem nearest_le_two_pow {n k : ℕ} (h : n < 2 ^ (53 + k)) : nearest n ≤ 2 ^ (53 + k) := by
  by_cases hlow : n < 2 ^ 52
  · rw [nearest_of_lt (by omega)]
    exact h.le
  · have hlog : n.log2 < 53 + k := (Nat.log2_lt (by omega)).mpr h
    have hexcess : excess n ≤ k := by
      rw [excess]
      omega
    rw [nearest, Nat.pow_add]
    exact Nat.mul_le_mul (roundDiv_excess_mem (Nat.not_lt.mp hlow)).2
      (Nat.pow_le_pow_right Nat.two_pos hexcess)

/-- **The words that are rounded up to `2 ^ 64`** are the last 1024. -/
theorem nearest_lt_iff {n : ℕ} (h : n < 2 ^ 64) : nearest n < 2 ^ 64 ↔ n < 2 ^ 64 - 1024 := by
  by_cases hhalf : n < 2 ^ 63
  · have hle : nearest n ≤ 2 ^ 63 := nearest_le_two_pow (k := 10) hhalf
    omega
  · have hlog : n.log2 = 63 := (Nat.log2_eq_iff (by omega)).mpr ⟨by omega, h⟩
    have hexcess : excess n = 11 := by rw [excess, hlog]
    rw [nearest, hexcess, roundDiv]
    -- the quotient is below its greatest value, or only the rest decides
    split
    · omega
    · split
      · omega
      · rw [Tie.resolve]
        omega

/-! ### Normal doubles -/

/-- The exact value of a double; one that is infinite or undefined has none. -/
def Binary.value? : Binary → Option ℚ
  | .finite negative m e => some ((if negative then -1 else 1) * (m * 2 ^ e))
  | .infinite _ | .undefined => none

/-- The parts of a **positive normal double**, one that uses all of its fifty-three bits, and its
exact value. -/
inductive Normal : UnpackedFloat → ℚ → Prop
  | intro {m : ℕ} {e : ℤ} (hm : 0 < m) (hlow : 2 ^ 52 ≤ m) (hhigh : m < 2 ^ 53)
      (hleast : -1074 ≤ e) (hgreatest : e ≤ 971) : Normal (.finite .positive m e hm) (m * 2 ^ e)

/-- The shift of `shiftToTargetExponent` cuts off the `excess` bits, unless the least exponent
`-1074` asks for more. -/
theorem shiftToTargetExponent_exact {m : ℕ} {e : ℤ} (hm : 2 ^ 52 ≤ m)
    (he : -1074 ≤ e + excess m) :
    shiftToTargetExponent .binary64 m e .exact =
      (ExtendedMantissa.ofMantissaAndAccuracy m .exact >>> excess m, e + excess m) := by
  have hlog : 52 ≤ m.log2 := (Nat.le_log2 (by omega)).mpr hm
  have hbits : Format.binary64.mantissaBits = 53 := rfl
  have hleast : Format.binary64.minExponent = -1074 := rfl
  rw [excess] at he
  have hamount : (Format.binary64.targetExponent (totalExponent m e) - e).toNat = excess m := by
    rw [Format.targetExponent, totalExponent, hbits, hleast, excess]
    omega
  unfold shiftToTargetExponent shiftToExponent
  dsimp only
  rw [hamount]

/-- **What rounding leaves** of a mantissa with at least fifty-three bits: those that `roundDiv`
keeps, and where they have become one bit more, that bit is a zero and is cut off again. -/
theorem roundWithAccuracy_exact {m : ℕ} {e : ℤ} (hm : 2 ^ 52 ≤ m) (he : -1074 ≤ e + excess m) :
    ∃ (r j : ℕ) (hr : 0 < r),
      UnpackedFloat.roundWithAccuracy .binary64 .positive m e .exact =
        .finite .positive r (e + excess m + j) hr ∧
      2 ^ 52 ≤ r ∧ r < 2 ^ 53 ∧ j ≤ 1 ∧ r * 2 ^ j = roundDiv .even m (2 ^ excess m) := by
  obtain ⟨hlow, hhigh⟩ := roundDiv_excess_mem hm
  unfold UnpackedFloat.roundWithAccuracy
  rw [shiftToTargetExponent_exact hm he]
  dsimp only
  rw [roundedMantissa_shiftRight, shiftToTargetExponent_exact hlow (by omega)]
  dsimp only
  generalize roundDiv .even m (2 ^ excess m) = rounded at hlow hhigh
  obtain hlt | rfl := Nat.lt_or_eq_of_le hhigh
  · refine ⟨rounded, 0, by omega, ?_, hlow, hlt, Nat.zero_le 1, Nat.mul_one _⟩
    have hne : ¬rounded = 0 := by omega
    rw [excess_of_lt hlt]
    exact dif_neg hne
  · have hexcess : excess (2 ^ 53) = 1 := by rw [excess, Nat.log2_two_pow]
    refine ⟨2 ^ 52, 1, by decide, ?_, le_rfl, by decide, le_rfl, by decide⟩
    rw [hexcess]
    exact dif_neg (by decide)

namespace Normal

/-- **Rounding to nearest**: `UnpackedFloat.roundWithAccuracy` gives a normal double whose value is
that of `nearest`. -/
theorem roundWithAccuracy {m : ℕ} {e : ℤ} (hm : 2 ^ 52 ≤ m) (he : -1074 ≤ e)
    (hlarge : m.log2 + e ≤ 1022) :
    Normal (UnpackedFloat.roundWithAccuracy .binary64 .positive m e .exact)
      (nearest m * 2 ^ e) := by
  obtain ⟨r, j, hr, hround, hlow, hhigh, hj, hkept⟩ :=
    roundWithAccuracy_exact (e := e) hm (by omega)
  have hgreatest : e + excess m ≤ 970 := by
    have : 52 ≤ m.log2 := (Nat.le_log2 (by omega)).mpr hm
    rw [excess]
    omega
  have hvalue : (nearest m * 2 ^ e : ℚ) = r * 2 ^ (e + excess m + j) := by
    rw [nearest, ← hkept, zpow_add₀ two_ne_zero, zpow_add₀ two_ne_zero, zpow_natCast, zpow_natCast]
    push_cast
    ring
  rw [hround, hvalue]
  exact intro hr hlow hhigh (by omega) (by omega)

/-- The leading one of fifty-three bits is left out when they are stored, and put back. -/
theorem toNat_one_append {m : ℕ} (hlow : 2 ^ 52 ≤ m) (hhigh : m < 2 ^ 53) :
    (1#1 ++ BitVec.ofNat 52 m).toNat = m := by
  have hlead : (1#1).toNat <<< 52 = 2 ^ 52 := rfl
  rw [BitVec.toNat_append, ← Nat.shiftLeft_add_eq_or_of_lt (BitVec.isLt _), hlead,
    BitVec.toNat_ofNat]
  omega

theorem finite_congr {s s' : Sign} {m m' : ℕ} {e e' : ℤ} {hm : 0 < m} {hm' : 0 < m'} (hs : s = s')
    (hmantissa : m = m') (he : e = e') :
    UnpackedFloat.finite s m e hm = .finite s' m' e' hm' := by
  subst hs hmantissa he
  rfl

/-- **A normal double is read back from its bits**: `unpack` is inverse to `pack`. -/
theorem unpack_pack {u : UnpackedFloat} {q : ℚ} (h : Normal u q) : (pack u).unpack = u := by
  obtain @⟨m, e, hm, hlow, hhigh, hleast, hgreatest⟩ := h
  have hlog : m.log2 + 1 = Format.binary64.mantissaBits := by
    rw [(Nat.log2_eq_iff hm.ne').mpr ⟨hlow, hhigh⟩]
    rfl
  have hfield : (BitVec.ofNat 11 (e + 1023 + 52).toNat).toNat = (e + 1023 + 52).toNat := by
    rw [BitVec.toNat_ofNat, Nat.mod_eq_of_lt (by omega)]
  have hones : BitVec.ofNat 11 (e + 1023 + 52).toNat ≠ -1#_ := fun h => by
    have hmax : (-1#11).toNat = 2047 := rfl
    have := congrArg BitVec.toNat h
    omega
  have hzero : BitVec.ofNat 11 (e + 1023 + 52).toNat ≠ 0#_ := fun h => by
    have hmin : (0#11).toNat = 0 := rfl
    have := congrArg BitVec.toNat h
    omega
  have hpack : UnpackedFloat.pack .binary64 (.finite .positive m e hm) =
      if 2 ^ 11 ≤ (e + 1023 + 52).toNat + 1 then packedInfinity .binary64 .positive
      else if m.log2 + 1 = Format.binary64.mantissaBits then
        packComponents .binary64 .positive (BitVec.ofNat 11 (e + 1023 + 52).toNat)
          (BitVec.ofNat 52 m)
      else packComponents .binary64 .positive 0#11 (BitVec.ofNat 52 m) := rfl
  rw [if_neg (by omega), if_pos hlog] at hpack
  change UnpackedFloat.unpack .binary64 (UnpackedFloat.pack .binary64 _) = _
  rw [hpack]
  generalize hu : UnpackedFloat.finite .positive m e hm = u
  unfold UnpackedFloat.unpack
  dsimp only
  rw [unpackExponent_packComponents, if_neg hones, if_neg hzero, ← hu]
  refine finite_congr ?_ ?_ ?_
  · rw [unpackSign_packComponents]
    rfl
  · rw [unpackMantissa_packComponents]
    exact toNat_one_append hlow hhigh
  · rw [hfield]
    change ((e + 1023 + 52).toNat : ℤ) - (1023 + 52) = e
    omega

/-- A normal double stays one, with its value, when it is stored in bits. -/
protected theorem pack {u : UnpackedFloat} {q : ℚ} (h : Normal u q) :
    Normal (Float.Model.pack u).unpack q := by
  rwa [h.unpack_pack]

/-- The exact value of a normal double is the one that it is normal with. -/
theorem value? {x : Float} {q : ℚ} (h : Normal x.toModel.unpack q) :
    (Binary.ofFloat x).value? = some q := by
  rw [Binary.ofFloat_eq]
  generalize x.toModel.unpack = u at h
  cases h with
  | intro => exact congrArg some (one_mul _)

/-- A value from one to `2 ^ 64` bounds the exponent. -/
theorem exponent_mem {s : Sign} {m : ℕ} {e : ℤ} {hm : 0 < m} {q : ℚ}
    (h : Normal (.finite s m e hm) q) (hone : 1 ≤ q) (hsize : q ≤ 2 ^ 64) :
    -52 ≤ e ∧ e ≤ 12 := by
  cases h with
  | intro _ hlow hhigh =>
      have hlow' : (2 ^ 52 : ℚ) ≤ m := by exact_mod_cast hlow
      have hhigh' : (m : ℚ) < 2 ^ 53 := by exact_mod_cast hhigh
      constructor
      · by_contra hsmall
        have hpow : (2 : ℚ) ^ e ≤ 2 ^ (-53 : ℤ) := zpow_le_zpow_right₀ one_le_two (by omega)
        have hlt : (m * 2 ^ e : ℚ) < 2 ^ 53 * 2 ^ (-53 : ℤ) :=
          mul_lt_mul_of_lt_of_le_of_nonneg_of_pos hhigh' hpow (by positivity) (by positivity)
        norm_num at hlt
        exact absurd hone (not_le.mpr hlt)
      · by_contra hgreat
        have hpow : (2 : ℚ) ^ (13 : ℤ) ≤ 2 ^ e := zpow_le_zpow_right₀ one_le_two (by omega)
        have hle : (2 ^ 52 * 2 ^ (13 : ℤ) : ℚ) ≤ m * 2 ^ e :=
          mul_le_mul hlow' hpow (by positivity) (by positivity)
        exact absurd (hle.trans hsize) (by norm_num)

/-- Whole numbers are moved to the left until they have fifty-three bits, and then rounded. -/
theorem round {n : ℕ} (hn : 0 < n) (hsize : n ≤ 2 ^ 64) :
    Normal (UnpackedFloat.round .binary64 .positive n 0) (nearest n) := by
  have hlog : n.log2 ≤ 64 := Nat.lt_succ_iff.mp ((Nat.log2_lt hn.ne').mpr (by omega))
  have hbits : Format.binary64.mantissaBits = 53 := rfl
  have hleast : Format.binary64.minExponent = -1074 := rfl
  have hamount : (0 - Format.binary64.targetExponent (totalExponent n 0)).toNat =
      52 - n.log2 := by
    rw [Format.targetExponent, totalExponent, hbits, hleast]
    omega
  have hmoved := log2_mul_two_pow hn.ne' (52 - n.log2)
  have hfull : 2 ^ 52 ≤ n * 2 ^ (52 - n.log2) :=
    (Nat.le_log2 (Nat.mul_ne_zero hn.ne' (Nat.two_pow_pos _).ne')).mp (by omega)
  have h := roundWithAccuracy (e := 0 - (52 - n.log2 : ℕ)) hfull (by omega) (by omega)
  have hvalue : (nearest (n * 2 ^ (52 - n.log2)) * 2 ^ (0 - (52 - n.log2 : ℕ) : ℤ) : ℚ) =
      nearest n := by
    rw [nearest_mul_two_pow hn.ne', zero_sub, zpow_neg, zpow_natCast]
    push_cast
    field_simp
  rw [hvalue] at h
  unfold UnpackedFloat.round decreaseExponent
  dsimp only
  rwa [hamount, Nat.shiftLeft_eq]

/-- Fifty-three bits and some zeros are not rounded. -/
theorem roundWithAccuracy_mul_two_pow {m : ℕ} {e : ℤ} (hlow : 2 ^ 52 ≤ m) (hhigh : m < 2 ^ 53)
    (j : ℕ) (hleast : -1074 ≤ e) (hgreatest : j + e ≤ 970) :
    Normal (UnpackedFloat.roundWithAccuracy .binary64 .positive (m * 2 ^ j) e .exact)
      (m * 2 ^ (e + j)) := by
  have hne : m ≠ 0 := by omega
  have hlog : m.log2 = 52 := (Nat.log2_eq_iff hne).mpr ⟨hlow, hhigh⟩
  have h := roundWithAccuracy (e := e) (hlow.trans (Nat.le_mul_of_pos_right m (Nat.two_pow_pos j)))
    hleast (by rw [log2_mul_two_pow hne]; omega)
  have hvalue : (nearest (m * 2 ^ j) * 2 ^ e : ℚ) = m * 2 ^ (e + j) := by
    rw [nearest_mul_two_pow hne, nearest_of_lt hhigh, zpow_add₀ two_ne_zero, zpow_natCast]
    push_cast
    ring
  rwa [hvalue] at h

/-- `UnpackedFloat.mul` by one changes nothing. -/
theorem mul_one {u : UnpackedFloat} {q : ℚ} (h : Normal u q) (hone : 1 ≤ q) (hsize : q ≤ 2 ^ 64) :
    Normal (u.mul .binary64 (.finite .positive (2 ^ 52) (-52) (by decide))) q := by
  obtain @⟨m, e, hm, hlow, hhigh, hleast, hgreatest⟩ := h
  obtain ⟨hmin, hmax⟩ := exponent_mem (intro hm hlow hhigh hleast hgreatest) hone hsize
  have h := roundWithAccuracy_mul_two_pow (e := e + -52) hlow hhigh 52 (by omega) (by omega)
  have hexponent : e + -52 + (52 : ℕ) = e := by omega
  rwa [hexponent] at h

/-- Dividing by `2 ^ 64` changes the exponent only. -/
theorem div_size {u : UnpackedFloat} {q : ℚ} (h : Normal u q) (hone : 1 ≤ q)
    (hsize : q ≤ 2 ^ 64) :
    Normal (u.div .binary64 (.finite .positive (2 ^ 52) 12 (by decide))) (q / 2 ^ 64) := by
  obtain @⟨m, e, hm, hlow, hhigh, hleast, hgreatest⟩ := h
  obtain ⟨hmin, hmax⟩ := exponent_mem (intro hm hlow hhigh hleast hgreatest) hone hsize
  have hcore : divCore .binary64 m e (2 ^ 52) 12 = (m * 2 ^ 1, e - 65, .exact) := by
    have hlog : m.log2 = 52 := (Nat.log2_eq_iff hm.ne').mpr ⟨hlow, hhigh⟩
    have hbits : Format.binary64.mantissaBits = 53 := rfl
    have hleast : Format.binary64.minExponent = -1074 := rfl
    have htarget : min (e - 12) (Format.binary64.targetExponent
        (totalExponent m e - totalExponent (2 ^ 52) 12)) = e - 65 := by
      rw [Format.targetExponent, totalExponent, totalExponent, Nat.log2_two_pow, hlog, hbits,
        hleast]
      omega
    have hamount : (e - 12 - (e - 65)).toNat = 53 := by omega
    have hmoved : m <<< 53 = m * 2 ^ 1 * 2 ^ 52 := by
      rw [Nat.shiftLeft_eq, Nat.mul_assoc, ← Nat.pow_add]
    unfold divCore
    dsimp only
    rw [htarget, hamount, hmoved, Nat.mul_div_cancel _ (by decide), Nat.mul_mod_left]
    rfl
  have h := roundWithAccuracy_mul_two_pow (e := e - 65) hlow hhigh 1 (by omega) (by omega)
  have hvalue : (m * 2 ^ (e - 65 + (1 : ℕ)) : ℚ) = m * 2 ^ e / 2 ^ 64 := by
    have hexponent : e - 65 + (1 : ℕ) = e + -64 := by omega
    rw [hexponent, zpow_add₀ two_ne_zero]
    norm_num
    ring
  rw [hvalue] at h
  unfold UnpackedFloat.div
  dsimp only
  rw [hcore]
  exact h

end Normal

/-! ### Counts -/

/-- `UInt64.toFloat` converts a word by rounding it. -/
theorem normal_toFloat {n : ℕ} (hn : 0 < n) (hsize : n < 2 ^ 64) :
    Normal n.toUInt64.toFloat.toModel.unpack (nearest n) := by
  have hword : n.toUInt64.toNat = n := Nat.mod_eq_of_lt hsize
  have hcompare : compare (n : ℤ) 0 = .gt := compare_gt_iff_gt.mpr (by omega)
  have hround : UnpackedFloat.ofUInt64 .binary64 n.toUInt64 =
      UnpackedFloat.round .binary64 .positive n 0 := by
    rw [UnpackedFloat.ofUInt64, UnpackedFloat.ofNat, UnpackedFloat.ofInt,
      UnpackedFloat.normalize, hword, hcompare]
    rfl
  have h := (Normal.round hn hsize.le).pack
  rwa [← hround] at h

/-- A whole number in decimal notation is moved to the left, multiplied by one, and rounded. -/
theorem normal_ofScientific {n : ℕ} (hn : 0 < n) (hsize : n ≤ 2 ^ 64) :
    Normal (UnpackedFloat.ofScientific .binary64 n 0) (nearest n) := by
  have hlog : n.log2 ≤ 64 := Nat.lt_succ_iff.mp ((Nat.log2_lt hn.ne').mpr (by omega))
  have hrange : (0 : ℤ) ≤ 2 ^ Format.binary64.exponentBits := by decide
  have h := Normal.roundWithAccuracy (m := n * 2 ^ 53) (e := -53) (by omega) (by omega)
    (by rw [log2_mul_two_pow hn.ne']; omega)
  have hvalue : (nearest (n * 2 ^ 53) * 2 ^ (-53 : ℤ) : ℚ) = nearest n := by
    rw [nearest_mul_two_pow hn.ne', Nat.cast_mul, mul_assoc]
    norm_num
  rw [hvalue] at h
  have hmantissa : n <<< Format.binary64.mantissaBits * 10 ^ (0 : ℤ).toNat = n * 2 ^ 53 := by
    rw [Nat.shiftLeft_eq]
    exact Nat.mul_one _
  unfold UnpackedFloat.ofScientific
  rw [dif_neg hn.ne', if_neg (by decide), if_neg (by omega), if_pos (by decide)]
  unfold UnpackedFloat.mul
  dsimp only
  rw [hmantissa]
  exact h

/-- **A count becomes the double nearest to it**: `Float.ofNat` is normal with the value of
`nearest`. -/
theorem normal_ofNat {n : ℕ} (hn : 0 < n) (hsize : n ≤ 2 ^ 64) :
    Normal (Float.ofNat n).toModel.unpack (nearest n) := by
  change Normal (Float.ofScientific n false 0).toModel.unpack _
  unfold Float.ofScientific
  -- a small count is converted by itself, a great one as a decimal number
  split
  · next hsmall =>
    have hcount := normal_toFloat hn (by omega)
    rw [nearest_of_lt hsmall.1] at hcount ⊢
    have hone : (1.0 : Float).toModel.unpack = .finite .positive (2 ^ 52) (-52) (by decide) := rfl
    have h := (hcount.mul_one (by exact_mod_cast hn) (by exact_mod_cast hsize)).pack
    rw [← hone] at h
    exact h
  · exact (normal_ofScientific hn hsize).pack

end DurativePlanning
