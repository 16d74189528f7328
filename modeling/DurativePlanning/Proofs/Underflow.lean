import DurativePlanning.Proofs.Rounding

/-!
# Doubles That Stay Positive

A sum of positive doubles is positive, since no place is lower in it than in its parts. A product of
positive doubles need not be: one below `2 ^ -1075` is rounded to zero. As long as the exact product
is at least `2 ^ -1022`, the least normal double, that does not happen, and then rounding leaves the
leading bit where it is.

* `PositiveParts`, `zero_lt_double_iff`: the parts of a double that is greater than zero.
* `InRange`: parts that are packed without becoming a zero.
* `add_pos_double`: a sum of positive doubles is positive.
* `AtLeastPower`: the parts of a double that is at least `2 ^ -k`.
* `atLeastPower_mul`: the bounds of factors multiply, as long as the product is not too small.
* `atLeastPower_of_value?`: the exact value of a double says whether it is at least `2 ^ -k`.
-/

namespace DurativePlanning

open Float.Model Float.Model.UnpackedFloat

/-! ### Positive parts -/

/-- The parts of a double that is **greater than zero**. -/
inductive PositiveParts : UnpackedFloat → Prop
  | infinite : PositiveParts (.infinity .positive)
  | finite (m : ℕ) (e : ℤ) (hm : 0 < m) : PositiveParts (.finite .positive m e hm)

/-- `0 < x` is decided by the parts of `x`. -/
theorem zero_lt_double_iff {x : Float} : 0 < x ↔ PositiveParts x.toModel.unpack := by
  have hlt : 0 < x ↔ (UnpackedFloat.zero .positive).lt x.toModel.unpack = true :=
    decide_eq_true_iff (p := (0 : Float).toModel < x.toModel)
  rw [hlt]
  generalize x.toModel.unpack = u
  constructor
  · intro h
    rcases u with (_ | _) | _ | sign | ⟨_ | _, m, e, hm⟩
    · exact absurd h (by decide)
    · exact .infinite
    · exact absurd h (by decide)
    · exact absurd h Bool.false_ne_true
    · exact absurd h Bool.false_ne_true
    · exact .finite m e hm
  · rintro (_ | ⟨m, e, hm⟩) <;> rfl

/-- Bits of a positive sign, of which the exponent or the mantissa is not all zeros, are those of a
positive double. -/
theorem positiveParts_unpack {bits : BitVec Format.binary64.numBits}
    (hsign : unpackSign bits = 0#1) (hexponent : unpackExponent bits ≠ -1#_)
    (hbits : unpackExponent bits ≠ 0#_ ∨ unpackMantissa bits ≠ 0#_) :
    PositiveParts (UnpackedFloat.unpack .binary64 bits) := by
  have hpositive : Sign.ofBitVec (unpackSign bits) = .positive := by
    rw [hsign]
    rfl
  unfold UnpackedFloat.unpack
  dsimp only
  rw [if_neg hexponent, hpositive]
  by_cases hsubnormal : unpackExponent bits = 0#_
  · rw [if_pos hsubnormal, dif_neg (hbits.resolve_left (not_not_intro hsubnormal))]
    exact .finite _ _ _
  · rw [if_neg hsubnormal]
    exact .finite _ _ _

/-! ### Parts that are not packed as a zero -/

/-- Positive parts **in range**: at most fifty-three bits, and an exponent from `-1074` on. -/
inductive InRange : UnpackedFloat → Prop
  | infinite : InRange (.infinity .positive)
  | finite {m : ℕ} {e : ℤ} (hm : 0 < m) (hhigh : m < 2 ^ 53) (hleast : -1074 ≤ e) :
      InRange (.finite .positive m e hm)

namespace InRange

variable {a b : UnpackedFloat}

/-- **Packing keeps a positive double positive** when its parts are `InRange`. -/
theorem pack (h : InRange a) : PositiveParts (Float.Model.pack a).unpack := by
  cases h with
  | infinite => exact .infinite
  | @finite m e hm hhigh hleast =>
      have hbias : Format.binary64.exponentBias = 1023 := rfl
      change PositiveParts (UnpackedFloat.unpack .binary64 (UnpackedFloat.pack .binary64 _))
      unfold UnpackedFloat.pack
      dsimp only
      -- it is packed as an infinity, as a normal double, or as a subnormal one
      split_ifs with hlarge hnormal
      · exact .infinite
      · refine positiveParts_unpack unpackSign_packComponents ?_ (Or.inl ?_)
        · rw [unpackExponent_packComponents]
          intro hones
          have hbits := congrArg BitVec.toNat hones
          simp at hbits
          omega
        · rw [unpackExponent_packComponents]
          intro hzero
          have hbits := congrArg BitVec.toNat hzero
          simp at hbits
          omega
      · refine positiveParts_unpack unpackSign_packComponents ?_ (Or.inr ?_)
        · rw [unpackExponent_packComponents]
          decide
        · rw [unpackMantissa_packComponents]
          intro hzero
          have hbits := congrArg BitVec.toNat hzero
          have hlow : m < 2 ^ 52 := by
            have hlog := (Nat.log2_lt hm.ne').mpr hhigh
            have hmantissa : Format.binary64.mantissaBits = 53 := rfl
            exact (Nat.log2_lt hm.ne').mp (by omega)
          simp at hbits
          omega

end InRange

/-- **The parts of a finite double**: a subnormal one has the exponent `-1074` and fewer than
fifty-three bits, and a normal one has all of them. -/
theorem finite_unpack_cases {bits : BitVec Format.binary64.numBits} {s : Sign} {m : ℕ} {e : ℤ}
    {hm : 0 < m} (h : UnpackedFloat.unpack .binary64 bits = .finite s m e hm) :
    (e = -1074 ∧ m < 2 ^ 52) ∨ (-1074 ≤ e ∧ e ≤ 971 ∧ 2 ^ 52 ≤ m ∧ m < 2 ^ 53) := by
  unfold UnpackedFloat.unpack at h
  dsimp only at h
  by_cases hones : unpackExponent bits = -1#_
  · rw [if_pos hones] at h
    by_cases hmantissa : unpackMantissa bits = 0#_
    · rw [if_pos hmantissa] at h
      exact absurd h UnpackedFloat.noConfusion
    · rw [if_neg hmantissa] at h
      exact absurd h UnpackedFloat.noConfusion
  rw [if_neg hones] at h
  by_cases hsubnormal : unpackExponent bits = 0#_
  · rw [if_pos hsubnormal] at h
    by_cases hzero : unpackMantissa bits = 0#_
    · rw [dif_pos hzero] at h
      exact absurd h UnpackedFloat.noConfusion
    · left
      rw [dif_neg hzero] at h
      obtain ⟨-, rfl, rfl⟩ := UnpackedFloat.finite.inj h
      refine ⟨?_, (unpackMantissa bits).isLt⟩
      rw [hsubnormal]
      rfl
  · right
    rw [if_neg hsubnormal] at h
    obtain ⟨-, rfl, rfl⟩ := UnpackedFloat.finite.inj h
    have hbias : ((Format.binary64.exponentBias : ℕ) : ℤ) = 1023 := rfl
    have hstored : ((Format.binary64.mantissaBitsWithoutImplicit : ℕ) : ℤ) = 52 := rfl
    have hfield : (unpackExponent bits).toNat < 2048 := (unpackExponent bits).isLt
    have hpos : (unpackExponent bits).toNat ≠ 0 := fun hn => hsubnormal (BitVec.eq_of_toNat_eq hn)
    have hless : (unpackExponent bits).toNat ≠ 2047 := fun hn => hones (BitVec.eq_of_toNat_eq hn)
    refine ⟨by omega, by omega, ?_, (1#1 ++ unpackMantissa bits).isLt⟩
    rw [BitVec.toNat_append]
    exact Nat.left_le_or

/-- What is read from bits is in range if it is positive. -/
theorem PositiveParts.inRange {x : Float} (h : PositiveParts x.toModel.unpack) :
    InRange x.toModel.unpack := by
  generalize hparts : x.toModel.unpack = u at h
  cases h with
  | infinite => exact .infinite
  | finite m e hm =>
      rcases finite_unpack_cases hparts with ⟨rfl, hlow⟩ | ⟨hleast, -, -, hhigh⟩
      · exact .finite hm (by omega) le_rfl
      · exact .finite hm hhigh hleast

/-! ### Sums -/

/-- A mantissa of fewer than fifty-three bits is not shifted, at an exponent from `-1074` on. -/
theorem shiftToTargetExponent_of_lt {m : ℕ} {e : ℤ} (hm : 0 < m) (hlow : m < 2 ^ 52)
    (he : -1074 ≤ e) :
    shiftToTargetExponent .binary64 m e .exact = (.ofMantissaAndAccuracy m .exact, e) := by
  have hlog : m.log2 < 52 := (Nat.log2_lt hm.ne').mpr hlow
  have hbits : Format.binary64.mantissaBits = 53 := rfl
  have hleast : Format.binary64.minExponent = -1074 := rfl
  have hamount : (Format.binary64.targetExponent (totalExponent m e) - e).toNat = 0 := by
    rw [Format.targetExponent, totalExponent, hbits, hleast]
    omega
  unfold shiftToTargetExponent shiftToExponent
  dsimp only
  rw [hamount]
  exact Prod.ext rfl (Int.add_zero e)

namespace InRange

variable {a b : UnpackedFloat}

/-- Rounding keeps a mantissa positive, when no bit has a lower place than a double can hold. -/
theorem roundWithAccuracy {m : ℕ} {e : ℤ} (hm : 0 < m) (he : -1074 ≤ e) :
    InRange (UnpackedFloat.roundWithAccuracy .binary64 .positive m e .exact) := by
  rcases Nat.lt_or_ge m (2 ^ 52) with hlow | hlarge
  · have hshift := shiftToTargetExponent_of_lt hm hlow he
    have hrounded : (ExtendedMantissa.ofMantissaAndAccuracy m .exact).roundedMantissa = m := rfl
    have hround : UnpackedFloat.roundWithAccuracy .binary64 .positive m e .exact =
        .finite .positive m e hm := by
      unfold UnpackedFloat.roundWithAccuracy
      rw [hshift]
      dsimp only
      rw [hrounded, hshift]
      exact dif_neg hm.ne'
    rw [hround]
    exact .finite hm (by omega) he
  · obtain ⟨r, j, hr, hround, -, hhigh, -, -⟩ := roundWithAccuracy_exact (e := e) hlarge (by omega)
    rw [hround]
    exact .finite hr hhigh (by omega)

/-- Rounding a whole number with an exponent that is not below the least one keeps it in range. -/
theorem round {m : ℕ} {e : ℤ} (hm : 0 < m) (he : -1074 ≤ e) :
    InRange (UnpackedFloat.round .binary64 .positive m e) := by
  have hleast : Format.binary64.minExponent = -1074 := rfl
  unfold UnpackedFloat.round decreaseExponent
  dsimp only
  refine roundWithAccuracy ?_ ?_
  · rw [Nat.shiftLeft_eq]
    exact Nat.mul_pos hm (Nat.two_pow_pos _)
  · rw [Format.targetExponent, hleast]
    omega

/-- **Sums stay in range**: the lower of two exponents is the least that a sum can have. -/
theorem add (ha : InRange a) (hb : InRange b) : InRange (a.add .binary64 b) := by
  cases ha with
  | infinite => cases hb <;> exact .infinite
  | @finite m e hm hhigh hleast => cases hb with
    | infinite => exact .infinite
    | @finite m' e' hm' hhigh' hleast' =>
        unfold UnpackedFloat.add decreaseExponent
        dsimp only [Sign.apply]
        have hpos : 0 < m <<< (e - min e e').toNat + m' <<< (e' - min e e').toNat :=
          Nat.add_pos_left (by rw [Nat.shiftLeft_eq]; exact Nat.mul_pos hm (Nat.two_pow_pos _)) _
        generalize m <<< (e - min e e').toNat = left at hpos ⊢
        generalize m' <<< (e' - min e e').toNat = right at hpos ⊢
        have hcompare : compare ((left : ℤ) + right) 0 = .gt := compare_gt_iff_gt.mpr (by omega)
        rw [UnpackedFloat.normalize, hcompare]
        exact round (by omega) (by omega)

end InRange

/-- **Sums** of positive doubles are positive, since `add` stays `InRange`. -/
theorem add_pos_double {x y : Float} (hx : 0 < x) (hy : 0 < y) : 0 < x + y :=
  zero_lt_double_iff.mpr
    ((zero_lt_double_iff.mp hx).inRange.add (zero_lt_double_iff.mp hy).inRange).pack

/-! ### Products -/

/-- The parts of a positive double that is **at least `2 ^ -k`**: it is infinite, or it is normal
and its leading bit has a place from `-k` on. -/
inductive AtLeastPower (k : ℕ) : UnpackedFloat → Prop
  | infinite : AtLeastPower k (.infinity .positive)
  | finite {m : ℕ} {e : ℤ} (hm : 0 < m) (hlow : 2 ^ 52 ≤ m) (hhigh : m < 2 ^ 53)
      (hpower : -k ≤ 52 + e) : AtLeastPower k (.finite .positive m e hm)

namespace AtLeastPower

variable {k l : ℕ} {a b : UnpackedFloat}

theorem positiveParts (h : AtLeastPower k a) : PositiveParts a := by
  cases h with
  | infinite => exact .infinite
  | finite hm => exact .finite _ _ hm

theorem mono (h : AtLeastPower k a) (hkl : k ≤ l) : AtLeastPower l a := by
  cases h with
  | infinite => exact .infinite
  | finite hm hlow hhigh hpower => exact .finite hm hlow hhigh (by omega)

/-- The bounds of factors multiply, as long as their product is at least `2 ^ -1022`. -/
theorem mul (ha : AtLeastPower k a) (hb : AtLeastPower l b) (h : k + l ≤ 1022) :
    AtLeastPower (k + l) (a.mul .binary64 b) := by
  cases ha with
  | infinite => cases hb <;> exact .infinite
  | @finite m e hm hlow hhigh hpower => cases hb with
    | infinite => exact .infinite
    | @finite m' e' hm' hlow' hhigh' hpower' =>
        have hproduct : 2 ^ 52 * 2 ^ 52 ≤ m * m' := Nat.mul_le_mul hlow hlow'
        rw [← Nat.pow_add] at hproduct
        have hlog : 104 ≤ (m * m').log2 := (Nat.le_log2 (by omega)).mpr hproduct
        have hexcess : 52 ≤ excess (m * m') := by
          rw [excess]
          omega
        obtain ⟨r, j, hr, hround, hrlow, hrhigh, -, -⟩ :=
          roundWithAccuracy_exact (m := m * m') (e := e + e') (by omega) (by omega)
        change AtLeastPower (k + l)
          (UnpackedFloat.roundWithAccuracy .binary64 .positive (m * m') (e + e') .exact)
        rw [hround]
        exact .finite hr hrlow hrhigh (by push_cast; omega)

/-- A normal double is packed as it is, unless it overflows. -/
theorem pack (h : AtLeastPower k a) (hk : k ≤ 1022) :
    AtLeastPower k (Float.Model.pack a).unpack := by
  cases h with
  | infinite => exact .infinite
  | @finite m e hm hlow hhigh hpower =>
      rcases le_or_gt e 971 with hsmall | hlarge
      · rw [(Normal.intro hm hlow hhigh (by omega) hsmall).unpack_pack]
        exact .finite hm hlow hhigh hpower
      · have hoverflow : 2 ^ Format.binary64.exponentBits ≤
            (e + Format.binary64.exponentBias + Format.binary64.mantissaBitsWithoutImplicit).toNat
              + 1 := by
          change 2048 ≤ (e + 1023 + 52).toNat + 1
          omega
        change AtLeastPower k (UnpackedFloat.unpack .binary64 (UnpackedFloat.pack .binary64 _))
        unfold UnpackedFloat.pack
        dsimp only
        rw [if_pos hoverflow]
        exact .infinite

end AtLeastPower

/-- **Products** of doubles that are not too small are as great as the product of their bounds: the
exponents `k` and `l` of `AtLeastPower` add up. -/
theorem atLeastPower_mul {k l : ℕ} {x y : Float} (hx : AtLeastPower k x.toModel.unpack)
    (hy : AtLeastPower l y.toModel.unpack) (h : k + l ≤ 1022) :
    AtLeastPower (k + l) (x * y).toModel.unpack :=
  (hx.mul hy h).pack h

/-- A mantissa of `j` bits bounds its exponent, when the number is at least `2 ^ -k`. -/
theorem neg_lt_of_two_pow_le {k m j : ℕ} {e : ℤ} (hm : m < 2 ^ j)
    (h : (1 / 2 : ℚ) ^ k ≤ m * 2 ^ e) : (-k : ℤ) < j + e := by
  have hless : (m * 2 ^ e : ℚ) < 2 ^ ((j : ℤ) + e) := by
    rw [zpow_add₀ two_ne_zero, zpow_natCast]
    exact mul_lt_mul_of_pos_right (by exact_mod_cast hm) (zpow_pos two_pos e)
  have hpower : (1 / 2 : ℚ) ^ k = 2 ^ (-k : ℤ) := by rw [zpow_neg, zpow_natCast, one_div, inv_pow]
  rw [hpower] at h
  exact (zpow_lt_zpow_iff_right₀ one_lt_two).mp (h.trans_lt hless)

/-- The exact value of a double says whether it is at least `2 ^ -k`. -/
theorem atLeastPower_of_value? {x : Float} {q : ℚ} {k : ℕ}
    (h : (Binary.ofFloat x).value? = some q) (hk : k ≤ 1022) (hq : (1 / 2) ^ k ≤ q) :
    AtLeastPower k x.toModel.unpack := by
  have hpos : (0 : ℚ) < q := lt_of_lt_of_le (by positivity) hq
  rw [Binary.ofFloat_eq] at h
  generalize hparts : x.toModel.unpack = u at h
  rcases u with sign | _ | sign | ⟨_ | _, m, e, hm⟩
  · exact absurd (h : none = some q) nofun
  · exact absurd (h : none = some q) nofun
  · obtain rfl : (if sign == .negative then -1 else 1) * (((0 : ℕ) : ℚ) * 2 ^ (-1074 : ℤ)) = q :=
      Option.some.inj h
    exact absurd hpos (by rw [Nat.cast_zero, zero_mul, mul_zero]; exact lt_irrefl 0)
  · obtain rfl : -1 * (m * 2 ^ e) = q := Option.some.inj h
    have hvalue : (0 : ℚ) ≤ m * 2 ^ e := mul_nonneg (Nat.cast_nonneg m) (zpow_pos two_pos e).le
    exact absurd hpos (by rw [neg_one_mul, Left.neg_pos_iff]; exact hvalue.not_gt)
  · obtain rfl : 1 * (m * 2 ^ e) = q := Option.some.inj h
    rw [one_mul] at hq
    rcases finite_unpack_cases hparts with ⟨rfl, hlow⟩ | ⟨-, -, hlow, hhigh⟩
    · have := neg_lt_of_two_pow_le hlow hq
      omega
    · have := neg_lt_of_two_pow_le hhigh hq
      exact .finite hm hlow hhigh (by omega)

end DurativePlanning
