import DurativePlanning.Arithmetic
import DurativePlanning.Seconds
import Mathlib.Algebra.Group.Nat.Defs
import Mathlib.Data.Int.Notation
import Mathlib.Tactic.ByContra

/-!
# Which Time Limits Have a Form

The settings admit every time limit that is finite and positive. Doubles of that kind go far beyond
what sixty-four bits of seconds can hold, and those have no form in nanoseconds. Whether a double is
admitted is decided by comparing doubles, and its nanoseconds are computed from its bits, so the two
views of a double are brought together first.

* `Binary.ofFloat_eq`: the bits of a double say what it is compared as.
* `Binary.ofFloat_finite`: how many bits the significand of a finite double has.
* `nanosecondsOf?_eq_none_iff`: a positive time limit has no form exactly from `2 ^ 64` seconds on.
-/

namespace DurativePlanning

open Float.Model Float.Model.UnpackedFloat

/-! ### The parts of a double -/

namespace Binary

/-- The bits of a double, of which its parts are taken. -/
def bits (x : Float) : BitVec Format.binary64.numBits := x.toModel.toBits.toBitVec

/-- The exponent is stored in the eleven bits below the sign. -/
theorem toNat_unpackExponent (x : Float) :
    (unpackExponent (bits x)).toNat = (x.toBits.toNat >>> 52) % 2048 := by
  unfold unpackExponent
  simp only [BitVec.toNat_cast, BitVec.extractLsb_toNat]
  rfl

theorem toNat_unpackMantissa (x : Float) :
    (unpackMantissa (bits x)).toNat = x.toBits.toNat % (1 <<< 52) := by
  unfold unpackMantissa
  simp only [BitVec.toNat_cast, BitVec.extractLsb_toNat]
  rfl

theorem toNat_unpackSign (x : Float) :
    (unpackSign (bits x)).toNat = (x.toBits.toNat >>> 63) % 2 := by
  unfold unpackSign
  simp only [BitVec.toNat_cast, BitVec.extractLsb_toNat]
  rfl

/-- The sign is positive when the first bit is zero. -/
theorem unpackSign_eq_zero_iff (x : Float) :
    unpackSign (bits x) = 0#1 ↔ ¬1 <<< 63 ≤ x.toBits.toNat := by
  have hlt : x.toBits.toNat < 2 ^ 64 := x.toBits.toNat_lt
  have hplace : 1 <<< 63 = 2 ^ 63 := rfl
  rw [← BitVec.toNat_inj, toNat_unpackSign, Nat.shiftRight_eq_div_pow, hplace, BitVec.toNat_zero]
  omega

/-- The sign is negative when the first bit is one. -/
theorem ofBitVec_unpackSign (x : Float) :
    (Sign.ofBitVec (unpackSign (bits x)) == .negative) = decide (1 <<< 63 ≤ x.toBits.toNat) := by
  by_cases h : 1 <<< 63 ≤ x.toBits.toNat
  · have hone : ¬unpackSign (bits x) = 0#1 := fun hzero => (unpackSign_eq_zero_iff x).mp hzero h
    rw [Sign.ofBitVec, if_neg hone, decide_eq_true h]
    rfl
  · rw [Sign.ofBitVec, if_pos ((unpackSign_eq_zero_iff x).mpr h), decide_eq_false h]
    rfl

/-- The number that a double with these parts is compared as. -/
def ofUnpacked : UnpackedFloat → Binary
  | .notANumber => undefined
  | .infinity sign => infinite (sign == .negative)
  | .zero sign => finite (sign == .negative) 0 (-1074)
  | .finite sign m e _ => finite (sign == .negative) m e

theorem ofUnpacked_infinity (sign : Sign) :
    ofUnpacked (.infinity sign) = infinite (sign == .negative) := rfl

/-- A zero is compared as the significand zero with the least exponent. -/
theorem ofUnpacked_zero (sign : Sign) :
    ofUnpacked (.zero sign) = finite (sign == .negative) 0 (-1074) := rfl

theorem ofUnpacked_finite (sign : Sign) {m : ℕ} (e : ℤ) (h : 0 < m) :
    ofUnpacked (.finite sign m e h) = finite (sign == .negative) m e := rfl

/-- **The bits of a double say what it is compared as**: `Binary.ofFloat` is `ofUnpacked` of its
parts. -/
theorem ofFloat_eq (x : Float) : ofFloat x = ofUnpacked x.toModel.unpack := by
  have hfield := toNat_unpackExponent x
  have hfraction := toNat_unpackMantissa x
  have hones : unpackExponent (bits x) = -1#_ ↔ x.toBits.toNat >>> 52 % 2048 = 2047 := by
    rw [← BitVec.toNat_inj, hfield]
    rfl
  have hzeros : unpackExponent (bits x) = 0#_ ↔ x.toBits.toNat >>> 52 % 2048 = 0 := by
    rw [← BitVec.toNat_inj, hfield]
    rfl
  have hnone : unpackMantissa (bits x) = 0#_ ↔ x.toBits.toNat % 1 <<< 52 = 0 := by
    rw [← BitVec.toNat_inj, hfraction]
    rfl
  have hunpack : x.toModel.unpack = UnpackedFloat.unpack .binary64 (bits x) := rfl
  rw [hunpack, ofFloat]
  unfold UnpackedFloat.unpack
  dsimp only
  by_cases hfull : x.toBits.toNat >>> 52 % 2048 = 2047
  · rw [if_pos hfull, if_pos (hones.mpr hfull)]
    by_cases hzero : x.toBits.toNat % 1 <<< 52 = 0
    · rw [if_pos hzero, if_pos (hnone.mpr hzero), ofUnpacked_infinity, ofBitVec_unpackSign]
    · rw [if_neg hzero, if_neg (hzero ∘ hnone.mp)]
      rfl
  · rw [if_neg hfull, if_neg (hfull ∘ hones.mp)]
    by_cases hsubnormal : x.toBits.toNat >>> 52 % 2048 = 0
    · rw [if_pos hsubnormal, if_pos (hzeros.mpr hsubnormal)]
      by_cases hzero : x.toBits.toNat % 1 <<< 52 = 0
      · rw [dif_pos (hnone.mpr hzero), ofUnpacked_zero, ofBitVec_unpackSign, hzero]
      · rw [dif_neg (hzero ∘ hnone.mp), ofUnpacked_finite, ofBitVec_unpackSign, hfraction, hfield,
          hsubnormal]
        rfl
    · have hlt : x.toBits.toNat % 1 <<< 52 < 2 ^ 52 := Nat.mod_lt _ (by decide)
      rw [if_neg hsubnormal, if_neg (hsubnormal ∘ hzeros.mp), ofUnpacked_finite,
        ofBitVec_unpackSign, BitVec.toNat_append, hfraction, hfield]
      exact congrArg₂ (finite _) (Nat.shiftLeft_add_eq_or_of_lt hlt 1) rfl

/-- **A finite double is normal or subnormal**: it has fifty-three bits, and all of them are used
unless the exponent is the least one. -/
theorem ofFloat_finite {x : Float} {negative : Bool} {m : ℕ} {e : ℤ}
    (h : ofFloat x = finite negative m e) : m < 2 ^ 53 ∧ (-1074 < e → 2 ^ 52 ≤ m) := by
  have hlt : x.toBits.toNat % 1 <<< 52 < 2 ^ 52 := Nat.mod_lt _ (by decide)
  have hone : 1 <<< 52 = 2 ^ 52 := rfl
  rw [ofFloat] at h
  split at h
  · split at h
    · exact absurd h (by simp)
    · exact absurd h (by simp)
  · split at h
    · obtain ⟨-, rfl, rfl⟩ := Binary.finite.inj h
      exact ⟨by omega, fun h => absurd h (by decide)⟩
    · obtain ⟨-, rfl, -⟩ := Binary.finite.inj h
      exact ⟨by omega, fun _ => by omega⟩

end Binary

/-! ### Positive doubles -/

/-- A span of `2 ^ 64` seconds or more. -/
def TooLong (seconds : Float) : Prop := Float.ofNat UInt64.size ≤ seconds

instance (seconds : Float) : Decidable (TooLong seconds) := Float.decLe _ _

/-- Positive doubles are compared by their exponents, then by their significands. -/
theorem finite_le_iff {m n : ℕ} {d e : ℤ} (hm : 0 < m) (hn : 0 < n) :
    (UnpackedFloat.finite .positive m d hm).le (UnpackedFloat.finite .positive n e hn) = true ↔
      d < e ∨ d = e ∧ m ≤ n := by
  have hlex : (UnpackedFloat.finite .positive m d hm).le (UnpackedFloat.finite .positive n e hn) =
      ((compare d e).then (compare m n)).isLE := rfl
  rw [hlex]
  rcases Int.lt_trichotomy d e with he | rfl | he
  · simp [Int.compare_eq_lt.mpr he, he]
  · simp [Nat.isLE_compare]
  · simp [Int.compare_eq_gt.mpr he, Int.not_lt.mpr (Int.le_of_lt he), (Int.ne_of_lt he).symm]

/-- **A double that is finite and positive**, taken apart, and compared with `2 ^ 64`. -/
theorem exists_of_isPositive {x : Float} (h : Arithmetic.isPositive x = true) :
    ∃ m e, Binary.ofFloat x = .finite false m e ∧ (TooLong x ↔ 12 ≤ e) := by
  obtain ⟨hfinite, hlt⟩ := Bool.and_eq_true_iff.mp h
  have hfinite : x.toModel.unpack.isFinite = true := hfinite
  have hlt : (UnpackedFloat.zero .positive).lt x.toModel.unpack = true :=
    of_decide_eq_true (p := (0.0 : Float).toModel < x.toModel) (of_decide_eq_true hlt)
  have hbinary := Binary.ofFloat_eq x
  have hle : TooLong x ↔
      (UnpackedFloat.finite .positive (2 ^ 52) 12 (by decide)).le x.toModel.unpack = true :=
    decide_eq_true_iff (p := (Float.ofNat UInt64.size).toModel ≤ x.toModel)
  rw [hle]
  generalize x.toModel.unpack = parts at hfinite hlt hbinary ⊢
  cases parts with
  | notANumber => exact absurd hfinite Bool.false_ne_true
  | infinity sign => exact absurd hfinite Bool.false_ne_true
  | zero sign => exact absurd hlt Bool.false_ne_true
  | finite sign m e hm =>
      cases sign with
      | negative => exact absurd hlt Bool.false_ne_true
      | positive =>
          refine ⟨m, e, hbinary, ?_⟩
          obtain ⟨-, hnormal⟩ := Binary.ofFloat_finite hbinary
          rw [finite_le_iff]
          constructor
          · rintro (hlt | ⟨rfl, -⟩)
            · exact Int.le_of_lt hlt
            · exact Int.le_refl _
          · intro hle
            have hfull : 2 ^ 52 ≤ m := hnormal (by omega)
            exact (Int.lt_or_eq_of_le hle).imp_right fun he => ⟨he, hfull⟩

/-! ### Nanoseconds -/

/-- `roundDiv` is at most one above rounding down. -/
theorem roundDiv_le (tie : Tie) (numerator denominator : ℕ) :
    roundDiv tie numerator denominator ≤ numerator / denominator + 1 := by
  rw [roundDiv]
  split
  · exact Nat.le_succ _
  · split
    · exact Nat.le_refl _
    · cases tie with
      | even =>
          have hlt := Nat.mod_lt (numerator / denominator) (y := 2) (by decide)
          exact Nat.add_le_add_left (Nat.le_of_lt_succ hlt) _
      | up => exact Nat.le_refl _

/-- A whole number is rounded to itself. -/
theorem roundDiv_one (tie : Tie) (numerator : ℕ) : roundDiv tie numerator 1 = numerator := by
  simp [roundDiv, Nat.mod_one]

/-- **A positive time limit has no form in nanoseconds** exactly when it is `TooLong`. -/
theorem nanosecondsOf?_eq_none_iff {seconds : Float}
    (h : Arithmetic.isPositive seconds = true) :
    nanosecondsOf? seconds = none ↔ TooLong seconds := by
  obtain ⟨m, e, hbinary, hle⟩ := exists_of_isPositive h
  obtain ⟨hlt, hnormal⟩ := Binary.ofFloat_finite hbinary
  rw [hle, nanosecondsOf?, hbinary]
  simp only [Bool.false_eq_true, false_and, if_false, ite_eq_right_iff, reduceCtorEq, imp_false,
    Nat.not_lt]
  cases e with
  | ofNat k =>
      have hdenominator : Binary.denominator (Int.ofNat k) = 1 := by simp [Binary.denominator]
      have hnumerator : Binary.numerator m (Int.ofNat k) = m * 2 ^ k := Nat.shiftLeft_eq m k
      have hk : 12 ≤ Int.ofNat k ↔ 12 ≤ k := Int.ofNat_le
      rw [hdenominator, hnumerator, roundDiv_one, hk, Nat.mul_le_mul_right_iff (by decide)]
      constructor
      · intro hsize
        by_contra hsmall
        -- fifty-three bits, moved by eleven places at most
        have hpow : 2 ^ k ≤ 2 ^ 11 := Nat.pow_le_pow_right (by decide) (by omega)
        have hbound : m * 2 ^ k < 2 ^ 53 * 2 ^ 11 :=
          Nat.mul_lt_mul_of_lt_of_le hlt hpow (by decide)
        exact absurd hbound (Nat.not_lt.mpr hsize)
      · intro hlarge
        have hpow : 2 ^ 12 ≤ 2 ^ k := Nat.pow_le_pow_right (by decide) hlarge
        exact Nat.mul_le_mul (hnormal (by omega)) hpow
  | negSucc k =>
      have hnumerator : Binary.numerator m (Int.negSucc k) = m := rfl
      rw [hnumerator]
      refine iff_of_false (Nat.not_le.mpr ?_) (by omega)
      calc roundDiv .even (m * 1000000000) (Binary.denominator (Int.negSucc k))
          ≤ m * 1000000000 / Binary.denominator (Int.negSucc k) + 1 := roundDiv_le ..
        _ ≤ m * 1000000000 + 1 := Nat.succ_le_succ (Nat.div_le_self _ _)
        _ < UInt64.size * 1000000000 := by
            have hsize : UInt64.size = 2 ^ 64 := rfl
            omega

end DurativePlanning
