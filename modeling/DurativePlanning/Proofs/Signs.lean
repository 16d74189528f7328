import DurativePlanning.Proofs.Comparison

/-!
# Doubles That Are Not Negative

Sums, products and quotients of doubles are rounded, and they may overflow, but rounding does not
turn a sign round: what is computed from doubles of which none is negative is not negative. It may
be undefined, when something overflows and is then multiplied by zero; without an overflow it is
not.

* `zero_le_double_iff`: the sign of a double decides whether it is at least zero.
* `add_nonneg_double`, `mul_nonneg_double`: sums, and products of finite doubles.
* `IsWeight`: a double that is not negative unless it is infinite or undefined, such as all that is
  computed from the probabilities of a law.
-/

namespace DurativePlanning

open Float.Model Float.Model.UnpackedFloat

/-! ### Parts of doubles -/

/-- The parts of a double that is **at least zero**. -/
inductive AtLeastZero : UnpackedFloat → Prop
  | infinite : AtLeastZero (.infinity .positive)
  | zero (sign : Sign) : AtLeastZero (.zero sign)
  | finite (m : ℕ) (e : ℤ) (hm : 0 < m) : AtLeastZero (.finite .positive m e hm)

/-- **The sign of a double decides** whether it is at least zero: its parts are `AtLeastZero`. -/
theorem zero_le_double_iff {x : Float} : 0 ≤ x ↔ AtLeastZero x.toModel.unpack := by
  have hzero : (0 : Float).toModel.unpack = .zero .positive := rfl
  have hdefined : (0 : Float).isNaN = false := rfl
  have hx : x.isNaN = x.toModel.unpack.isNaN := rfl
  rw [le_double_iff, hzero, hdefined, hx]
  generalize x.toModel.unpack = u
  constructor
  · rintro ⟨-, hu, hle⟩
    rcases u with (_ | _) | _ | sign | ⟨_ | _, m, e, hm⟩
    · exact absurd hle (by decide)
    · exact .infinite
    · exact absurd hu (by decide)
    · exact .zero sign
    · dsimp only [place] at hle
      simp [Prod.Lex.toLex_le_toLex] at hle
    · exact .finite m e hm
  · rintro (_ | sign | ⟨m, e, hm⟩)
    · exact ⟨rfl, rfl, by decide⟩
    · exact ⟨rfl, rfl, le_rfl⟩
    · refine ⟨rfl, rfl, ?_⟩
      dsimp only [place]
      simp [Prod.Lex.toLex_le_toLex]

/-- A sign is read back from the bits. -/
theorem unpackSign_packComponents {spec : Format} {sign : Sign}
    {exponent : BitVec spec.exponentBits} {mantissa : BitVec spec.mantissaBitsWithoutImplicit} :
    unpackSign (packComponents spec sign exponent mantissa) = sign.toBitVec := by
  ext i hi
  obtain rfl : i = 0 := by omega
  unfold unpackSign
  simp [packComponents, BitVec.getLsbD_append, BitVec.getElem_append]

/-- Bits with a positive sign are those of a double that is at least zero, if the exponent is that
of a finite one. -/
theorem atLeastZero_unpack {bits : BitVec Format.binary64.numBits}
    (hsign : unpackSign bits = 0#1) (hexponent : unpackExponent bits ≠ -1#_) :
    AtLeastZero (UnpackedFloat.unpack .binary64 bits) := by
  have hpositive : Sign.ofBitVec (unpackSign bits) = .positive := by
    rw [hsign]
    rfl
  unfold UnpackedFloat.unpack
  dsimp only
  rw [if_neg hexponent, hpositive]
  by_cases hsubnormal : unpackExponent bits = 0#_
  · rw [if_pos hsubnormal]
    by_cases hzero : unpackMantissa bits = 0#_
    · rw [dif_pos hzero]
      exact .zero .positive
    · rw [dif_neg hzero]
      exact .finite _ _ _
  · rw [if_neg hsubnormal]
    exact .finite _ _ _

namespace AtLeastZero

variable {a b : UnpackedFloat}

/-- **Packing keeps the sign**, also where it overflows: `unpack` after `pack` is `AtLeastZero`
again. -/
theorem pack (h : AtLeastZero a) : AtLeastZero (Float.Model.pack a).unpack := by
  cases h with
  | infinite => exact .infinite
  | zero sign => cases sign with
    | negative => exact .zero .negative
    | positive => exact .zero .positive
  | finite m e hm =>
      change AtLeastZero (UnpackedFloat.unpack .binary64 (UnpackedFloat.pack .binary64 _))
      unfold UnpackedFloat.pack
      dsimp only
      -- it is packed as an infinity, as a normal double, or as a subnormal one
      split_ifs with hlarge hnormal
      · exact .infinite
      · refine atLeastZero_unpack unpackSign_packComponents fun hones => ?_
        rw [unpackExponent_packComponents] at hones
        have hbits := congrArg BitVec.toNat hones
        simp at hbits
        omega
      · refine atLeastZero_unpack unpackSign_packComponents ?_
        rw [unpackExponent_packComponents]
        decide

/-- Rounding keeps the sign. -/
theorem roundWithAccuracy (m : ℕ) (e : ℤ) (accuracy : Accuracy) :
    AtLeastZero (UnpackedFloat.roundWithAccuracy .binary64 .positive m e accuracy) := by
  unfold UnpackedFloat.roundWithAccuracy
  dsimp only
  generalize (shiftToTargetExponent _ _ _ _).1.mantissa = rounded
  by_cases h : rounded = 0
  · rw [dif_pos h]
    exact .zero .positive
  · rw [dif_neg h]
    exact .finite _ _ _

/-- Normalizing a mantissa that is not negative keeps the sign. -/
theorem normalize {mantissa : ℤ} (h : 0 ≤ mantissa) (e : ℤ) :
    AtLeastZero (UnpackedFloat.normalize .binary64 mantissa e .positive) := by
  rw [UnpackedFloat.normalize]
  split
  · next hlt => exact absurd (compare_lt_iff_lt.mp hlt) h.not_gt
  · exact .zero .positive
  · exact roundWithAccuracy _ _ _

theorem add (ha : AtLeastZero a) (hb : AtLeastZero b) : AtLeastZero (a.add .binary64 b) := by
  cases ha with
  | infinite => cases hb <;> exact .infinite
  | zero sign => cases hb with
    | infinite => exact .infinite
    | zero sign' => cases sign <;> cases sign' <;> exact .zero _
    | finite m e hm => exact .finite m e hm
  | finite m e hm => cases hb with
    | infinite => exact .infinite
    | zero => exact .finite m e hm
    | finite m' e' hm' =>
        exact normalize (Int.add_nonneg (Int.natCast_nonneg _) (Int.natCast_nonneg _)) _

theorem mul (ha : AtLeastZero a) (hb : AtLeastZero b) (ha' : a.isFinite = true)
    (hb' : b.isFinite = true) : AtLeastZero (a.mul .binary64 b) := by
  cases ha with
  | infinite => exact absurd ha' (by decide)
  | zero sign => cases hb with
    | infinite => exact absurd hb' (by decide)
    | zero sign' => exact .zero _
    | finite m e hm => exact .zero _
  | finite m e hm => cases hb with
    | infinite => exact absurd hb' (by decide)
    | zero sign => exact .zero _
    | finite m' e' hm' => exact roundWithAccuracy _ _ _

/-- A quotient that is finite is not negative, when neither part is a finite negative one. -/
theorem div (ha : a.isFinite = true → AtLeastZero a) (hb : b.isFinite = true → AtLeastZero b)
    (h : (a.div .binary64 b).isFinite = true) : AtLeastZero (a.div .binary64 b) := by
  cases a with
  | infinity => cases b <;> exact absurd h Bool.false_ne_true
  | notANumber => exact absurd h Bool.false_ne_true
  | zero sign => cases b with
    | infinity | finite => exact .zero _
    | notANumber | zero => exact absurd h Bool.false_ne_true
  | finite sign m e hm => cases b with
    | infinity => exact .zero _
    | notANumber | zero => exact absurd h Bool.false_ne_true
    | finite sign' m' e' hm' =>
        cases ha rfl
        cases hb rfl
        exact roundWithAccuracy _ _ _

end AtLeastZero

section Finite

variable {a b : UnpackedFloat}

theorem isFinite_of_isFinite_pack (h : (pack a).unpack.isFinite = true) : a.isFinite = true := by
  cases a with
  | infinity sign => cases sign <;> exact absurd h Bool.false_ne_true
  | notANumber => exact absurd h Bool.false_ne_true
  | zero | finite => rfl

/-- A sum is finite only if both parts are. -/
theorem isFinite_of_isFinite_add (h : (a.add .binary64 b).isFinite = true) :
    a.isFinite = true ∧ b.isFinite = true := by
  cases a with
  | infinity sign => cases b with
    | infinity sign' => cases sign <;> cases sign' <;> exact absurd h Bool.false_ne_true
    | notANumber | zero | finite => exact absurd h Bool.false_ne_true
  | notANumber => exact absurd h Bool.false_ne_true
  | zero | finite => cases b with
    | infinity | notANumber => exact absurd h Bool.false_ne_true
    | zero | finite => exact ⟨rfl, rfl⟩

/-- A product is finite only if both factors are. -/
theorem isFinite_of_isFinite_mul (h : (a.mul .binary64 b).isFinite = true) :
    a.isFinite = true ∧ b.isFinite = true := by
  cases a with
  | infinity | notANumber => cases b <;> exact absurd h Bool.false_ne_true
  | zero | finite => cases b with
    | infinity | notANumber => exact absurd h Bool.false_ne_true
    | zero | finite => exact ⟨rfl, rfl⟩

end Finite

/-! ### Doubles -/

section Double

variable {x y : Float}

/-- **Sums** of doubles that are not negative are not negative, by `AtLeastZero.add`. -/
theorem add_nonneg_double (hx : 0 ≤ x) (hy : 0 ≤ y) : 0 ≤ x + y :=
  zero_le_double_iff.mpr ((zero_le_double_iff.mp hx).add (zero_le_double_iff.mp hy)).pack

/-- **Products** of finite doubles that are not negative are not negative, by `AtLeastZero.mul`. -/
theorem mul_nonneg_double (hx : 0 ≤ x) (hy : 0 ≤ y) (hx' : x.isFinite = true)
    (hy' : y.isFinite = true) : 0 ≤ x * y :=
  zero_le_double_iff.mpr ((zero_le_double_iff.mp hx).mul (zero_le_double_iff.mp hy) hx' hy').pack

/-- A double that can be a **weight**: if it `isFinite`, it is not negative. -/
def IsWeight (x : Float) : Prop := x.isFinite = true → 0 ≤ x

namespace IsWeight

/-- A positive double is a weight. -/
theorem of_pos (h : 0 < x) : IsWeight x := by
  have hlt : (0 : Float).toModel.unpack.lt x.toModel.unpack = true :=
    of_decide_eq_true (p := (0 : Float).toModel < x.toModel) h
  have hcompare : (0 : Float).toModel.unpack.compare x.toModel.unpack = some .lt :=
    eq_of_beq hlt
  have hle : (0 : Float).toModel.unpack.le x.toModel.unpack = true := by
    rw [UnpackedFloat.le, hcompare]
    rfl
  exact fun _ => decide_eq_true (p := (0 : Float).toModel ≤ x.toModel) hle

/-- A sum of weights is a weight. -/
theorem add (hx : IsWeight x) (hy : IsWeight y) : IsWeight (x + y) := fun h =>
  have hparts := isFinite_of_isFinite_add (isFinite_of_isFinite_pack h)
  add_nonneg_double (hx hparts.1) (hy hparts.2)

/-- A product of weights is a weight. -/
theorem mul (hx : IsWeight x) (hy : IsWeight y) : IsWeight (x * y) := fun h =>
  have hparts := isFinite_of_isFinite_mul (isFinite_of_isFinite_pack h)
  mul_nonneg_double (hx hparts.1) (hy hparts.2) hparts.1 hparts.2

/-- A quotient of weights is a weight. -/
theorem div (hx : IsWeight x) (hy : IsWeight y) : IsWeight (x / y) := fun h =>
  zero_le_double_iff.mpr (AtLeastZero.div (fun h => zero_le_double_iff.mp (hx h))
    (fun h => zero_le_double_iff.mp (hy h)) (isFinite_of_isFinite_pack h)).pack

/-- A count is a weight. -/
theorem count (n : ℕ) : IsWeight (Float.ofNat n) := by
  change IsWeight (Float.ofScientific n false 0)
  unfold Float.ofScientific
  -- a small count is converted by itself, a great one as a decimal number
  split
  · have hone : (0 : Float) ≤ Float.exactlyRepresentablePowersOfTen[0] := by decide
    refine mul (fun _ => zero_le_double_iff.mpr ?_) fun _ => hone
    exact (AtLeastZero.normalize (Int.natCast_nonneg _) 0).pack
  · next hlarge =>
    have hn : n ≠ 0 := by
      rintro rfl
      exact hlarge (by decide)
    have hrange : (0 : ℤ) ≤ 2 ^ Format.binary64.exponentBits := by decide
    refine fun _ => zero_le_double_iff.mpr (AtLeastZero.pack ?_)
    change AtLeastZero (UnpackedFloat.ofScientific .binary64 n 0)
    unfold UnpackedFloat.ofScientific
    rw [dif_neg hn, if_neg (by decide), if_neg (by omega), if_pos (by decide)]
    exact (AtLeastZero.finite _ _ _).mul (.finite _ _ _) rfl rfl

end IsWeight

end Double

end DurativePlanning
