import Mathlib
import StockFlow.Proofs.Rounding

/-!
# Floats as rational numbers

The rational number that a finite float stands for. A sum and a quotient of floats stand for a number that is
nearest to the exact one, and the whole part of a float is taken without rounding.
-/

namespace StockFlow.Double

open Float.Model
open Float.Model.UnpackedFloat (Sign Accuracy ExtendedMantissa)

/-! ## Packed floats -/

/-- Whether a positive mantissa and an exponent are those of a finite float: the mantissa has 53 bits, or the
exponent is the least one. -/
structure Canonical (mantissa : Nat) (exponent : Int) : Prop where
  positive : 0 < mantissa
  small : mantissa < 2 ^ 53
  least : -1074 ≤ exponent
  most : exponent ≤ 971
  full : 2 ^ 52 ≤ mantissa ∨ exponent = -1074

variable {mantissa : Nat} {exponent : Int}

/-- A mantissa of 53 bits is packed without its first one. -/
theorem unpack_normal (biased : Nat) (nonzero : 0 < biased) (proper : biased < 2047)
    (full : 2 ^ 52 ≤ mantissa) (small : mantissa < 2 ^ 53) (sign : Sign) :
    UnpackedFloat.unpack .binary64 (UnpackedFloat.packComponents .binary64 sign (BitVec.ofNat 11 biased)
      (BitVec.ofNat 52 mantissa)) = .finite sign mantissa (biased - 1075) (by omega) := by
  have field : (BitVec.ofNat 11 biased).toNat = biased := by
    rw [BitVec.toNat_ofNat]
    omega
  have notOnes : BitVec.ofNat 11 biased ≠ -1#11 := by
    intro same
    have ones : (BitVec.ofNat 11 biased).toNat = 2047 := congrArg BitVec.toNat same
    omega
  have notZero : BitVec.ofNat 11 biased ≠ 0#11 := by
    intro same
    have zero : (BitVec.ofNat 11 biased).toNat = 0 := congrArg BitVec.toNat same
    omega
  have whole : (1#1 ++ BitVec.ofNat 52 mantissa).toNat = mantissa := by
    rw [BitVec.toNat_append, BitVec.toNat_ofNat, BitVec.toNat_ofNat, Nat.shiftLeft_eq, Nat.or_comm]
    show mantissa % 2 ^ 52 ||| 2 ^ 52 = mantissa
    rw [Nat.or_two_pow_eq_add_of_lt (Nat.mod_lt _ (by norm_num))]
    omega
  unfold UnpackedFloat.unpack
  simp only [UnpackedFloat.unpackMantissa_packComponents, UnpackedFloat.unpackExponent_packComponents,
    UnpackedFloat.unpackSign_packComponents, Sign.ofBitVec_toBitVec]
  rw [if_neg notOnes, if_neg notZero]
  simp only [UnpackedFloat.finite.injEq, true_and]
  refine ⟨whole, ?_⟩
  rw [field]
  rfl

/-- A mantissa of fewer bits is packed as it is. -/
theorem unpack_subnormal (positive : 0 < mantissa) (short : mantissa < 2 ^ 52) (sign : Sign) :
    UnpackedFloat.unpack .binary64 (UnpackedFloat.packComponents .binary64 sign 0#11
      (BitVec.ofNat 52 mantissa)) = .finite sign mantissa (-1074) positive := by
  have fraction : (BitVec.ofNat 52 mantissa).toNat = mantissa := by
    rw [BitVec.toNat_ofNat]
    omega
  have notZero : BitVec.ofNat 52 mantissa ≠ 0#52 := by
    intro same
    have zero : (BitVec.ofNat 52 mantissa).toNat = 0 := congrArg BitVec.toNat same
    omega
  unfold UnpackedFloat.unpack
  simp only [UnpackedFloat.unpackMantissa_packComponents, UnpackedFloat.unpackExponent_packComponents,
    UnpackedFloat.unpackSign_packComponents, Sign.ofBitVec_toBitVec]
  rw [if_neg (by decide), if_pos trivial, dif_neg notZero]
  simp only [UnpackedFloat.finite.injEq, true_and]
  exact ⟨fraction, rfl⟩

/-- What is packed in the format is what it was. -/
theorem unpack_pack (canonical : Canonical mantissa exponent) (sign : Sign) :
    UnpackedFloat.unpack .binary64
        (UnpackedFloat.pack .binary64 (.finite sign mantissa exponent canonical.positive)) =
      .finite sign mantissa exponent canonical.positive := by
  obtain ⟨positive, small, least, most, full⟩ := canonical
  have biased : (exponent + Format.exponentBias .binary64 +
      (Format.mantissaBitsWithoutImplicit .binary64 : Nat)).toNat = (exponent + 1075).toNat := by
    show (exponent + 1023 + 52).toNat = _
    omega
  have inRange : ¬ 2 ^ Format.exponentBits .binary64 ≤ (exponent + 1075).toNat + 1 := by
    show ¬ 2048 ≤ (exponent + 1075).toNat + 1
    omega
  unfold UnpackedFloat.pack
  dsimp only
  rw [biased, if_neg inRange]
  by_cases normal : 2 ^ 52 ≤ mantissa
  · have bits : mantissa.log2 = 52 := (Nat.log2_eq_iff positive.ne').mpr ⟨normal, small⟩
    have same : ((exponent + 1075).toNat : Int) - 1075 = exponent := by omega
    rw [if_pos (show mantissa.log2 + 1 = Format.mantissaBits .binary64 from bits ▸ rfl)]
    have unpacked := unpack_normal (exponent + 1075).toNat (by omega) (by omega) normal small sign
    simpa only [same] using unpacked
  · have bits : mantissa.log2 + 1 ≠ Format.mantissaBits .binary64 := by
      have := (Nat.log2_lt positive.ne').mpr (not_le.mp normal)
      show mantissa.log2 + 1 ≠ 53
      omega
    rw [if_neg bits]
    obtain rfl : exponent = -1074 := full.resolve_left normal
    exact unpack_subnormal positive (not_le.mp normal) sign

/-- A finite float is unpacked to a mantissa and an exponent of the format. -/
theorem canonical_of_unpack {bits : BitVec 64} {sign : Sign} {positive : 0 < mantissa}
    (unpacked : UnpackedFloat.unpack .binary64 bits = .finite sign mantissa exponent positive) :
    Canonical mantissa exponent := by
  have fraction : (@UnpackedFloat.unpackMantissa .binary64 bits).toNat < 2 ^ 52 := BitVec.isLt _
  have biased : (@UnpackedFloat.unpackExponent .binary64 bits).toNat < 2 ^ 11 := BitVec.isLt _
  unfold UnpackedFloat.unpack at unpacked
  dsimp only at unpacked
  split at unpacked
  · split at unpacked <;> cases unpacked
  · rename_i notOnes
    split at unpacked
    · split at unpacked
      · cases unpacked
      · cases unpacked
        rename_i zero _
        refine ⟨positive, by omega, ?_, ?_, .inr ?_⟩
        all_goals rw [zero]; decide
    · rename_i notZero
      cases unpacked
      have whole : (1#1 ++ @UnpackedFloat.unpackMantissa .binary64 bits).toNat =
          2 ^ 52 + (@UnpackedFloat.unpackMantissa .binary64 bits).toNat := by
        rw [BitVec.toNat_append, ← Nat.shiftLeft_add_eq_or_of_lt fraction]
        rfl
      have positive : (@UnpackedFloat.unpackExponent .binary64 bits).toNat ≠ 0 :=
        fun zero => notZero (BitVec.eq_of_toNat_eq zero)
      have small : (@UnpackedFloat.unpackExponent .binary64 bits).toNat ≠ 2047 :=
        fun ones => notOnes (BitVec.eq_of_toNat_eq ones)
      rw [whole]
      refine ⟨by omega, by omega, ?_, ?_, .inl (by omega)⟩
      · show (-1074 : Int) ≤ _ - (1023 + 52)
        omega
      · show _ - (1023 + 52) ≤ (971 : Int)
        omega

/-! ## What a float stands for -/

/-- The number that an unpacked float stands for, zero unless it is finite. -/
def value : UnpackedFloat → ℚ
  | .finite sign mantissa exponent _ => sign.apply mantissa * 2 ^ exponent
  | _ => 0

def toRat (x : Float) : ℚ := value x.toModel.unpack

theorem apply_eq_mul (sign : Sign) (n : Nat) : (sign.apply n : ℚ) = sign.apply 1 * n := by
  cases sign <;> simp [Sign.apply]

theorem apply_div (sign sign' : Sign) : ((sign / sign').apply 1 : ℚ) = sign.apply 1 / sign'.apply 1 := by
  have divides : (sign / sign').apply 1 = sign.apply 1 * sign'.apply 1 := by
    cases sign <;> cases sign' <;> rfl
  rw [divides, Int.cast_mul]
  cases sign' <;> simp [Sign.apply, div_neg]

theorem abs_apply_one (sign : Sign) : |(sign.apply 1 : ℚ)| = 1 := by
  cases sign <;> simp [Sign.apply]

theorem Canonical.representable (canonical : Canonical mantissa exponent) (sign : Sign) :
    Representable (sign.apply mantissa * 2 ^ exponent) := by
  refine ⟨sign.apply mantissa, exponent, ?_, canonical.least, canonical.most, rfl⟩
  have small := canonical.small
  cases sign
  · show |(-mantissa : Int)| < 2 ^ 53
    rw [abs_neg, Nat.abs_cast]
    exact_mod_cast small
  · show |(mantissa : Int)| < 2 ^ 53
    rw [Nat.abs_cast]
    exact_mod_cast small

/-- What a float stands for is representable. -/
theorem representable_toRat (x : Float) : Representable (toRat x) := by
  unfold toRat
  cases unpacked : x.toModel.unpack with
  | finite sign mantissa exponent positive => exact (canonical_of_unpack unpacked).representable sign
  | zero _ | infinity _ | notANumber => exact representable_zero

/-- Whether a float is finite and no representable number is nearer to a given one. -/
structure Rounds (x : Float) (exact : ℚ) : Prop where
  isFinite : Scalar.isFinite x = true
  nearest : Nearest (toRat x) exact

/-- A finite float is nearest to its own number. -/
theorem Rounds.of_toRat {x : Float} {q : ℚ} (finite : Scalar.isFinite x = true) (same : toRat x = q) :
    Rounds x q :=
  ⟨finite, same ▸ .refl (representable_toRat x)⟩

/-! ## Rounding a mantissa -/

/-- The exponent that leaves 53 bits, unless it is too small. -/
theorem targetExponent_eq (mantissa : Nat) (exponent : Int) :
    Format.binary64.targetExponent (totalExponent mantissa exponent) =
      max ((mantissa.log2 : Int) + 1 + exponent - 53) (-1074) := rfl

theorem shiftToTargetExponent_exact (small : mantissa < 2 ^ 53) (least : -1074 ≤ exponent) :
    UnpackedFloat.shiftToTargetExponent .binary64 mantissa exponent .exact =
      (⟨mantissa, false, false⟩, exponent) := by
  have bits : mantissa.log2 ≤ 52 := by
    rcases Nat.eq_zero_or_pos mantissa with rfl | positive
    · decide
    · have := (Nat.log2_lt positive.ne').mpr small
      omega
  have shift : (Format.binary64.targetExponent (totalExponent mantissa exponent) - exponent).toNat = 0 := by
    rw [targetExponent_eq]
    omega
  simp only [UnpackedFloat.shiftToTargetExponent, UnpackedFloat.shiftToExponent, shift]
  simp [HShiftRight.hShiftRight, Nat.repeat, ExtendedMantissa.ofMantissaAndAccuracy]

theorem shiftToTargetExponent_full (least : -1074 ≤ exponent) :
    UnpackedFloat.shiftToTargetExponent .binary64 (2 ^ 53) exponent .exact =
      (⟨2 ^ 52, false, false⟩, exponent + 1) := by
  have shift : (Format.binary64.targetExponent (totalExponent (2 ^ 53) exponent) - exponent).toNat = 1 := by
    rw [targetExponent_eq, Nat.log2_two_pow]
    omega
  simp only [UnpackedFloat.shiftToTargetExponent, UnpackedFloat.shiftToExponent, shift]
  rfl

/-- The float of a rounded mantissa; one of one bit more is halved. -/
def ofRounded (sign : Sign) (rounded : Nat) (target : Int) : UnpackedFloat :=
  if zero : rounded = 0 then .zero sign
  else if rounded < 2 ^ 53 then .finite sign rounded target (Nat.pos_of_ne_zero zero)
  else .finite sign (2 ^ 52) (target + 1) (by decide)

theorem roundWithAccuracy_eq {accuracy : Accuracy} {extended : ExtendedMantissa}
    {target : Int} (sign : Sign)
    (shifted : UnpackedFloat.shiftToTargetExponent .binary64 mantissa exponent accuracy = (extended, target))
    (small : extended.roundedMantissa ≤ 2 ^ 53) (least : -1074 ≤ target) :
    UnpackedFloat.roundWithAccuracy .binary64 sign mantissa exponent accuracy =
      ofRounded sign extended.roundedMantissa target := by
  rw [UnpackedFloat.roundWithAccuracy, shifted]
  unfold ofRounded
  dsimp only
  generalize extended.roundedMantissa = rounded at small
  rcases lt_or_eq_of_le small with below | full
  · rw [shiftToTargetExponent_exact below least]
    simp only [below, if_true]
  · subst full
    rw [shiftToTargetExponent_full least, dif_neg (Nat.two_pow_pos 52).ne', dif_neg (Nat.two_pow_pos 53).ne',
      if_neg (lt_irrefl _)]

/-- A packed mantissa stands for itself. -/
theorem toRat_pack (canonical : Canonical mantissa exponent) (sign : Sign) :
    Scalar.isFinite (Float.ofModel (pack (.finite sign mantissa exponent canonical.positive))) = true ∧
      toRat (Float.ofModel (pack (.finite sign mantissa exponent canonical.positive))) =
        sign.apply mantissa * 2 ^ exponent := by
  have unpacked : (pack (.finite sign mantissa exponent canonical.positive)).unpack =
      .finite sign mantissa exponent canonical.positive := unpack_pack canonical sign
  constructor
  · show (pack _).unpack.isFinite = true
    rw [unpacked]
    rfl
  · show value (pack _).unpack = _
    rw [unpacked]
    rfl

theorem isInf_pack (positive : 0 < mantissa) (large : 971 < exponent) (sign : Sign) :
    (Float.ofModel (pack (.finite sign mantissa exponent positive))).isInf = true := by
  have outside : 2 ^ Format.exponentBits .binary64 ≤ (exponent + Format.exponentBias .binary64 +
      (Format.mantissaBitsWithoutImplicit .binary64 : Nat)).toNat + 1 := by
    show 2048 ≤ (exponent + 1023 + 52).toNat + 1
    omega
  have packed : UnpackedFloat.pack .binary64 (.finite sign mantissa exponent positive) =
      UnpackedFloat.packedInfinity .binary64 sign := by
    unfold UnpackedFloat.pack
    dsimp only
    rw [if_pos outside]
  show (UnpackedFloat.unpack .binary64 (UnpackedFloat.pack .binary64 _)).isInf = true
  rw [packed]
  cases sign <;> rfl

/-- In units of the target exponent a number has at most 53 bits, all of them unless that is the least. -/
theorem Locates.target {accuracy : Accuracy} {exact : ℚ}
    (locates : Locates (.ofMantissaAndAccuracy mantissa accuracy) (exact / 2 ^ exponent))
    (fine : exponent ≤ Format.binary64.targetExponent (totalExponent mantissa exponent)) :
    exact < 2 ^ (Format.binary64.targetExponent (totalExponent mantissa exponent) + 53) ∧
      (Format.binary64.targetExponent (totalExponent mantissa exponent) = -1074 ∨
        2 ^ (Format.binary64.targetExponent (totalExponent mantissa exponent) + 52) ≤ exact) := by
  have unit := zpow_pos_two exponent
  have base : (1 : ℚ) ≤ 2 := by norm_num
  have same : (ExtendedMantissa.ofMantissaAndAccuracy mantissa accuracy).mantissa = mantissa := by
    cases accuracy with
    | exact => rfl
    | inexact order => cases order <;> rfl
  obtain ⟨lower, upper⟩ := locates.bounds
  rw [same, le_div_iff₀ unit] at lower
  rw [same, div_lt_iff₀ unit] at upper
  rw [targetExponent_eq] at fine ⊢
  constructor
  · calc exact < (mantissa + 1) * 2 ^ exponent := upper
      _ ≤ 2 ^ ((mantissa.log2 : Int) + 1) * 2 ^ exponent := by
        refine mul_le_mul_of_nonneg_right ?_ unit.le
        exact_mod_cast Nat.lt_log2_self (n := mantissa)
      _ = 2 ^ ((mantissa.log2 : Int) + 1 + exponent) := (zpow_add₀ two_ne_zero _ _).symm
      _ ≤ _ := zpow_le_zpow_right₀ base (by omega)
  · by_cases least : max ((mantissa.log2 : Int) + 1 + exponent - 53) (-1074) = -1074
    · exact .inl least
    · -- the mantissa has a bit, as it is not to be shifted to the left
      have nonzero : mantissa ≠ 0 := by
        rintro rfl
        rw [show Nat.log2 0 = 0 from by decide] at fine least
        omega
      refine .inr ?_
      calc (2 : ℚ) ^ (max ((mantissa.log2 : Int) + 1 + exponent - 53) (-1074) + 52)
          = 2 ^ ((mantissa.log2 : Int) + exponent) := by congr 1; omega
        _ = 2 ^ (mantissa.log2 : Int) * 2 ^ exponent := zpow_add₀ two_ne_zero _ _
        _ ≤ mantissa * 2 ^ exponent := by
          refine mul_le_mul_of_nonneg_right ?_ unit.le
          exact_mod_cast Nat.log2_self_le nonzero
        _ ≤ exact := lower

theorem toRat_zero (sign : Sign) : Scalar.isFinite (Float.ofModel (pack (.zero sign))) = true ∧
    toRat (Float.ofModel (pack (.zero sign))) = 0 := by
  cases sign <;> exact ⟨rfl, rfl⟩

/-- Whether a mantissa and an exponent are those to which a number is rounded, of whatever size it is. -/
structure Rounded (exact : ℚ) (rounded : Nat) (target : Int) : Prop where
  small : rounded ≤ 2 ^ 53
  least : -1074 ≤ target
  full : 2 ^ 52 ≤ rounded ∨ target = -1074
  large : target = -1074 ∨ 2 ^ (target + 52) ≤ exact
  close : |rounded * 2 ^ target - exact| ≤ 2 ^ target / 2

/-- Where a mantissa and its accuracy locate a number, it is this number that is rounded. -/
theorem exists_rounded {accuracy : Accuracy} {exact : ℚ}
    (locates : Locates (.ofMantissaAndAccuracy mantissa accuracy) (exact / 2 ^ exponent))
    (fine : exponent ≤ Format.binary64.targetExponent (totalExponent mantissa exponent)) :
    ∃ rounded target, Rounded exact rounded target ∧ ∀ sign,
      UnpackedFloat.roundWithAccuracy .binary64 sign mantissa exponent accuracy =
        ofRounded sign rounded target := by
  obtain ⟨upper, lower⟩ := locates.target fine
  have least : -1074 ≤ Format.binary64.targetExponent (totalExponent mantissa exponent) := by
    rw [targetExponent_eq]
    omega
  obtain ⟨target, isTarget⟩ : ∃ t, t = Format.binary64.targetExponent (totalExponent mantissa exponent) :=
    ⟨_, rfl⟩
  rw [← isTarget] at upper lower least fine
  obtain ⟨n, isSum⟩ := Int.le.dest fine
  have shifted : UnpackedFloat.shiftToTargetExponent .binary64 mantissa exponent accuracy =
      (ExtendedMantissa.ofMantissaAndAccuracy mantissa accuracy >>> n, target) := by
    have amount : (target - exponent).toNat = n := by omega
    simp only [UnpackedFloat.shiftToTargetExponent, UnpackedFloat.shiftToExponent, ← isTarget, amount, isSum]
  have located : Locates (ExtendedMantissa.ofMantissaAndAccuracy mantissa accuracy >>> n)
      (exact / 2 ^ target) := by
    rw [← isSum, zpow_add₀ two_ne_zero, zpow_natCast, ← div_div]
    exact locates.shiftRight n
  generalize ExtendedMantissa.ofMantissaAndAccuracy mantissa accuracy >>> n = extended at shifted located
  have unit := zpow_pos_two target
  -- rounding up may carry into one bit more, so the bound is not strict
  have small : extended.roundedMantissa ≤ 2 ^ 53 := by
    have below : (extended.mantissa : ℚ) < 2 ^ 53 := by
      refine located.bounds.1.trans_lt ?_
      rw [div_lt_iff₀ unit]
      rwa [add_comm, zpow_add₀ two_ne_zero] at upper
    have below : extended.mantissa < 2 ^ 53 := by exact_mod_cast below
    have := (Locates.roundedMantissa_le extended).2
    omega
  have full : 2 ^ 52 ≤ extended.roundedMantissa ∨ target = -1074 := by
    refine lower.symm.imp_left fun lower => ?_
    have above : (2 : ℚ) ^ 52 < extended.mantissa + 1 := by
      refine lt_of_le_of_lt ?_ located.bounds.2
      rw [le_div_iff₀ unit]
      rwa [add_comm, zpow_add₀ two_ne_zero] at lower
    have above : 2 ^ 52 < extended.mantissa + 1 := by exact_mod_cast above
    have := (Locates.roundedMantissa_le extended).1
    omega
  have close : |extended.roundedMantissa * 2 ^ target - exact| ≤ 2 ^ target / 2 := by
    have scaled : extended.roundedMantissa * 2 ^ target - exact =
        (extended.roundedMantissa - exact / 2 ^ target) * 2 ^ target := by
      field_simp
    rw [scaled, abs_mul, abs_of_pos unit]
    linarith [mul_le_mul_of_nonneg_right located.close unit.le]
  exact ⟨_, target, ⟨small, least, full, lower, close⟩,
    fun sign => roundWithAccuracy_eq sign shifted small least⟩

namespace Rounded

variable {exact : ℚ} {rounded : Nat} {target : Int} (isRounded : Rounded exact rounded target)
include isRounded

theorem nearest (most : target ≤ 970) : Nearest (rounded * 2 ^ target) exact := by
  have small : |(rounded : Int)| ≤ 2 ^ 53 := by
    rw [Nat.abs_cast]
    exact_mod_cast isRounded.small
  have representable : Representable ((rounded : Int) * 2 ^ target) :=
    representable_mul_zpow small isRounded.least most
  exact nearest_of_multiple representable isRounded.close isRounded.large

/-- Unless the exponent is too large, the float stands for the rounded number. -/
theorem toRat_eq (most : target ≤ 970) (sign : Sign) :
    Scalar.isFinite (Float.ofModel (pack (ofRounded sign rounded target))) = true ∧
      toRat (Float.ofModel (pack (ofRounded sign rounded target))) = sign.apply rounded * 2 ^ target := by
  obtain ⟨small, least, full, -, -⟩ := isRounded
  unfold ofRounded
  split
  · rename_i zero
    obtain ⟨isFinite, same⟩ := toRat_zero sign
    refine ⟨isFinite, ?_⟩
    rw [same, zero]
    cases sign <;> simp [Sign.apply]
  · rename_i nonzero
    split
    · rename_i below
      exact toRat_pack ⟨Nat.pos_of_ne_zero nonzero, below, least, by omega, full⟩ sign
    · have whole : rounded = 2 ^ 53 := by omega
      have canonical : Canonical (2 ^ 52) (target + 1) :=
        ⟨by norm_num, by norm_num, by omega, by omega, .inl le_rfl⟩
      obtain ⟨isFinite, same⟩ := toRat_pack canonical sign
      refine ⟨isFinite, ?_⟩
      rw [same, whole, zpow_add_one₀ two_ne_zero]
      cases sign <;> simp only [Sign.apply] <;> push_cast <;> ring

theorem rounds (most : exact < 2 ^ (1023 : ℤ)) (sign : Sign) :
    Rounds (Float.ofModel (pack (ofRounded sign rounded target))) (sign.apply 1 * exact) := by
  have most : target ≤ 970 := by
    rcases isRounded.large with rfl | lower
    · decide
    · have := (zpow_lt_zpow_iff_right₀ (by norm_num : (1 : ℚ) < 2)).mp (lower.trans_lt most)
      omega
  obtain ⟨isFinite, same⟩ := isRounded.toRat_eq most sign
  refine ⟨isFinite, ?_⟩
  rw [same]
  have nearest := isRounded.nearest most
  cases sign with
  | positive => simpa [Sign.apply] using nearest
  | negative => simpa [Sign.apply] using nearest.neg

/-- A number that is too large is rounded to an infinite float. -/
theorem isFinite_or_isInf (sign : Sign) :
    Scalar.isFinite (Float.ofModel (pack (ofRounded sign rounded target))) = true ∨
      (Float.ofModel (pack (ofRounded sign rounded target))).isInf = true := by
  by_cases most : target ≤ 970
  · exact .inl (isRounded.toRat_eq most sign).1
  obtain ⟨small, least, full, -, -⟩ := isRounded
  unfold ofRounded
  split
  · omega
  · rename_i nonzero
    split
    · rename_i below
      by_cases largest : target = 971
      · exact .inl (toRat_pack ⟨Nat.pos_of_ne_zero nonzero, below, least, by omega, full⟩ sign).1
      · exact .inr (isInf_pack _ (by omega) sign)
    · exact .inr (isInf_pack _ (by omega) sign)

end Rounded

/-- Where a mantissa and its accuracy locate a number, the rounded float is nearest to it. -/
theorem rounds_roundWithAccuracy {accuracy : Accuracy} {exact : ℚ}
    (locates : Locates (.ofMantissaAndAccuracy mantissa accuracy) (exact / 2 ^ exponent))
    (fine : exponent ≤ Format.binary64.targetExponent (totalExponent mantissa exponent))
    (most : exact < 2 ^ (1023 : ℤ)) (sign : Sign) :
    Rounds (Float.ofModel (pack (UnpackedFloat.roundWithAccuracy .binary64 sign mantissa exponent accuracy)))
      (sign.apply 1 * exact) := by
  obtain ⟨rounded, target, isRounded, same⟩ := exists_rounded locates fine
  rw [same]
  exact isRounded.rounds most sign

theorem log2_shiftLeft (positive : 0 < mantissa) (shift : Nat) :
    (mantissa <<< shift).log2 = mantissa.log2 + shift := by
  rw [Nat.shiftLeft_eq, Nat.log2_eq_iff (by positivity), pow_add, Nat.add_right_comm, pow_add]
  exact ⟨Nat.mul_le_mul_right _ (Nat.log2_self_le positive.ne'),
    Nat.mul_lt_mul_of_pos_right Nat.lt_log2_self (Nat.two_pow_pos _)⟩

/-- A whole number of units is rounded to a nearest float. -/
theorem rounds_round (positive : 0 < mantissa) (most : (mantissa * 2 ^ exponent : ℚ) < 2 ^ (1023 : ℤ))
    (sign : Sign) :
    Rounds (Float.ofModel (pack (UnpackedFloat.round .binary64 sign mantissa exponent)))
      (sign.apply mantissa * 2 ^ exponent) := by
  obtain ⟨shift, isShift⟩ : ∃ n, n = (exponent - Format.binary64.targetExponent
    (totalExponent mantissa exponent)).toNat := ⟨_, rfl⟩
  have locates : Locates (.ofMantissaAndAccuracy (mantissa <<< shift) .exact)
      (mantissa * 2 ^ exponent / 2 ^ (exponent - shift)) := by
    show _ = ((mantissa <<< shift : Nat) : ℚ)
    rw [Nat.shiftLeft_eq, zpow_sub₀ two_ne_zero, zpow_natCast]
    push_cast
    field_simp
  have fine : exponent - shift ≤ Format.binary64.targetExponent
      (totalExponent (mantissa <<< shift) (exponent - shift)) := by
    rw [targetExponent_eq] at isShift ⊢
    rw [log2_shiftLeft positive]
    omega
  have rounds := rounds_roundWithAccuracy locates fine most sign
  rw [apply_eq_mul, mul_assoc, UnpackedFloat.round]
  dsimp only [UnpackedFloat.decreaseExponent]
  rwa [← isShift]

theorem rounds_normalize {mantissa : Int} (most : |(mantissa * 2 ^ exponent : ℚ)| < 2 ^ (1023 : ℤ))
    (zeroSign : Sign) :
    Rounds (Float.ofModel (pack (UnpackedFloat.normalize .binary64 mantissa exponent zeroSign)))
      (mantissa * 2 ^ exponent) := by
  have unit := zpow_pos_two exponent
  rw [abs_mul, abs_of_pos unit] at most
  rcases lt_trichotomy mantissa 0 with negative | rfl | positive
  · obtain ⟨n, rfl⟩ : ∃ n : Nat, mantissa = -n := ⟨mantissa.natAbs, by omega⟩
    have below : (n * 2 ^ exponent : ℚ) < 2 ^ (1023 : ℤ) := by simpa using most
    have rounds := rounds_round (by omega : 0 < n) below .negative
    simp only [UnpackedFloat.normalize, compare_lt_iff_lt.mpr negative, neg_neg, Int.toNat_natCast]
    exact rounds
  · obtain ⟨isFinite, same⟩ := toRat_zero zeroSign
    rw [Int.cast_zero, zero_mul]
    exact .of_toRat isFinite same
  · obtain ⟨n, rfl⟩ : ∃ n : Nat, mantissa = n := ⟨mantissa.natAbs, by omega⟩
    have below : (n * 2 ^ exponent : ℚ) < 2 ^ (1023 : ℤ) := by simpa using most
    have rounds := rounds_round (by omega : 0 < n) below .positive
    simp only [UnpackedFloat.normalize, compare_gt_iff_gt.mpr positive, Int.toNat_natCast]
    exact rounds

/-! ## Arithmetic -/

variable {x y : Float}

/-- A finite float is zero or unpacked to a mantissa and an exponent. -/
theorem unpack_of_isFinite (isFinite : Scalar.isFinite x = true) :
    (∃ sign, x.toModel.unpack = .zero sign) ∨
      ∃ sign mantissa exponent positive, x.toModel.unpack = .finite sign mantissa exponent positive := by
  have isFinite : x.toModel.unpack.isFinite = true := isFinite
  cases unpacked : x.toModel.unpack with
  | zero sign => exact .inl ⟨sign, rfl⟩
  | finite sign mantissa exponent positive => exact .inr ⟨sign, mantissa, exponent, positive, rfl⟩
  | infinity _ | notANumber =>
    rw [unpacked] at isFinite
    cases isFinite

/-- A float that is unpacked and packed again stands for the same number. -/
theorem rounds_unpack {sign : Sign} {positive : 0 < mantissa}
    (unpacked : x.toModel.unpack = .finite sign mantissa exponent positive) :
    Rounds (Float.ofModel (pack (.finite sign mantissa exponent positive)))
      (value (.finite sign mantissa exponent positive)) := by
  obtain ⟨isFinite, same⟩ := toRat_pack (canonical_of_unpack unpacked) sign
  exact .of_toRat isFinite same

theorem decreaseExponent_value {target : Int} (below : target ≤ exponent) (sign : Sign) :
    (sign.apply (UnpackedFloat.decreaseExponent mantissa exponent target).1 : ℚ) * 2 ^ target =
      sign.apply mantissa * 2 ^ exponent := by
  obtain ⟨shift, rfl⟩ := Int.le.dest below
  have amount : (target + shift - target).toNat = shift := by omega
  simp only [UnpackedFloat.decreaseExponent, amount, Nat.shiftLeft_eq]
  rw [zpow_add₀ two_ne_zero, zpow_natCast]
  cases sign <;> simp only [Sign.apply] <;> push_cast <;> ring

/-- The sum of two floats is a nearest one, unless it is too large. -/
theorem rounds_add (isFinite : Scalar.isFinite x = true) (isFinite' : Scalar.isFinite y = true)
    (most : |toRat x + toRat y| < 2 ^ (1023 : ℤ)) : Rounds (x + y) (toRat x + toRat y) := by
  have sum : x + y =
    Float.ofModel (pack (UnpackedFloat.add .binary64 x.toModel.unpack y.toModel.unpack)) := rfl
  rw [sum]
  unfold toRat at most ⊢
  rcases unpack_of_isFinite isFinite with ⟨sign, unpacked⟩ | ⟨sign, mantissa, exponent, positive, unpacked⟩ <;>
    rcases unpack_of_isFinite isFinite' with
      ⟨sign', unpacked'⟩ | ⟨sign', mantissa', exponent', positive', unpacked'⟩ <;>
    rw [unpacked, unpacked'] at most ⊢
  · have zero : value (.zero sign) + value (.zero sign') = 0 := add_zero 0
    rw [zero]
    have sums : ∃ s, UnpackedFloat.add .binary64 (.zero sign) (.zero sign') = .zero s := by
      cases sign <;> cases sign' <;> exact ⟨_, rfl⟩
    obtain ⟨s, sums⟩ := sums
    obtain ⟨isFinite, same⟩ := toRat_zero s
    rw [sums]
    exact .of_toRat isFinite same
  · exact (zero_add (value (.finite sign' mantissa' exponent' positive'))).symm ▸ rounds_unpack unpacked'
  · exact (add_zero (value (.finite sign mantissa exponent positive))).symm ▸ rounds_unpack unpacked
  · have aligned : value (.finite sign mantissa exponent positive) +
        value (.finite sign' mantissa' exponent' positive') =
        ((sign.apply (UnpackedFloat.decreaseExponent mantissa exponent (min exponent exponent')).1 +
          sign'.apply (UnpackedFloat.decreaseExponent mantissa' exponent' (min exponent exponent')).1 :
            Int) : ℚ) * 2 ^ min exponent exponent' := by
      push_cast
      rw [add_mul, decreaseExponent_value (min_le_left ..), decreaseExponent_value (min_le_right ..)]
      rfl
    rw [aligned] at most ⊢
    exact rounds_normalize most .positive

/-- The whole part of a fraction and the comparison of its rest with a half locate the fraction. -/
theorem locates_div (numerator : Nat) {denominator : Nat} (positive : 0 < denominator) :
    Locates (.ofMantissaAndAccuracy (numerator / denominator)
      (UnpackedFloat.accuracyOfFraction (numerator % denominator) denominator))
      (numerator / denominator) := by
  have below := Nat.mod_lt numerator positive
  have split : (numerator : ℚ) = denominator * (numerator / denominator : Nat) +
      (numerator % denominator : Nat) := by
    exact_mod_cast (Nat.div_add_mod numerator denominator).symm
  have whole : (0 : ℚ) < denominator := by exact_mod_cast positive
  rw [split]
  generalize numerator / denominator = quotient
  generalize numerator % denominator = rest at below
  have below : (rest : ℚ) < denominator := by exact_mod_cast below
  rw [add_div, mul_div_cancel_left₀ _ whole.ne']
  unfold UnpackedFloat.accuracyOfFraction
  split
  · rename_i zero
    simp [zero, ExtendedMantissa.ofMantissaAndAccuracy, Locates]
  · rename_i nonzero
    have positive : (0 : ℚ) < rest := by exact_mod_cast Nat.pos_of_ne_zero nonzero
    have fraction : (0 : ℚ) < rest / denominator := div_pos positive whole
    have proper : (rest / denominator : ℚ) < 1 := (div_lt_one whole).mpr below
    rcases lt_trichotomy (2 * rest) denominator with less | half | more
    · rw [compare_lt_iff_lt.mpr less]
      have less : (rest / denominator : ℚ) < 1 / 2 := by
        rw [div_lt_div_iff₀ whole two_pos]
        exact_mod_cast (by omega : rest * 2 < 1 * denominator)
      show (quotient : ℚ) < quotient + rest / denominator ∧
        quotient + rest / denominator < (quotient : ℚ) + 1 / 2
      constructor <;> linarith
    · rw [compare_eq_iff_eq.mpr half]
      have half : (rest / denominator : ℚ) = 1 / 2 := by
        rw [div_eq_div_iff whole.ne' two_ne_zero]
        exact_mod_cast (by omega : rest * 2 = 1 * denominator)
      rw [half]
      rfl
    · rw [compare_gt_iff_gt.mpr more]
      have more : 1 / 2 < (rest / denominator : ℚ) := by
        rw [div_lt_div_iff₀ two_pos whole]
        exact_mod_cast (by omega : 1 * denominator < rest * 2)
      show (quotient : ℚ) + 1 / 2 < quotient + rest / denominator ∧
        quotient + rest / denominator < (quotient : ℚ) + 1
      constructor <;> linarith

/-- The quotient of two mantissas has 53 bits, unless its exponent is too small. -/
theorem le_targetExponent_div {shift mantissa' : Nat} {target : Int} (positive : 0 < mantissa)
    (positive' : 0 < mantissa') (bits : -1074 < target → mantissa'.log2 + 53 ≤ mantissa.log2 + shift) :
    target ≤ Format.binary64.targetExponent (totalExponent (mantissa <<< shift / mantissa') target) := by
  rw [targetExponent_eq]
  by_cases small : target ≤ -1074
  · omega
  have bits := bits (by omega)
  have long : 2 ^ 52 ≤ mantissa <<< shift / mantissa' := by
    rw [Nat.le_div_iff_mul_le positive', Nat.shiftLeft_eq]
    calc 2 ^ 52 * mantissa' ≤ 2 ^ 52 * 2 ^ (mantissa'.log2 + 1) :=
          Nat.mul_le_mul_left _ Nat.lt_log2_self.le
      _ = 2 ^ (mantissa'.log2 + 53) := by rw [← pow_add]; congr 1; omega
      _ ≤ 2 ^ (mantissa.log2 + shift) := Nat.pow_le_pow_right two_pos bits
      _ = 2 ^ mantissa.log2 * 2 ^ shift := pow_add ..
      _ ≤ mantissa * 2 ^ shift := Nat.mul_le_mul_right _ (Nat.log2_self_le positive.ne')
  have nonzero : mantissa <<< shift / mantissa' ≠ 0 := by
    have := Nat.two_pow_pos 52
    omega
  have := (Nat.le_log2 nonzero).mpr long
  omega

/-- The quotient of two floats is a nearest one, unless it is too large. -/
theorem rounds_div (isFinite : Scalar.isFinite x = true) (isFinite' : Scalar.isFinite y = true)
    (nonzero : toRat y ≠ 0) (most : |toRat x / toRat y| < 2 ^ (1023 : ℤ)) :
    Rounds (x / y) (toRat x / toRat y) := by
  have quotient : x / y =
    Float.ofModel (pack (UnpackedFloat.div .binary64 x.toModel.unpack y.toModel.unpack)) := rfl
  rw [quotient]
  unfold toRat at most nonzero ⊢
  rcases unpack_of_isFinite isFinite' with ⟨_, unpacked'⟩ | ⟨sign', mantissa', exponent', positive', unpacked'⟩
  · rw [unpacked'] at nonzero
    exact absurd rfl nonzero
  rcases unpack_of_isFinite isFinite with ⟨sign, unpacked⟩ | ⟨sign, mantissa, exponent, positive, unpacked⟩ <;>
    rw [unpacked, unpacked'] at most ⊢
  · rw [show value (.zero sign) = 0 from rfl, zero_div]
    obtain ⟨isFinite, same⟩ := toRat_zero (sign / sign')
    exact .of_toRat isFinite same
  · have signs : value (.finite sign mantissa exponent positive) /
        value (.finite sign' mantissa' exponent' positive') =
        (sign / sign').apply 1 * (mantissa * 2 ^ exponent / (mantissa' * 2 ^ exponent')) := by
      rw [apply_div, value, value, apply_eq_mul sign, apply_eq_mul sign', div_mul_div_comm, mul_assoc,
        mul_assoc]
    have fraction : (0 : ℚ) < mantissa * 2 ^ exponent / (mantissa' * 2 ^ exponent') := by
      have : (0 : ℚ) < mantissa := by exact_mod_cast positive
      have : (0 : ℚ) < mantissa' := by exact_mod_cast positive'
      positivity
    rw [signs] at most ⊢
    have most : (mantissa * 2 ^ exponent / (mantissa' * 2 ^ exponent') : ℚ) < 2 ^ (1023 : ℤ) := by
      rwa [abs_mul, abs_apply_one, one_mul, abs_of_pos fraction] at most
    -- the dividend is shifted so far that the quotient has at least the bits that are kept
    obtain ⟨target, isTarget⟩ : ∃ t, t = min (exponent - exponent') (Format.binary64.targetExponent
      (totalExponent mantissa exponent - totalExponent mantissa' exponent')) := ⟨_, rfl⟩
    have isBounded : target ≤ max (mantissa.log2 + exponent - (mantissa'.log2 + exponent') - 53) (-1074) := by
      have below : target ≤ max ((mantissa.log2 : Int) + 1 + exponent - (mantissa'.log2 + 1 + exponent') - 53)
          (-1074) := isTarget ▸ min_le_right ..
      omega
    obtain ⟨shift, isShift⟩ := Int.le.dest (isTarget ▸ min_le_left .. : target ≤ exponent - exponent')
    have amount : (exponent - exponent' - target).toNat = shift := by omega
    have divides : UnpackedFloat.div .binary64 (.finite sign mantissa exponent positive)
        (.finite sign' mantissa' exponent' positive') =
        UnpackedFloat.roundWithAccuracy .binary64 (sign / sign') (mantissa <<< shift / mantissa') target
          (UnpackedFloat.accuracyOfFraction (mantissa <<< shift % mantissa') mantissa') := by
      rw [← amount, isTarget]
      rfl
    rw [divides]
    refine rounds_roundWithAccuracy ?_ (le_targetExponent_div positive positive' fun _ => by omega) most _
    have same : (mantissa * 2 ^ exponent / (mantissa' * 2 ^ exponent') / 2 ^ target : ℚ) =
        (mantissa <<< shift : Nat) / mantissa' := by
      have isSum : exponent = exponent' + target + shift := by omega
      rw [isSum, zpow_add₀ two_ne_zero, zpow_add₀ two_ne_zero, zpow_natCast, Nat.shiftLeft_eq]
      have := zpow_pos_two exponent'
      have := zpow_pos_two target
      push_cast
      field_simp
    rw [same]
    exact locates_div _ positive'

/-- Nothing is rounded where zero is subtracted. -/
theorem toRat_sub_zero (isFinite : Scalar.isFinite x = true) (isFinite' : Scalar.isFinite y = true)
    (zero : toRat y = 0) : Scalar.isFinite (x - y) = true ∧ toRat (x - y) = toRat x := by
  have difference : x - y =
    Float.ofModel (pack (UnpackedFloat.sub .binary64 x.toModel.unpack y.toModel.unpack)) := rfl
  rw [difference]
  unfold toRat at zero ⊢
  rcases unpack_of_isFinite isFinite' with
    ⟨sign', unpacked'⟩ | ⟨sign', mantissa', exponent', positive', unpacked'⟩
  · rcases unpack_of_isFinite isFinite with
      ⟨sign, unpacked⟩ | ⟨sign, mantissa, exponent, positive, unpacked⟩ <;>
      rw [unpacked, unpacked']
    · cases sign <;> cases sign' <;> exact ⟨rfl, rfl⟩
    · exact toRat_pack (canonical_of_unpack unpacked) sign
  · rw [unpacked', value, apply_eq_mul] at zero
    have whole : (mantissa' : ℚ) ≠ 0 := by exact_mod_cast positive'.ne'
    have unit := (zpow_pos_two exponent').ne'
    have sign := abs_pos.mp ((abs_apply_one sign').symm ▸ one_pos)
    exact absurd zero (mul_ne_zero (mul_ne_zero sign whole) unit)

/-! ## Whole parts -/

theorem roundToInt_positive (mantissa : Nat) (exponent : Int) :
    UnpackedFloat.roundToInt .positive mantissa exponent = ⌊(mantissa * 2 ^ exponent : ℚ)⌋₊ := by
  obtain ⟨lower, isLower⟩ : ∃ e, e = exponent - ((exponent - 0).toNat : Int) := ⟨_, rfl⟩
  obtain ⟨shift, isShift⟩ : ∃ n, n = (0 - lower).toNat := ⟨_, rfl⟩
  obtain ⟨whole, isWhole⟩ : ∃ m, m = mantissa <<< (exponent - 0).toNat := ⟨_, rfl⟩
  have rounded : UnpackedFloat.roundToInt .positive mantissa exponent =
      (ExtendedMantissa.ofMantissaAndAccuracy whole .exact >>> shift).mantissa := by
    rw [isShift, isLower, isWhole]
    rfl
  have exact : (mantissa * 2 ^ exponent : ℚ) = whole / 2 ^ shift := by
    rw [isWhole, Nat.shiftLeft_eq]
    push_cast
    have amounts : exponent = ((exponent - 0).toNat : Int) - shift := by omega
    nth_rewrite 1 [amounts]
    rw [zpow_sub₀ two_ne_zero, zpow_natCast, zpow_natCast, mul_div_assoc]
  have located : Locates (ExtendedMantissa.ofMantissaAndAccuracy whole .exact >>> shift)
      (whole / 2 ^ shift : ℚ) := by
    have unshifted : Locates (.ofMantissaAndAccuracy whole .exact) whole := rfl
    exact unshifted.shiftRight shift
  obtain ⟨least, most⟩ := located.bounds
  rw [rounded, exact, (Nat.floor_eq_iff (by positivity)).mpr ⟨least, most⟩]

/-- The whole part of a float is that of the number it stands for. -/
theorem count_eq_floor (isFinite : Scalar.isFinite x = true) (nonneg : 0 ≤ toRat x)
    (most : toRat x < 2 ^ 64) : Scalar.count x = ⌊toRat x⌋₊ := by
  show (UInt64.ofNatClamp (x.toModel.unpack.toInt 0 (UInt64.size - 1)).toNat).toNat = _
  unfold toRat at nonneg most ⊢
  rcases unpack_of_isFinite isFinite with ⟨sign, unpacked⟩ | ⟨sign, mantissa, exponent, positive, unpacked⟩ <;>
    rw [unpacked] at nonneg most ⊢
  · rw [show value (.zero sign) = 0 from rfl, Nat.floor_zero]
    rfl
  · have isPositive : sign = .positive := by
      cases sign with
      | positive => rfl
      | negative =>
        have size : (0 : ℚ) < mantissa * 2 ^ exponent :=
          mul_pos (by exact_mod_cast positive) (zpow_pos_two exponent)
        have negative : value (.finite .negative mantissa exponent positive) = -(mantissa * 2 ^ exponent) := by
          simp [value, Sign.apply]
        linarith
    subst isPositive
    have below : ⌊(mantissa * 2 ^ exponent : ℚ)⌋₊ < UInt64.size :=
      (Nat.floor_lt nonneg).mpr (by exact_mod_cast most)
    show (UInt64.ofNatClamp (UnpackedFloat.roundToInt .positive mantissa exponent).toNat).toNat = _
    rw [roundToInt_positive, Int.toNat_natCast, UInt64.ofNatClamp, dif_pos below]
    rfl

end StockFlow.Double
