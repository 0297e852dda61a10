import StockFlow.Proofs.Doubles

/-!
# Numerals

The value of a number token is a finite float. A significand of at most 64 bits is divided by powers of ten,
none of which is less than one, or it is multiplied by one if the product is not too large.
-/

namespace StockFlow.Double

open Float.Model
open Float.Model.UnpackedFloat (Sign)

variable {x y : Float}

theorem isFinite_neg (isFinite : Scalar.isFinite x = true) : Scalar.isFinite (-x) = true := by
  have negated : -x = Float.ofModel (pack (UnpackedFloat.neg x.toModel.unpack)) := rfl
  rw [negated]
  rcases unpack_of_isFinite isFinite with ⟨sign, unpacked⟩ | ⟨sign, mantissa, exponent, positive, unpacked⟩ <;>
    rw [unpacked]
  · exact (toRat_zero (-sign)).1
  · exact (toRat_pack (canonical_of_unpack unpacked) (-sign)).1

theorem isFinite_signed (negative : Bool) (isFinite : Scalar.isFinite x = true) :
    Scalar.isFinite (signed negative x) = true := by
  cases negative
  · exact isFinite
  · exact isFinite_neg isFinite

/-- The product of two mantissas has 53 bits, unless both exponents are the least. -/
theorem le_targetExponent_mul {mantissa mantissa' : Nat} {exponent exponent' : Int}
    (canonical : Canonical mantissa exponent) (canonical' : Canonical mantissa' exponent') :
    exponent + exponent' ≤
      Format.binary64.targetExponent (totalExponent (mantissa * mantissa') (exponent + exponent')) := by
  obtain ⟨positive, -, -, -, full⟩ := canonical
  obtain ⟨positive', -, -, -, full'⟩ := canonical'
  rw [targetExponent_eq]
  by_cases long : 2 ^ 52 ≤ mantissa * mantissa'
  · have bits := (Nat.le_log2 (Nat.mul_pos positive positive').ne').mpr long
    omega
  · have short : ¬ 2 ^ 52 ≤ mantissa := fun full => long (full.trans (Nat.le_mul_of_pos_right _ positive'))
    have short' : ¬ 2 ^ 52 ≤ mantissa' := fun full => long (full.trans (Nat.le_mul_of_pos_left _ positive))
    have least := full.resolve_left short
    have least' := full'.resolve_left short'
    omega

/-- A product of finite floats is finite or too large. -/
theorem isFinite_mul (isFinite : Scalar.isFinite x = true) (isFinite' : Scalar.isFinite y = true)
    (small : (x * y).isInf = false) : Scalar.isFinite (x * y) = true := by
  have product : x * y =
    Float.ofModel (pack (UnpackedFloat.mul .binary64 x.toModel.unpack y.toModel.unpack)) := rfl
  rw [product] at small ⊢
  rcases unpack_of_isFinite isFinite with ⟨sign, unpacked⟩ | ⟨sign, mantissa, exponent, positive, unpacked⟩ <;>
    rcases unpack_of_isFinite isFinite' with
      ⟨sign', unpacked'⟩ | ⟨sign', mantissa', exponent', positive', unpacked'⟩ <;>
    rw [unpacked, unpacked'] at small ⊢
  · exact (toRat_zero (sign * sign')).1
  · exact (toRat_zero (sign * sign')).1
  · exact (toRat_zero (sign * sign')).1
  · have canonical := canonical_of_unpack unpacked
    have canonical' := canonical_of_unpack unpacked'
    have locates : Locates (.ofMantissaAndAccuracy (mantissa * mantissa') .exact)
        (mantissa * mantissa' * 2 ^ (exponent + exponent') / 2 ^ (exponent + exponent')) := by
      show _ = ((mantissa * mantissa' : Nat) : ℚ)
      rw [mul_div_cancel_right₀ _ (zpow_pos_two _).ne', Nat.cast_mul]
    obtain ⟨rounded, target, isRounded, same⟩ :=
      exists_rounded locates (le_targetExponent_mul canonical canonical')
    have multiplies : UnpackedFloat.mul .binary64 (.finite sign mantissa exponent positive)
        (.finite sign' mantissa' exponent' positive') = ofRounded (sign * sign') rounded target := same _
    rw [multiplies] at small ⊢
    exact (isRounded.isFinite_or_isInf _).resolve_right (Bool.eq_false_iff.mp small)

/-- Whether a float is finite and not larger than a significand. -/
structure IsSmall (x : Float) : Prop where
  isFinite : Scalar.isFinite x = true
  nonneg : 0 ≤ toRat x
  most : toRat x ≤ 2 ^ 64

theorem representable_two_pow_64 : Representable (2 ^ 64) :=
  ⟨1, 64, by norm_num, by norm_num, by norm_num, by norm_num⟩

/-- A float that is nearest to a small number is small. -/
theorem IsSmall.of_rounds {exact : ℚ} (rounds : Rounds x exact) (nonneg : 0 ≤ exact)
    (most : exact ≤ 2 ^ 64) : IsSmall x :=
  ⟨rounds.isFinite, rounds.nearest.le_of_ge representable_zero nonneg,
    rounds.nearest.le_of_le representable_two_pow_64 most⟩

theorem zpow_64_lt : (2 : ℚ) ^ 64 < 2 ^ (1023 : ℤ) := by
  rw [← zpow_natCast]
  exact zpow_lt_zpow_right₀ (by norm_num) (by norm_num)

theorem isSmall_toFloat (n : UInt64) : IsSmall n.toFloat := by
  have converted : n.toFloat =
    Float.ofModel (pack (UnpackedFloat.normalize .binary64 n.toNat 0 .positive)) := rfl
  have below : (n.toNat : ℚ) < 2 ^ 64 := by exact_mod_cast n.toNat_lt
  have nonneg : (0 : ℚ) ≤ n.toNat := Nat.cast_nonneg _
  have same : ((n.toNat : ℤ) : ℚ) * 2 ^ (0 : ℤ) = n.toNat := by simp
  have fits : |((n.toNat : ℤ) : ℚ) * 2 ^ (0 : ℤ)| < 2 ^ (1023 : ℤ) := by
    rw [same, abs_of_nonneg nonneg]
    exact below.trans zpow_64_lt
  have rounds := rounds_normalize fits .positive
  rw [converted]
  exact .of_rounds (same ▸ rounds) nonneg below.le

/-- Whether an unpacked float is at least one, by its exponent. -/
def reachesOne : UnpackedFloat → Bool
  | .finite .positive mantissa exponent _ => 2 ^ 52 ≤ mantissa && -52 ≤ exponent
  | _ => false

theorem one_le_of_reachesOne (reaches : reachesOne x.toModel.unpack = true) :
    Scalar.isFinite x = true ∧ 1 ≤ toRat x := by
  show x.toModel.unpack.isFinite = true ∧ 1 ≤ value x.toModel.unpack
  cases unpacked : x.toModel.unpack with
  | finite sign mantissa exponent positive =>
    rw [unpacked] at reaches
    cases sign with
    | negative => cases reaches
    | positive =>
      simp only [reachesOne, Bool.and_eq_true, decide_eq_true_eq] at reaches
      refine ⟨rfl, ?_⟩
      calc (1 : ℚ) = 2 ^ 52 * 2 ^ (-52 : ℤ) := by norm_num
        _ ≤ mantissa * 2 ^ exponent := by
          refine mul_le_mul ?_ ?_ (by positivity) (by positivity)
          · exact_mod_cast reaches.1
          · exact zpow_le_zpow_right₀ (by norm_num) reaches.2
  | zero _ | infinity _ | notANumber =>
    rw [unpacked] at reaches
    cases reaches

/-- Between the powers that are listed and the largest, a power of ten is rounded. -/
theorem rounds_tenPower {k : Nat} (least : 22 < k) (most : k < 308) : Rounds (tenPower k) (10 ^ k) := by
  have power : tenPower k = Float.ofModel (pack (UnpackedFloat.roundWithAccuracy .binary64 .positive
      (2 ^ 53 * 10 ^ k) (-53) .exact)) := by
    have unlisted : ¬ (1 < 2 ^ 53 ∧ k ≤ 22) := by omega
    have small : ¬ (k : Int) > 2 ^ Format.exponentBits .binary64 := by
      show ¬ (k : Int) > 2048
      omega
    have large : ¬ (k : Int) < -(2 ^ Format.exponentBits .binary64 + Nat.log2 1) := by
      show ¬ (k : Int) < -(2048 + 0)
      omega
    rw [tenPower, Float.ofScientific, dif_neg unlisted]
    show Float.ofModel (pack (UnpackedFloat.ofScientific .binary64 1 k)) = _
    rw [UnpackedFloat.ofScientific, dif_neg one_ne_zero, if_neg small, if_neg large, if_pos k.cast_nonneg]
    rfl
  have locates : Locates (.ofMantissaAndAccuracy (2 ^ 53 * 10 ^ k) .exact)
      (10 ^ k / 2 ^ (-53 : ℤ)) := by
    show _ = ((2 ^ 53 * 10 ^ k : Nat) : ℚ)
    push_cast
    rw [zpow_neg, div_inv_eq_mul, mul_comm]
    norm_cast
  have fine : -53 ≤ Format.binary64.targetExponent (totalExponent (2 ^ 53 * 10 ^ k) (-53)) := by
    have bits : 53 ≤ (2 ^ 53 * 10 ^ k).log2 :=
      (Nat.le_log2 (by positivity)).mpr (Nat.le_mul_of_pos_right _ (by positivity))
    rw [targetExponent_eq]
    omega
  have below : (10 ^ k : ℚ) < 2 ^ (1023 : ℤ) :=
    calc (10 ^ k : ℚ) ≤ 10 ^ 307 := pow_le_pow_right₀ (by norm_num) (by omega)
      _ < 2 ^ (1023 : ℤ) := by exact_mod_cast (by decide +kernel : 10 ^ 307 < 2 ^ 1023)
  rw [power]
  simpa [Sign.apply] using rounds_roundWithAccuracy locates fine below .positive

theorem one_le_tenPower {k : Nat} (most : k ≤ 308) :
    Scalar.isFinite (tenPower k) = true ∧ 1 ≤ toRat (tenPower k) := by
  have listed : ∀ k < 23, reachesOne (tenPower k).toModel.unpack = true := by decide +kernel
  have largest : reachesOne (tenPower 308).toModel.unpack = true := by decide +kernel
  have one : Representable 1 := ⟨1, 0, by norm_num, by norm_num, by norm_num, by norm_num⟩
  by_cases few : k < 23
  · exact one_le_of_reachesOne (listed k few)
  · rcases lt_or_eq_of_le most with below | rfl
    · have rounds := rounds_tenPower (by omega) below
      exact ⟨rounds.isFinite, rounds.nearest.le_of_ge one (one_le_pow₀ (by norm_num))⟩
    · exact one_le_of_reachesOne largest

theorem IsSmall.div_tenPower (small : IsSmall x) {k : Nat} (most : k ≤ 308) : IsSmall (x / tenPower k) := by
  obtain ⟨isFinite, nonneg, below⟩ := small
  obtain ⟨isFinite', one⟩ := one_le_tenPower most
  have positive : 0 < toRat (tenPower k) := one_pos.trans_le one
  have quotient : 0 ≤ toRat x / toRat (tenPower k) := div_nonneg nonneg positive.le
  have less : toRat x / toRat (tenPower k) ≤ 2 ^ 64 := (div_le_self nonneg one).trans below
  refine .of_rounds (rounds_div isFinite isFinite' positive.ne' ?_) quotient less
  rw [abs_of_nonneg quotient]
  exact less.trans_lt zpow_64_lt

theorem isFinite_scaleDown {steps k : Nat} (small : IsSmall x) :
    Scalar.isFinite (scaleDown steps x k) = true := by
  induction steps generalizing x k with
  | zero =>
    show Scalar.isFinite (0 : Float) = true
    rfl
  | succ steps ih =>
    unfold scaleDown
    split
    · exact small.isFinite
    · split
      · rename_i most
        exact (small.div_tenPower most).isFinite
      · exact ih (small.div_tenPower le_rfl)

/-- A number token has a finite value. -/
theorem isFinite_ofNumeral? {token : Numeral} (read : Scalar.ofNumeral? token = some x) :
    Scalar.isFinite x = true := by
  have read : ofNumeral? token = some x := read
  unfold ofNumeral? at read
  dsimp only at read
  have small := isSmall_toFloat (UInt64.ofNat token.scaled.1)
  split at read
  · cases read
    exact isFinite_signed _ (isFinite_scaleDown small)
  · split at read
    · cases read
      exact isFinite_signed _ rfl
    · split at read
      · cases read
      · rename_i scale
        split at read
        · cases read
        · rename_i notInf
          cases read
          refine isFinite_signed _ (isFinite_mul small.isFinite (one_le_tenPower (by omega)).1 ?_)
          exact Bool.eq_false_iff.mpr notInf

end StockFlow.Double
