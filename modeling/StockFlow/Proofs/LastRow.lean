import Mathlib.Data.Nat.Prime.Basic
import StockFlow.Proofs.Catalog
import StockFlow.Proofs.Decimation
import StockFlow.Proofs.Doubles
import StockFlow.Proofs.Saving

/-!
# The last row

How many rows a clock makes whose step and stop are the floats nearest to a fraction of one and to a
multiple of it. The quotient of the two is less than a half from the whole number of steps. Where it is not
below that number, there is a row for the stop. Where it is, one is added to it without rounding, and the row
for the stop is lost.
-/

namespace StockFlow

namespace Double

/-! ## Representable numbers -/

/-- In the middle of the format a power of two only moves the exponent. -/
theorem Representable.mul_zpow {q : ℚ} (representable : Representable q) {shift : ℤ}
    (least : 2 ^ (-900 : ℤ) ≤ |q|) (most : |q| ≤ 2 ^ (900 : ℤ)) (few : |shift| ≤ 60) :
    Representable (q * 2 ^ shift) := by
  obtain ⟨mantissa, exponent, small, -, -, rfl⟩ := representable
  have unit := zpow_pos_two exponent
  have base : (1 : ℚ) < 2 := by norm_num
  rw [abs_mul, abs_of_pos unit] at least most
  have above : -900 < 53 + exponent := by
    refine (zpow_lt_zpow_iff_right₀ base).mp (least.trans_lt ?_)
    rw [zpow_add₀ two_ne_zero]
    exact mul_lt_mul_of_pos_right (by exact_mod_cast small) unit
  have nonzero : mantissa ≠ 0 := by
    rintro rfl
    rw [Int.cast_zero, abs_zero, zero_mul] at least
    exact absurd least (not_le.mpr (zpow_pos_two _))
  have below : exponent ≤ 900 := by
    refine (zpow_le_zpow_iff_right₀ base).mp (le_trans ?_ most)
    exact le_mul_of_one_le_left unit.le (by exact_mod_cast Int.one_le_abs nonzero)
  rw [abs_le] at few
  exact ⟨mantissa, exponent + shift, small, by omega, by omega, by rw [zpow_add₀ two_ne_zero, mul_assoc]⟩

theorem toRat_one : Scalar.isFinite (Scalar.ofNat 1 : Float) = true ∧ toRat (Scalar.ofNat 1) = 1 := by
  have unpacked : (Scalar.ofNat 1 : Float).toModel.unpack =
      .finite .positive (2 ^ 52) (-52) (by decide) := by rfl
  refine ⟨by rfl, ?_⟩
  rw [toRat, unpacked]
  show (((2 ^ 52 : ℕ) : ℤ) : ℚ) * 2 ^ (-52 : ℤ) = 1
  norm_num

theorem representable_natCast {n : ℕ} (small : n ≤ 2 ^ 53) : Representable n := by
  have fits : |(n : ℤ)| ≤ 2 ^ 53 := by
    rw [Nat.abs_cast]
    exact_mod_cast small
  have scaled := representable_mul_zpow fits (by omega : -1074 ≤ (0 : ℤ)) (by omega)
  simpa using scaled

/-- Half the sum of representable numbers is a fraction of one only if that is a power of two. -/
theorem eq_two_pow_of_add {q r : ℚ} {d : ℕ} (positive : 0 < d) (representable : Representable q)
    (representable' : Representable r) (middle : q + r = 2 / d) : ∃ i, d = 2 ^ i := by
  obtain ⟨n, isMultiple⟩ := representable.exists_multiple (.inl rfl)
  obtain ⟨m, isMultiple'⟩ := representable'.exists_multiple (.inl rfl)
  obtain ⟨bits, least⟩ : ∃ bits : ℕ, (-1074 : ℤ) = -bits := ⟨1074, rfl⟩
  rw [isMultiple, isMultiple', least, zpow_neg, zpow_natCast, ← add_mul, ← div_eq_mul_inv,
    div_eq_div_iff (by positivity) (by exact_mod_cast positive.ne')] at middle
  have cleared : ((2 ^ (bits + 1) : ℕ) : ℤ) = d * (n + m) := by
    rw [pow_succ', mul_comm (d : ℤ)]
    exact_mod_cast middle.symm
  have divides : d ∣ 2 ^ (bits + 1) := Int.natCast_dvd_natCast.mp ⟨n + m, cleared⟩
  obtain ⟨i, -, same⟩ := (Nat.dvd_prime_pow Nat.prime_two).mp divides
  exact ⟨i, same⟩

/-! ## Fractions -/

section

variable {d k : ℕ} {step stop : ℚ} (positive : 0 < d) (small : d < 2 ^ 31)
include positive

theorem zpow_le_div (small : d < 2 ^ 31) {n : ℕ} (some_ : 0 < n) : (2 : ℚ) ^ (-31 : ℤ) ≤ n / d := by
  have whole : (0 : ℚ) < d := by exact_mod_cast positive
  have least : (1 : ℚ) ≤ n := by exact_mod_cast some_
  have most : (d : ℚ) ≤ 2 ^ 31 := by exact_mod_cast small.le
  rw [zpow_neg, le_div_iff₀ whole, inv_mul_le_iff₀ (by positivity)]
  calc (d : ℚ) ≤ 2 ^ 31 := most
    _ ≤ 2 ^ (31 : ℤ) * n := le_mul_of_one_le_right (by positivity) least

theorem div_le (n : ℕ) : (n / d : ℚ) ≤ n :=
  div_le_self (Nat.cast_nonneg n) (by exact_mod_cast positive)

include small

/-- A number that is nearest to a fraction has a small relative error. -/
theorem fraction_error {q : ℚ} {n : ℕ} (few : n < 2 ^ 31) (nearest : Nearest q (n / d)) :
    |q - n / d| ≤ n / d / 2 ^ 53 := by
  rcases Nat.eq_zero_or_pos n with rfl | some_
  · rw [Nat.cast_zero, zero_div] at nearest ⊢
    rw [nearest.eq representable_zero]
    norm_num
  · refine nearest.error (le_trans ?_ (zpow_le_div positive small some_)) ?_
    · exact zpow_le_zpow_right₀ (by norm_num) (by norm_num)
    · calc (n / d : ℚ) ≤ n := div_le positive n
        _ < 2 ^ 31 := by exact_mod_cast few
        _ ≤ 2 ^ (1023 : ℤ) := by
          rw [← zpow_natCast]
          exact zpow_le_zpow_right₀ (by norm_num) (by norm_num)

/-- Fractions are far from the ends of the format. -/
theorem fraction_bounds {q : ℚ} {n : ℕ} (some_ : 0 < n) (few : n < 2 ^ 31) (nearest : Nearest q (n / d)) :
    2 ^ (-900 : ℤ) ≤ |q| ∧ |q| ≤ 2 ^ (900 : ℤ) := by
  have error := fraction_error positive small few nearest
  have least := zpow_le_div positive small some_
  have most : (n / d : ℚ) < 2 ^ 31 := (div_le positive n).trans_lt (by exact_mod_cast few)
  have base : (1 : ℚ) ≤ 2 := by norm_num
  have positive : 0 < (n / d : ℚ) := (zpow_pos_two _).trans_le least
  have small : (n / d / 2 ^ 53 : ℚ) ≤ n / d / 2 := by gcongr; norm_num
  have sides := abs_le.mp (error.trans small)
  have lower : n / d / 2 ≤ q := by linarith
  have upper : q ≤ 2 * (n / d) := by linarith
  rw [abs_of_pos ((half_pos positive).trans_le lower)]
  constructor
  · calc (2 : ℚ) ^ (-900 : ℤ) ≤ 2 ^ (-32 : ℤ) := zpow_le_zpow_right₀ base (by norm_num)
      _ = 2 ^ (-31 : ℤ) / 2 := by norm_num
      _ ≤ n / d / 2 := by gcongr
      _ ≤ q := lower
  · calc q ≤ 2 * (n / d) := upper
      _ ≤ 2 * 2 ^ 31 := by gcongr
      _ = 2 ^ (32 : ℤ) := by norm_num
      _ ≤ 2 ^ (900 : ℤ) := zpow_le_zpow_right₀ base (by norm_num)

variable (few : k < 2 ^ 31) (isStep : Nearest step (1 / d)) (isStop : Nearest stop (k / d))

include isStep in
theorem step_error : |step - 1 / d| ≤ 1 / d / 2 ^ 53 := by
  have error := fraction_error positive small (n := 1) (by norm_num) (by rwa [Nat.cast_one])
  rwa [Nat.cast_one] at error

include isStep in
theorem le_step : 2 / 3 * (1 / d) ≤ step := by
  have error := (abs_le.mp (step_error positive small isStep)).1
  have unit : (0 : ℚ) < 1 / d := div_pos one_pos (by exact_mod_cast positive)
  linarith

include isStep in
theorem step_pos : 0 < step := by
  refine lt_of_lt_of_le ?_ (le_step positive small isStep)
  have : (0 : ℚ) < d := by exact_mod_cast positive
  positivity

include few isStep isStop

/-- The exact quotient of a stop and a step has three times their relative error at most. -/
theorem quotient_error : |stop / step - k| ≤ 3 * k / 2 ^ 53 := by
  have forward := step_pos positive small isStep
  have error := fraction_error positive small few isStop
  have count : (0 : ℚ) ≤ k := Nat.cast_nonneg k
  have apart : |stop - k * step| ≤ 2 * (k / d / 2 ^ 53) :=
    calc |stop - k * step| = |(stop - k / d) + -(k * (step - 1 / d))| := by congr 1; ring
      _ ≤ |stop - k / d| + |-(k * (step - 1 / d))| := abs_add_le ..
      _ = |stop - k / d| + k * |step - 1 / d| := by rw [abs_neg, abs_mul, abs_of_nonneg count]
      _ ≤ k / d / 2 ^ 53 + k * (1 / d / 2 ^ 53) :=
        add_le_add error (mul_le_mul_of_nonneg_left (step_error positive small isStep) count)
      _ = 2 * (k / d / 2 ^ 53) := by ring
  have share : k / d ≤ 3 / 2 * (k * step) := by
    have := mul_le_mul_of_nonneg_left (le_step positive small isStep) count
    have fraction : (k * (2 / 3 * (1 / d)) : ℚ) = 2 / 3 * (k / d) := by ring
    linarith
  have scaled : stop / step - k = (stop - k * step) / step := by field_simp
  rw [scaled, abs_div, abs_of_pos forward, div_le_iff₀ forward]
  calc |stop - k * step| ≤ 2 * (k / d / 2 ^ 53) := apart
    _ ≤ 2 * (3 / 2 * (k * step) / 2 ^ 53) := by gcongr
    _ = 3 * k / 2 ^ 53 * step := by ring

/-- The rounded quotient is less than a half from the whole number. -/
theorem rounded_quotient_error {q : ℚ} (isQuotient : Nearest q (stop / step)) : |q - k| < 1 / 2 := by
  have count : (k : ℚ) < 2 ^ 31 := by exact_mod_cast few
  have whole : Representable k := representable_natCast (few.le.trans (by norm_num))
  have error := quotient_error positive small few isStep isStop
  have closest := isQuotient.le k whole
  rw [abs_sub_comm (k : ℚ)] at closest
  calc |q - k| = |(q - stop / step) + (stop / step - k)| := by congr 1; ring
    _ ≤ |q - stop / step| + |stop / step - k| := abs_add_le ..
    _ ≤ 3 * k / 2 ^ 53 + 3 * k / 2 ^ 53 := add_le_add (closest.trans error) error
    _ < 1 / 2 := by
      have : (3 * k / 2 ^ 53 : ℚ) < 1 / 4 := by
        rw [div_lt_iff₀ (by norm_num)]
        linarith
      linarith

omit positive few isStep isStop in
theorem representable_div {n i : ℕ} (few : n < 2 ^ 31) (isPower : d = 2 ^ i) : Representable (n / d) := by
  have short : i < 31 := (Nat.pow_lt_pow_iff_right (by norm_num)).mp (isPower ▸ small)
  have fits : |(n : ℤ)| ≤ 2 ^ 53 := by
    rw [Nat.abs_cast]
    exact_mod_cast few.le.trans (by norm_num)
  have scaled := representable_mul_zpow fits (by omega : -1074 ≤ -(i : ℤ)) (by omega)
  rw [zpow_neg, zpow_natCast, ← div_eq_mul_inv, Int.cast_natCast] at scaled
  rw [isPower, Nat.cast_pow]
  exact scaled

/-- Steps that are a power of two are exact, and so are the stops. -/
theorem quotient_eq_of_step {i : ℕ} (isPower : d = 2 ^ i) : stop / step = k := by
  have whole : (d : ℚ) ≠ 0 := by exact_mod_cast positive.ne'
  have one := representable_div small (n := 1) (by norm_num) isPower
  rw [Nat.cast_one] at one
  rw [isStep.eq one, isStop.eq (representable_div small few isPower)]
  field_simp

/-- A stop after a power of two of steps is as many times the step, however the step is rounded: were they
rounded to either side, the fraction would be half the sum of two representable numbers. -/
theorem quotient_eq_of_count {i : ℕ} (isPower : k = 2 ^ i) : stop / step = k := by
  have count : 0 < k := isPower ▸ Nat.two_pow_pos i
  have few' : i < 31 := (Nat.pow_lt_pow_iff_right (by norm_num)).mp (isPower ▸ few)
  have forward := step_pos positive small isStep
  have power : (0 : ℚ) < 2 ^ i := by positivity
  have cast : (k : ℚ) = 2 ^ i := by exact_mod_cast isPower
  have stretched : Representable (step * 2 ^ (i : ℤ)) := by
    obtain ⟨least, most⟩ := fraction_bounds positive small one_pos (by norm_num)
      (by rwa [Nat.cast_one] : Nearest step ((1 : ℕ) / d))
    exact isStep.representable.mul_zpow least most (by rw [abs_le]; omega)
  have shrunk : Representable (stop * 2 ^ (-i : ℤ)) := by
    obtain ⟨least, most⟩ := fraction_bounds positive small count few isStop
    exact isStop.representable.mul_zpow least most (by rw [abs_le]; omega)
  rw [zpow_natCast] at stretched
  rw [zpow_neg, zpow_natCast, ← div_eq_mul_inv] at shrunk
  have same : |step - 1 / d| = |stop / 2 ^ i - 1 / d| := by
    refine le_antisymm (isStep.le _ shrunk) ?_
    have closest := isStop.le _ stretched
    have unstretched : step * 2 ^ i - k / d = (step - 1 / d) * 2 ^ i := by rw [cast]; ring
    have unshrunk : stop - k / d = (stop / 2 ^ i - 1 / d) * 2 ^ i := by
      rw [cast]
      field_simp
    rw [unstretched, unshrunk, abs_mul, abs_mul] at closest
    exact le_of_mul_le_mul_right closest (abs_pos.mpr power.ne')
  rcases abs_eq_abs.mp same with same | opposite
  · have : step = stop / 2 ^ i := by linarith
    rw [cast, div_eq_iff forward.ne', this]
    field_simp
  · have middle : step + stop / 2 ^ i = 2 / d := by
      have : (2 / d : ℚ) = 1 / d + 1 / d := by ring
      linarith
    obtain ⟨j, isPower'⟩ := eq_two_pow_of_add positive isStep.representable shrunk middle
    exact quotient_eq_of_step positive small few isStep isStop isPower'

/-- Nothing is lost in the quotient if the number of steps or the steps in one are a power of two. -/
theorem quotient_eq (usual : k = 0 ∨ ∃ i, k = 2 ^ i ∨ d = 2 ^ i) : stop / step = k := by
  rcases usual with rfl | ⟨i, isPower | isPower⟩
  · rw [Nat.cast_zero, zero_div] at isStop
    rw [isStop.eq representable_zero, zero_div, Nat.cast_zero]
  · exact quotient_eq_of_count positive small few isStep isStop isPower
  · exact quotient_eq_of_step positive small few isStep isStop isPower

end

/-! ## Adding one -/

/-- One is added without rounding to a quotient that is rounded down, unless the whole number is a power of
two. -/
theorem representable_add_one {q : ℚ} {k : ℕ} (few : k < 2 ^ 31) (representable : Representable q)
    (below : q < k) (close : k - 1 / 2 < q) (nonzero : k ≠ 0) (power : ¬ ∃ i, k = 2 ^ i) :
    Representable (q + 1) := by
  have lower : 2 ^ k.log2 ≤ k := Nat.log2_self_le nonzero
  have upper : k < 2 ^ (k.log2 + 1) := Nat.lt_log2_self
  have short : k.log2 < 31 := (Nat.log2_lt nonzero).mpr few
  generalize k.log2 = bits at lower upper short
  have apart : 2 ^ bits + 1 ≤ k := lt_of_le_of_ne lower fun same => power ⟨bits, same.symm⟩
  have apart : (2 : ℚ) ^ bits + 1 ≤ k := by exact_mod_cast apart
  have upper : (k : ℚ) + 1 ≤ 2 ^ (bits + 1) := by exact_mod_cast upper
  have positive : 0 < q := by linarith [pow_pos (two_pos (α := ℚ)) bits]
  have scale : (2 : ℚ) ^ bits = 2 ^ 52 * 2 ^ ((bits : ℤ) - 52) := by
    rw [zpow_sub₀ two_ne_zero, zpow_natCast]
    field_simp
  -- in units of the last place of numbers as large as the bound, one is a whole number
  have unit := zpow_pos_two ((bits : ℤ) - 52)
  have large : (bits : ℤ) - 52 = -1074 ∨ (2 : ℚ) ^ ((bits : ℤ) - 52 + 52) ≤ |q| := by
    rw [sub_add_cancel, zpow_natCast, abs_of_pos positive]
    exact .inr (by linarith)
  obtain ⟨n, isMultiple⟩ := representable.exists_multiple large
  have sum : q + 1 = ((n + 2 ^ (52 - bits) : ℤ) : ℚ) * 2 ^ ((bits : ℤ) - 52) := by
    have one : (2 : ℚ) ^ (52 - bits) * 2 ^ ((bits : ℤ) - 52) = 1 := by
      rw [← zpow_natCast, ← zpow_add₀ two_ne_zero]
      have : ((52 - bits : ℕ) : ℤ) + (bits - 52) = 0 := by omega
      rw [this, zpow_zero]
    push_cast
    rw [add_mul, one, isMultiple]
  rw [sum]
  refine representable_mul_zpow ?_ (by omega) (by omega)
  generalize n + 2 ^ (52 - bits) = m at sum
  have least : (0 : ℚ) < m := pos_of_mul_pos_left (by rw [← sum]; linarith) unit.le
  have most : (m : ℚ) < 2 ^ 53 := by
    refine lt_of_mul_lt_mul_right ?_ unit.le
    rw [← sum]
    calc q + 1 < 2 ^ (bits + 1) := by linarith
      _ = 2 ^ 53 * 2 ^ ((bits : ℤ) - 52) := by rw [pow_succ, scale]; ring
  rw [abs_of_pos (by exact_mod_cast least)]
  exact_mod_cast most.le

/-- The whole part of a quotient and one. -/
theorem floor_add_one {q r : ℚ} {k : ℕ} (few : k < 2 ^ 31) (representable : Representable q)
    (close : |q - k| < 1 / 2) (power : k = 0 ∨ (∃ i, k = 2 ^ i) → k ≤ q) (sum : Nearest r (q + 1)) :
    ⌊r⌋₊ = if (k : ℚ) ≤ q then k + 1 else k := by
  have next : Representable (k + 1) := by
    exact_mod_cast representable_natCast (n := k + 1) (by omega)
  obtain ⟨least, most⟩ := sum.between next
  have same : (k + 1 : ℚ) - (q + 1) = -(q - k) := by ring
  rw [same, abs_neg] at least most
  rw [abs_lt] at close
  split
  · rename_i reached
    rw [abs_of_nonneg (by linarith)] at least most
    rw [Nat.floor_eq_iff (by linarith [Nat.cast_nonneg (α := ℚ) k])]
    push_cast
    constructor <;> linarith
  · rename_i short
    rw [not_le] at short
    rw [abs_of_neg (by linarith)] at least most
    have unusual : ¬ (k = 0 ∨ ∃ i, k = 2 ^ i) := fun usual => absurd (power usual) (not_le.mpr short)
    rw [not_or] at unusual
    have exact := sum.eq (representable_add_one few representable short (by linarith) unusual.1 unusual.2)
    rw [Nat.floor_eq_iff (by linarith [Nat.cast_nonneg (α := ℚ) k])]
    constructor <;> linarith

/-- A float is nearest to the numbers that are at most half a unit in the last place away. -/
theorem rounds_of_unpack {x : Float} {mantissa : Nat} {exponent : Int} {whole : 0 < mantissa} {exact : ℚ}
    (unpacked : x.toModel.unpack = .finite .positive mantissa exponent whole)
    (close : |(mantissa : ℤ) * 2 ^ exponent - exact| ≤ 2 ^ exponent / 2)
    (large : exponent = -1074 ∨ 2 ^ (exponent + 52) ≤ exact) : Rounds x exact := by
  have isFinite : x.toModel.unpack.isFinite = true := by rw [unpacked]; rfl
  have same : toRat x = (mantissa : ℤ) * 2 ^ exponent := by rw [toRat, unpacked]; rfl
  exact ⟨isFinite, same ▸ nearest_of_multiple (same ▸ representable_toRat x) close large⟩

end Double

/-! ## Clocks -/

namespace Clock

open Double

/-- The quotient from which the rows are counted. -/
def quotient (clock : Clock Float) : Float := (clock.stop - clock.start) / clock.saveStep

/-- Whether a clock starts at zero, saves every step, and steps and stops at the floats nearest to a fraction
of one and to a multiple of it. -/
structure StepsBy (clock : Clock Float) (d k : ℕ) : Prop where
  positive : 0 < d
  small : d < 2 ^ 31
  few : k < 2 ^ 31
  start : Rounds clock.start 0
  dt : Rounds clock.dt (1 / d)
  saveStep : clock.saveStep = clock.dt
  stop : Rounds clock.stop (k / d)

namespace StepsBy

variable {clock : Clock Float} {d k : ℕ} (steps : clock.StepsBy d k)
include steps

theorem rounds_quotient : Rounds clock.quotient (toRat clock.stop / toRat clock.dt) := by
  obtain ⟨positive, small, few, start, dt, saveStep, stop⟩ := steps
  have zero : toRat clock.start = 0 := start.nearest.eq representable_zero
  obtain ⟨isFinite, same⟩ := toRat_sub_zero stop.isFinite start.isFinite zero
  have error := quotient_error positive small few dt.nearest stop.nearest
  have count : (k : ℚ) < 2 ^ 31 := by exact_mod_cast few
  rw [quotient, saveStep, ← same]
  refine rounds_div isFinite dt.isFinite (step_pos positive small dt.nearest).ne' (same ▸ ?_)
  calc |toRat clock.stop / toRat clock.dt|
      = |(toRat clock.stop / toRat clock.dt - k) + k| := by rw [sub_add_cancel]
    _ ≤ |toRat clock.stop / toRat clock.dt - k| + |(k : ℚ)| := abs_add_le ..
    _ ≤ 3 * k / 2 ^ 53 + k := by
      rw [Nat.abs_cast]
      linarith
    _ < 2 ^ (32 : ℤ) := by
      norm_num
      linarith
    _ ≤ 2 ^ (1023 : ℤ) := zpow_le_zpow_right₀ (by norm_num) (by norm_num)

theorem quotient_close : |toRat clock.quotient - k| < 1 / 2 :=
  rounded_quotient_error steps.positive steps.small steps.few steps.dt.nearest steps.stop.nearest
    steps.rounds_quotient.nearest

theorem toRat_quotient_eq (usual : k = 0 ∨ ∃ i, k = 2 ^ i ∨ d = 2 ^ i) : toRat clock.quotient = k := by
  have whole : Representable k := representable_natCast (steps.few.le.trans (by norm_num))
  have exact := quotient_eq steps.positive steps.small steps.few steps.dt.nearest steps.stop.nearest usual
  exact (exact ▸ steps.rounds_quotient.nearest).eq whole

theorem rounds_sum : Rounds (clock.quotient + Scalar.ofNat 1) (toRat clock.quotient + 1) := by
  obtain ⟨isFinite, one⟩ := toRat_one
  have close := abs_lt.mp steps.quotient_close
  have count : (k : ℚ) < 2 ^ 31 := by exact_mod_cast steps.few
  have sum := rounds_add steps.rounds_quotient.isFinite isFinite
  rw [one] at sum
  refine sum (lt_of_lt_of_le ?_ (zpow_le_zpow_right₀ (by norm_num) (by norm_num) : (2 : ℚ) ^ (32 : ℤ) ≤ _))
  rw [abs_of_pos (by linarith [Nat.cast_nonneg (α := ℚ) k])]
  norm_num
  linarith

/-- A quotient that is not below the number of steps makes one row more, one that is below makes as many. -/
theorem savedRows_eq : clock.savedRows = if (k : ℚ) ≤ toRat clock.quotient then k + 1 else k := by
  obtain ⟨isFinite, sum⟩ := steps.rounds_sum
  have close := steps.quotient_close
  have count : (k : ℚ) < 2 ^ 31 := by exact_mod_cast steps.few
  have next : Representable (k + 1) := by
    have few := steps.few
    exact_mod_cast representable_natCast (n := k + 1) (by omega)
  obtain ⟨least, most⟩ := sum.between next
  have same : |(k + 1 : ℚ) - (toRat clock.quotient + 1)| < 1 / 2 := by
    rwa [add_sub_add_right_eq_sub, abs_sub_comm]
  have sides := abs_lt.mp close
  show Scalar.count (clock.quotient + Scalar.ofNat 1) = _
  rw [count_eq_floor isFinite (by linarith [Nat.cast_nonneg (α := ℚ) k]) (by linarith)]
  refine floor_add_one steps.few (representable_toRat _) close (fun usual => ?_) sum
  exact (steps.toRat_quotient_eq (usual.imp_right fun ⟨i, isPower⟩ => ⟨i, .inl isPower⟩)).ge

end StepsBy
end Clock

/-! ## Runs -/

namespace Simulation

open Double (toRat)

/-- Of a run to the end with a step nearest to a fraction of one and a stop nearest to a multiple of it, every
step is saved up to the stop, unless the quotient of the two is rounded to a number below the multiple. Then
the row for the stop is not saved and all others are. The quotient is exact where the multiple or the
denominator is a power of two. -/
theorem saved_up_to_stop {document : Document.Project Float} {project : Project Float}
    {run : Simulation Float} {clock : Clock Float} {d k : ℕ}
    (compiled : Project.compile document = .ok project) (ready : ofProject project = .ok run)
    (ticks : run.plan.clock = clock) (steps : clock.StepsBy d k) {name : Path} {slot : Nat}
    (known : run.plan.slot? name = some slot) :
    ∃ series, run.reset.runToEnd.series? name = some series ∧
      series.time = (List.range clock.savedRows).map clock.timeAt ∧
      series.values.length = clock.savedRows ∧
      (clock.savedRows = if (k : ℚ) ≤ toRat clock.quotient then k + 1 else k) ∧
      ((k = 0 ∨ ∃ i, k = 2 ^ i ∨ d = 2 ^ i) → clock.savedRows = k + 1) := by
  obtain ⟨plan, planned, rfl⟩ := ofProject_eq_ok.mp ready
  obtain rfl : plan.clock = clock := ticks
  have consistent := Project.consistent_of_compile compiled
  have every : plan.clock.saveEvery = 1 := by
    obtain ⟨valid, ofSpec⟩ := Plan.clock_of_ofProject planned
    have everyStep := steps.saveStep
    rw [ofSpec] at everyStep ⊢
    exact Clock.saveEvery_of_eq valid everyStep
  refine ⟨_, series_runToEnd known, ?_, ?_, steps.savedRows_eq, fun usual => ?_⟩
  · show plan.savedRows.map Row.time = _
    rw [Plan.time_savedRows consistent planned, every]
    simp only [Nat.mul_one]
  · rw [List.length_map, Plan.savedRows, List.length_map, List.length_range]
    rfl
  · rw [steps.savedRows_eq, if_pos (steps.toRat_quotient_eq usual).ge]

/-- A project of one variable, which follows the time in steps of a tenth. -/
def tenths : Document.Project Float :=
  ⟨"", ⟨0, 0.3, 0.1, none⟩, [⟨"main", none, [.auxiliary ⟨"x", "", some (.reference "time"), none⟩]⟩]⟩

/-- The row of the third tenth is not saved. -/
theorem saved_up_to_stop_tenths : ∃ project run series, Project.compile tenths = .ok project ∧
    ofProject project = .ok run ∧ run.plan.clock.StepsBy 10 3 ∧
      run.reset.runToEnd.series? "x" = some series ∧ series.time.length = 3 ∧
        toRat run.plan.clock.quotient < 3 := by
  have check : ∃ project ∈ (Project.compile tenths).toOption, ∃ run ∈ (ofProject project).toOption,
      run.plan.slot? "x" = some 1 ∧ run.plan.clock.start = 0 ∧ run.plan.clock.stop = 0.3 ∧
        run.plan.clock.dt = 0.1 ∧ run.plan.clock.saveStep = 0.1 ∧ run.plan.clock.savedRows = 3 := by
    rw [Project.compile_eq]
    decide +kernel
  obtain ⟨project, compiled, run, ready, known, start, stop, dt, saveStep, rows⟩ := check
  have compiled := toOption_eq_some.mp compiled
  have ready := toOption_eq_some.mp ready
  have tenth : (0.1 : Float).toModel.unpack = .finite .positive 7205759403792794 (-56) (by decide) := by rfl
  have third : (0.3 : Float).toModel.unpack = .finite .positive 5404319552844595 (-54) (by decide) := by rfl
  have steps : run.plan.clock.StepsBy 10 3 := by
    refine ⟨by decide, by decide, by decide, ?_, ?_, saveStep.trans dt.symm, ?_⟩
    · rw [start]
      exact .of_toRat (by rfl) (by rfl)
    · rw [dt]
      exact Double.rounds_of_unpack tenth (by norm_num [abs_le]) (by norm_num)
    · rw [stop]
      exact Double.rounds_of_unpack third (by norm_num [abs_le]) (by norm_num)
  obtain ⟨series, found, times, -, count, -⟩ := saved_up_to_stop compiled ready rfl steps known
  refine ⟨project, run, series, compiled, ready, steps, found, ?_, ?_⟩
  · rw [times, List.length_map, List.length_range, rows]
  · by_contra reached
    rw [if_pos (by exact_mod_cast not_lt.mp reached), rows] at count
    cases count

end Simulation
end StockFlow
