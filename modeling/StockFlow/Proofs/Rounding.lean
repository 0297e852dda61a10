import Mathlib.Algebra.Order.Field.Power
import Mathlib.Data.Int.Log
import Mathlib.Data.Rat.Floor
import Mathlib.Tactic.FieldSimp
import Mathlib.Tactic.Linarith
import Mathlib.Tactic.Positivity
import Mathlib.Tactic.Ring
import StockFlow.Number.Double

/-!
# Rounding

The rational number that a finite float stands for, and what sums and quotients of floats stand for: of the
numbers that floats stand for, one that is nearest to the exact result.
-/

namespace StockFlow.Double

/-! ## Numbers that have a float -/

/-- Whether a number is a whole number of less than 54 bits times a power of two that the format allows. -/
def Representable (q : ℚ) : Prop :=
  ∃ (mantissa exponent : ℤ), |mantissa| < 2 ^ 53 ∧ -1074 ≤ exponent ∧ exponent ≤ 971 ∧
    q = mantissa * 2 ^ exponent

/-- Whether a number is representable and no other representable number is nearer to a given one. -/
structure Nearest (q exact : ℚ) : Prop where
  representable : Representable q
  le : ∀ other, Representable other → |q - exact| ≤ |other - exact|

theorem representable_zero : Representable 0 := ⟨0, 0, by norm_num, by norm_num, by norm_num, by simp⟩

theorem Representable.neg {q : ℚ} (representable : Representable q) : Representable (-q) := by
  obtain ⟨mantissa, exponent, small, least, most, rfl⟩ := representable
  exact ⟨-mantissa, exponent, by rwa [abs_neg], least, most, by push_cast; ring⟩

theorem Nearest.neg {q exact : ℚ} (nearest : Nearest q exact) : Nearest (-q) (-exact) := by
  refine ⟨nearest.representable.neg, fun other representable => ?_⟩
  have closest := nearest.le (-other) representable.neg
  rwa [← abs_neg (-q - -exact), ← abs_neg (other - -exact), neg_sub', neg_sub', neg_neg, neg_neg]

theorem Nearest.refl {q : ℚ} (representable : Representable q) : Nearest q q :=
  ⟨representable, fun other _ => by rw [sub_self, abs_zero]; exact abs_nonneg _⟩

theorem Nearest.eq {q exact : ℚ} (nearest : Nearest q exact) (representable : Representable exact) :
    q = exact := by
  have closest := nearest.le exact representable
  rw [sub_self, abs_zero] at closest
  exact sub_eq_zero.mp (abs_nonpos_iff.mp closest)

/-- A nearest number is between those that are as far from the exact one as a representable number. -/
theorem Nearest.between {q exact other : ℚ} (nearest : Nearest q exact)
    (representable : Representable other) :
    exact - |other - exact| ≤ q ∧ q ≤ exact + |other - exact| := by
  have closest := abs_le.mp (nearest.le other representable)
  constructor <;> linarith [closest.1, closest.2]

theorem Nearest.le_of_le {q exact bound : ℚ} (nearest : Nearest q exact) (representable : Representable bound)
    (above : exact ≤ bound) : q ≤ bound := by
  have most := (nearest.between representable).2
  rwa [abs_of_nonneg (sub_nonneg.mpr above), add_sub_cancel] at most

theorem Nearest.le_of_ge {q exact bound : ℚ} (nearest : Nearest q exact) (representable : Representable bound)
    (below : bound ≤ exact) : bound ≤ q := by
  have least := (nearest.between representable).1
  rwa [abs_of_nonpos (sub_nonpos.mpr below), neg_sub, sub_sub_cancel] at least

/-- One bit more is representable where it is the next power of two. -/
theorem representable_mul_zpow {mantissa exponent : ℤ} (small : |mantissa| ≤ 2 ^ 53) (least : -1074 ≤ exponent)
    (most : exponent ≤ 970) : Representable (mantissa * 2 ^ exponent) := by
  rcases lt_or_eq_of_le small with below | full
  · exact ⟨mantissa, exponent, below, least, by omega, rfl⟩
  · have double : (2 : ℚ) ^ (exponent + 1) = 2 ^ exponent * 2 := zpow_add_one₀ two_ne_zero exponent
    rcases abs_eq (by norm_num) |>.mp full with rfl | rfl
    · exact ⟨2 ^ 52, exponent + 1, by norm_num, by omega, by omega, by rw [double]; push_cast; ring⟩
    · exact ⟨-2 ^ 52, exponent + 1, by norm_num, by omega, by omega, by rw [double]; push_cast; ring⟩

theorem zpow_pos_two (exponent : ℤ) : (0 : ℚ) < 2 ^ exponent := zpow_pos two_pos exponent

/-- Representable numbers are multiples of the unit in the last place of the smaller ones. -/
theorem Representable.exists_multiple {q : ℚ} (representable : Representable q) {exponent : ℤ}
    (large : exponent = -1074 ∨ 2 ^ (exponent + 52) ≤ |q|) : ∃ n : ℤ, q = n * 2 ^ exponent := by
  obtain ⟨mantissa, own, small, least, most, rfl⟩ := representable
  have above : exponent ≤ own := by
    rcases large with rfl | large
    · exact least
    · have small : |(mantissa : ℚ)| < 2 ^ (53 : ℤ) := by exact_mod_cast small
      have below : |(mantissa * 2 ^ own : ℚ)| < 2 ^ (53 + own) := by
        rw [abs_mul, abs_of_pos (zpow_pos_two own), zpow_add₀ two_ne_zero]
        exact mul_lt_mul_of_pos_right small (zpow_pos_two own)
      have := (zpow_lt_zpow_iff_right₀ (by norm_num : (1 : ℚ) < 2)).mp (large.trans_lt below)
      omega
  obtain ⟨more, rfl⟩ := Int.le.dest above
  refine ⟨mantissa * 2 ^ more, ?_⟩
  rw [zpow_add₀ two_ne_zero, zpow_natCast]
  push_cast
  ring

/-- A multiple of the unit in the last place that is at most half a unit away is nearest. -/
theorem nearest_of_multiple {n exponent : ℤ} {exact : ℚ} (representable : Representable (n * 2 ^ exponent))
    (close : |n * 2 ^ exponent - exact| ≤ 2 ^ exponent / 2)
    (large : exponent = -1074 ∨ 2 ^ (exponent + 52) ≤ exact) : Nearest (n * 2 ^ exponent) exact := by
  have unit := zpow_pos_two exponent
  have multiples : ∀ m : ℤ, |n * 2 ^ exponent - exact| ≤ |m * 2 ^ exponent - exact| := by
    intro m
    rcases eq_or_ne m n with rfl | apart
    · exact le_refl _
    · have one : (1 : ℚ) ≤ |(m - n : ℤ)| := by
        exact_mod_cast Int.one_le_abs (sub_ne_zero.mpr apart)
      have far : (2 : ℚ) ^ exponent ≤ |(m : ℚ) * 2 ^ exponent - n * 2 ^ exponent| := by
        rw [← sub_mul, abs_mul, abs_of_pos unit]
        push_cast at one
        exact le_mul_of_one_le_left unit.le one
      have triangle := abs_sub_le (m * 2 ^ exponent : ℚ) exact (n * 2 ^ exponent)
      rw [abs_sub_comm exact] at triangle
      linarith
  refine ⟨representable, fun other isOther => ?_⟩
  by_cases multiple : exponent = -1074 ∨ 2 ^ (exponent + 52) ≤ |other|
  · obtain ⟨m, rfl⟩ := isOther.exists_multiple multiple
    exact multiples m
  · -- a finer number lies below the smallest one with this unit, which lies below the exact number
    rw [not_or, not_le] at multiple
    have large := large.resolve_left multiple.1
    have below : other < 2 ^ (exponent + 52) := (le_abs_self other).trans_lt multiple.2
    have nearer := multiples (2 ^ 52)
    have same : ((2 ^ 52 : ℤ) : ℚ) * 2 ^ exponent = 2 ^ (exponent + 52) := by
      rw [zpow_add₀ two_ne_zero, mul_comm]
      norm_cast
    rw [same, abs_of_nonpos (by linarith : (2 : ℚ) ^ (exponent + 52) - exact ≤ 0)] at nearer
    rw [abs_of_nonpos (by linarith : other - exact ≤ 0)]
    linarith

/-- Within the normal range there is a representable number at a relative distance of half a unit. -/
theorem Nearest.error {q exact : ℚ} (nearest : Nearest q exact) (least : 2 ^ (-1022 : ℤ) ≤ exact)
    (most : exact < 2 ^ (1023 : ℤ)) : |q - exact| ≤ exact / 2 ^ 53 := by
  have positive : 0 < exact := (zpow_pos_two _).trans_le least
  have base : (1 : ℚ) < 2 := by norm_num
  -- the unit in the last place of the exact number
  obtain ⟨log, isLog⟩ : ∃ log, log = Int.log 2 exact := ⟨_, rfl⟩
  have lower : (2 : ℚ) ^ log ≤ exact := by
    rw [isLog]
    exact_mod_cast Int.zpow_log_le_self (by norm_num : 1 < 2) positive
  have upper : exact < (2 : ℚ) ^ (log + 1) := by
    rw [isLog]
    exact_mod_cast Int.lt_zpow_succ_log_self (by norm_num : 1 < 2) exact
  have above : (-1022 : ℤ) < log + 1 := (zpow_lt_zpow_iff_right₀ base).mp (least.trans_lt upper)
  have below : log < 1023 := (zpow_lt_zpow_iff_right₀ base).mp (lower.trans_lt most)
  have unit := zpow_pos_two (log - 52)
  have scale : (2 : ℚ) ^ log = 2 ^ 52 * 2 ^ (log - 52) := by
    rw [zpow_sub₀ two_ne_zero]
    field_simp
  have scale' : (2 : ℚ) ^ (log + 1) = 2 ^ 53 * 2 ^ (log - 52) := by
    rw [zpow_add_one₀ two_ne_zero, scale]
    ring
  have rounds := abs_sub_round (exact / 2 ^ (log - 52))
  generalize round (exact / 2 ^ (log - 52)) = n at rounds
  have close : |(n : ℚ) * 2 ^ (log - 52) - exact| ≤ 2 ^ (log - 52) / 2 := by
    have same : (n : ℚ) * 2 ^ (log - 52) - exact = -((exact / 2 ^ (log - 52) - n) * 2 ^ (log - 52)) := by
      field_simp
      ring
    rw [same, abs_neg, abs_mul, abs_of_pos unit]
    linarith [mul_le_mul_of_nonneg_right rounds unit.le]
  have fits : |n| ≤ 2 ^ 53 := by
    have most : exact / 2 ^ (log - 52) < 2 ^ 53 := by rwa [div_lt_iff₀ unit, ← scale']
    have least : 0 < exact / 2 ^ (log - 52) := div_pos positive unit
    rw [abs_le] at rounds ⊢
    constructor
    · have : (-1 : ℚ) < n := by linarith
      have : -1 < n := by exact_mod_cast this
      omega
    · have : (n : ℚ) < 2 ^ 53 + 1 := by linarith
      have : n < 2 ^ 53 + 1 := by exact_mod_cast this
      omega
  have multiple : Representable (n * 2 ^ (log - 52)) :=
    representable_mul_zpow fits (by omega) (by omega)
  have nearer := nearest.le _ multiple
  rw [le_div_iff₀ (by norm_num)]
  linarith

/-! ## Shifting a mantissa -/

section

open Float.Model.UnpackedFloat

/-- Whether a mantissa with its two further bits tells where a number lies, in units of its last place. -/
def Locates (extended : ExtendedMantissa) (x : ℚ) : Prop :=
  match extended.roundBit, extended.stickyBit with
  | false, false => x = extended.mantissa
  | false, true => extended.mantissa < x ∧ x < extended.mantissa + 1 / 2
  | true, false => x = extended.mantissa + 1 / 2
  | true, true => extended.mantissa + 1 / 2 < x ∧ x < extended.mantissa + 1

namespace Locates

variable {extended : ExtendedMantissa} {x : ℚ}

theorem bounds (locates : Locates extended x) : extended.mantissa ≤ x ∧ x < extended.mantissa + 1 := by
  obtain ⟨mantissa, roundBit, stickyBit⟩ := extended
  cases roundBit <;> cases stickyBit <;> dsimp only [Locates] at locates ⊢ <;> constructor <;> linarith

theorem shiftRightOne (locates : Locates extended x) : Locates extended.shiftRightOne (x / 2) := by
  obtain ⟨mantissa, roundBit, stickyBit⟩ := extended
  obtain ⟨half, even | odd⟩ := Nat.even_or_odd' mantissa
  · have shifted : ExtendedMantissa.shiftRightOne ⟨mantissa, roundBit, stickyBit⟩ =
        ⟨half, false, roundBit || stickyBit⟩ := by
      simp [ExtendedMantissa.shiftRightOne, even]
    rw [shifted]
    subst even
    cases roundBit <;> cases stickyBit <;> simp only [Locates, Bool.or_false, Bool.or_true] at locates ⊢ <;>
      push_cast at locates
    · linarith
    all_goals constructor <;> linarith
  · have shifted : ExtendedMantissa.shiftRightOne ⟨mantissa, roundBit, stickyBit⟩ =
        ⟨half, true, roundBit || stickyBit⟩ := by
      simp only [ExtendedMantissa.shiftRightOne, odd, ExtendedMantissa.mk.injEq, and_true]
      exact ⟨by omega, by simp⟩
    rw [shifted]
    subst odd
    cases roundBit <;> cases stickyBit <;> simp only [Locates, Bool.or_false, Bool.or_true] at locates ⊢ <;>
      push_cast at locates
    · linarith
    all_goals constructor <;> linarith

theorem shiftRight (locates : Locates extended x) (n : Nat) : Locates (extended >>> n) (x / 2 ^ n) := by
  show Locates (n.repeat ExtendedMantissa.shiftRightOne extended) _
  induction n with
  | zero => rwa [pow_zero, div_one]
  | succ n ih =>
    rw [pow_succ, ← div_div]
    exact ih.shiftRightOne

/-- The rounded mantissa is at most half a unit away. -/
theorem close (locates : Locates extended x) : |extended.roundedMantissa - x| ≤ 1 / 2 := by
  obtain ⟨mantissa, roundBit, stickyBit⟩ := extended
  have parity : ((mantissa % 2 : ℕ) : ℚ) = 0 ∨ ((mantissa % 2 : ℕ) : ℚ) = 1 := by
    exact_mod_cast Nat.mod_two_eq_zero_or_one mantissa
  rw [abs_le]
  cases roundBit <;> cases stickyBit <;>
    simp only [Locates, ExtendedMantissa.roundedMantissa, ExtendedMantissa.accuracy,
      Accuracy.roundToNearestEven] at locates ⊢ <;> push_cast at locates ⊢
  · constructor <;> linarith
  · constructor <;> linarith
  · rcases parity with even | odd <;> constructor <;> linarith
  · constructor <;> linarith

theorem roundedMantissa_le (extended : ExtendedMantissa) :
    extended.mantissa ≤ extended.roundedMantissa ∧ extended.roundedMantissa ≤ extended.mantissa + 1 := by
  obtain ⟨mantissa, roundBit, stickyBit⟩ := extended
  cases roundBit <;> cases stickyBit <;>
    simp only [ExtendedMantissa.roundedMantissa, ExtendedMantissa.accuracy,
      Accuracy.roundToNearestEven] <;> omega

end Locates

end

end StockFlow.Double
