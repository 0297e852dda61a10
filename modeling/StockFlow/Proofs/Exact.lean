import Mathlib.Algebra.Order.Archimedean.Real.Basic
import Mathlib.Data.Rat.Floor
import Mathlib.Data.Rat.Cast.Order
import Mathlib.Tactic.FieldSimp
import Mathlib.Tactic.Linarith
import StockFlow.Plan.Clock

/-!
# Exact arithmetic

Numbers that stand for real ones, with which the four operations, comparisons and counts are exact. Of
such numbers a clock makes as many rows as save steps begin before the stop, and saves one whenever so
many steps have been taken as are nearest to a save step. The rational numbers are an instance.
-/

namespace StockFlow

namespace Scalar

/-- Arithmetic without rounding and overflow: what is computed of finite numbers stands for the same of
the real numbers that they stand for. -/
class Exact (α : Type) [Scalar α] where
  /-- The real number that a finite number stands for. -/
  real : α → ℝ
  real_ofNat (n : Nat) : isFinite (ofNat n : α) ∧ real (ofNat n) = n
  real_add {x y : α} : isFinite x → isFinite y → isFinite (x + y) ∧ real (x + y) = real x + real y
  real_sub {x y : α} : isFinite x → isFinite y → isFinite (x - y) ∧ real (x - y) = real x - real y
  real_mul {x y : α} : isFinite x → isFinite y → isFinite (x * y) ∧ real (x * y) = real x * real y
  real_div {x y : α} : isFinite x → isFinite y → real y ≠ 0 →
    isFinite (x / y) ∧ real (x / y) = real x / real y
  lt_iff {x y : α} : isFinite x → isFinite y → (lt x y ↔ real x < real y)
  le_iff {x y : α} : isFinite x → isFinite y → (le x y ↔ real x ≤ real y)
  count_eq {x : α} : isFinite x → count x = ⌊real x⌋₊

export Exact (real)

variable {α : Type} [Scalar α] [Exact α]

theorem isFinite_zero : isFinite (zero : α) := (Exact.real_ofNat 0).1

@[simp] theorem real_zero : real (zero : α) = 0 := (Exact.real_ofNat 0).2.trans Nat.cast_zero

theorem le_zero_iff {x : α} (finite : isFinite x) : le x zero ↔ real x ≤ 0 := by
  rw [Exact.le_iff finite isFinite_zero, real_zero]

end Scalar

open Scalar (real)

/-! ## Rational numbers -/

/-- A rational number, or the undefined one in place of a number that is not rational. -/
inductive Rational where
  | undefined
  | value (value : Rat)
  deriving DecidableEq, Repr

namespace Rational

def map (operation : Rat → Rational) : Rational → Rational
  | undefined => undefined
  | value x => operation x

def map₂ (operation : Rat → Rat → Rational) : Rational → Rational → Rational
  | value x, value y => operation x y
  | _, _ => undefined

def holds (relation : Rat → Rat → Bool) : Rational → Rational → Bool
  | value x, value y => relation x y
  | _, _ => false

def quotient (x y : Rat) : Rational := if y = 0 then undefined else value (x / y)

/-- A power with a whole exponent. -/
def power (x y : Rat) : Rational :=
  if y.den ≠ 1 then undefined
  else if 0 ≤ y then value (x ^ y.num.toNat)
  else quotient 1 (x ^ y.num.natAbs)

def modulo (x y : Rat) : Rational :=
  if y = 0 then undefined else value (x - |y| * (x / |y|).floor)

def elementary : Elementary → Rat → Rational
  | .abs, x => value |x|
  | .floor, x => value x.floor
  | _, _ => undefined

def ofDecimal (decimal : Decimal) : Rat :=
  let significand : Rat := if decimal.negative then -decimal.digits else decimal.digits
  if 0 ≤ decimal.exponent then significand * 10 ^ decimal.exponent.toNat
  else significand / 10 ^ decimal.exponent.natAbs

def ofLiteral : Literal → Rational
  | .finite decimal => value (ofDecimal decimal)
  | .infinite _ => undefined
  | .undefined _ => undefined

/-- The whole part as a number token. -/
def toNumeral : Rational → Numeral
  | undefined => .ofNat 0
  | value x => ⟨x < 0, Digits.ofNat (x.num.natAbs / x.den), [], 0, true⟩

def text : Rational → String
  | undefined => "NaN"
  | value x => toString x

instance : Scalar Rational where
  add := map₂ fun x y => value (x + y)
  sub := map₂ fun x y => value (x - y)
  mul := map₂ fun x y => value (x * y)
  div := map₂ quotient
  ofNat n := value n
  undefined := undefined
  infinity := undefined
  pi := undefined
  power := map₂ power
  modulo := map₂ modulo
  elementary function := map (elementary function)
  lt := holds (· < ·)
  le := holds (· ≤ ·)
  same := holds (· = ·)
  close := holds (· = ·)
  isFinite x := x != undefined
  isUndefined x := x == undefined
  count
    | undefined => 0
    | value x => x.floor.toNat
  ofLiteral := ofLiteral
  ofNumeral? numeral := some (value (ofDecimal numeral.toDecimal))
  toNumeral := toNumeral
  text _ := text

def toReal : Rational → ℝ
  | undefined => 0
  | value x => x

theorem exists_value {x : Rational} (finite : Scalar.isFinite x) : ∃ q, x = value q := by
  cases x with
  | undefined => cases finite
  | value q => exact ⟨q, rfl⟩

instance : Scalar.Exact Rational where
  real := toReal
  real_ofNat n := ⟨rfl, Rat.cast_natCast n⟩
  real_add {x y} := by
    intro finite finite'
    obtain ⟨p, rfl⟩ := exists_value finite
    obtain ⟨q, rfl⟩ := exists_value finite'
    exact ⟨rfl, Rat.cast_add p q⟩
  real_sub {x y} := by
    intro finite finite'
    obtain ⟨p, rfl⟩ := exists_value finite
    obtain ⟨q, rfl⟩ := exists_value finite'
    exact ⟨rfl, Rat.cast_sub p q⟩
  real_mul {x y} := by
    intro finite finite'
    obtain ⟨p, rfl⟩ := exists_value finite
    obtain ⟨q, rfl⟩ := exists_value finite'
    exact ⟨rfl, Rat.cast_mul p q⟩
  real_div {x y} := by
    intro finite finite' nonzero
    obtain ⟨p, rfl⟩ := exists_value finite
    obtain ⟨q, rfl⟩ := exists_value finite'
    have nonzero : q ≠ 0 := fun zero => nonzero (by rw [zero]; exact Rat.cast_zero)
    have divided : value p / value q = value (p / q) := if_neg nonzero
    rw [divided]
    exact ⟨rfl, Rat.cast_div p q⟩
  lt_iff {x y} := by
    intro finite finite'
    obtain ⟨p, rfl⟩ := exists_value finite
    obtain ⟨q, rfl⟩ := exists_value finite'
    exact decide_eq_true_iff.trans Rat.cast_lt.symm
  le_iff {x y} := by
    intro finite finite'
    obtain ⟨p, rfl⟩ := exists_value finite
    obtain ⟨q, rfl⟩ := exists_value finite'
    exact decide_eq_true_iff.trans Rat.cast_le.symm
  count_eq {x} := by
    intro finite
    obtain ⟨p, rfl⟩ := exists_value finite
    show p.floor.toNat = ⌊(p : ℝ)⌋₊
    rw [← Int.floor_toNat, Rat.floor_cast]
    rfl

end Rational

/-! ## Clocks -/

theorem TimeSpec.validate_eq_ok {α : Type} [Scalar α] {spec : TimeSpec α} :
    spec.validate = .ok () ↔
      (Scalar.isFinite spec.start ∧ Scalar.isFinite spec.stop ∧ Scalar.isFinite spec.dt ∧
        Scalar.isFinite spec.saveStep) ∧ ¬Scalar.le spec.dt Scalar.zero ∧
        ¬Scalar.lt spec.stop spec.start ∧ ¬Scalar.lt spec.saveStep spec.dt := by
  simp only [validate, fault]
  grind

namespace Clock

variable {α : Type} [Scalar α] [Scalar.Exact α] {clock : Clock α}

/-- Whether the times of a clock are real numbers of which it can make a run. -/
structure IsValid (clock : Clock α) : Prop where
  start : Scalar.isFinite clock.start
  stop : Scalar.isFinite clock.stop
  dt : Scalar.isFinite clock.dt
  saveStep : Scalar.isFinite clock.saveStep
  positive : 0 < real clock.dt
  forward : real clock.start ≤ real clock.stop
  spaced : real clock.dt ≤ real clock.saveStep

theorem isValid_of_validate {spec : TimeSpec α} (valid : spec.validate = .ok ()) :
    (ofSpec spec).IsValid := by
  obtain ⟨⟨start, stop, dt, saveStep⟩, positive, forward, spaced⟩ :=
    TimeSpec.validate_eq_ok.mp valid
  rw [Scalar.Exact.lt_iff stop start, not_lt] at forward
  rw [Scalar.Exact.lt_iff saveStep dt, not_lt] at spaced
  rw [Scalar.le_zero_iff dt, not_le] at positive
  exact ⟨start, stop, dt, saveStep, positive, forward, spaced⟩

/-- How long a run is to be. -/
noncomputable def span (clock : Clock α) : ℝ := real clock.stop - real clock.start

namespace IsValid

variable (valid : clock.IsValid)
include valid

theorem saveStep_pos : 0 < real clock.saveStep := valid.positive.trans_le valid.spaced

theorem span_nonneg : 0 ≤ clock.span := sub_nonneg.mpr valid.forward

theorem savedRows_eq : clock.savedRows = ⌊clock.span / real clock.saveStep⌋₊ + 1 := by
  obtain ⟨finite, span⟩ := Scalar.Exact.real_sub valid.stop valid.start
  obtain ⟨finite, quotient⟩ := Scalar.Exact.real_div finite valid.saveStep valid.saveStep_pos.ne'
  obtain ⟨finite', one⟩ := Scalar.Exact.real_ofNat (α := α) 1
  obtain ⟨finite, sum⟩ := Scalar.Exact.real_add finite finite'
  rw [savedRows, Scalar.Exact.count_eq finite, sum, quotient, span, one, Nat.cast_one]
  exact Nat.floor_add_one (div_nonneg valid.span_nonneg valid.saveStep_pos.le)

/-- The steps between saved rows are as many as are nearest to a save step. -/
theorem saveEvery_eq : clock.saveEvery = ⌊real clock.saveStep / real clock.dt + 1 / 2⌋₊ := by
  obtain ⟨one, one_eq⟩ := Scalar.Exact.real_ofNat (α := α) 1
  obtain ⟨two, two_eq⟩ := Scalar.Exact.real_ofNat (α := α) 2
  obtain ⟨half, half_eq⟩ := Scalar.Exact.real_div one two (by rw [two_eq]; norm_num)
  obtain ⟨finite, quotient⟩ := Scalar.Exact.real_div valid.saveStep valid.dt valid.positive.ne'
  obtain ⟨finite, sum⟩ := Scalar.Exact.real_add finite half
  rw [saveEvery, Scalar.Exact.count_eq finite, sum, quotient, half_eq, one_eq, two_eq, Nat.cast_one,
    Nat.cast_two]
  have ratio : 1 ≤ real clock.saveStep / real clock.dt := (one_le_div valid.positive).mpr valid.spaced
  refine max_eq_right (Nat.le_floor ?_)
  rw [Nat.cast_one]
  linarith

end IsValid

end Clock
end StockFlow
