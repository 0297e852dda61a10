import StockFlow.Proofs.Bounds

/-!
# Numbers in order

Floating-point numbers that are no NaN compare like keys: first by sign, infinities outermost, then by
exponent and then by mantissa. So `≤` and `<` on them are a total preorder and its strict part.
-/

namespace StockFlow

/-- Numbers that, except for the undefined ones, are totally preordered. -/
class Scalar.Ordered (α : Type) [Scalar α] : Prop where
  defined_zero : Scalar.isUndefined (Scalar.zero : α) = false
  defined_of_le {x y : α} : Scalar.le x y = true →
    Scalar.isUndefined x = false ∧ Scalar.isUndefined y = false
  le_total {x y : α} : Scalar.isUndefined x = false → Scalar.isUndefined y = false →
    Scalar.le x y = true ∨ Scalar.le y x = true
  le_trans {x y z : α} : Scalar.le x y = true → Scalar.le y z = true → Scalar.le x z = true
  lt_iff {x y : α} : Scalar.lt x y = true ↔
    Scalar.isUndefined x = false ∧ Scalar.isUndefined y = false ∧ Scalar.le y x = false

namespace Scalar

section

variable {α : Type} [Scalar α] [Ordered α] {x y z : α}

theorem defined_of_lt (less : lt x y = true) : isUndefined x = false ∧ isUndefined y = false :=
  let ⟨one, two, _⟩ := Ordered.lt_iff.mp less
  ⟨one, two⟩

theorem lt_of_le_of_lt (less : le x y = true) (above : lt y z = true) : lt x z = true := by
  obtain ⟨-, defined, not⟩ := Ordered.lt_iff.mp above
  refine Ordered.lt_iff.mpr ⟨(Ordered.defined_of_le less).1, defined, Bool.eq_false_iff.mpr fun back => ?_⟩
  exact absurd (Ordered.le_trans back less) (Bool.eq_false_iff.mp not)

end

end Scalar

namespace Double

open Float.Model

/-- What numbers other than NaN are compared by. -/
def key : UnpackedFloat → Int × Int × Int
  | .notANumber => (0, 0, 0)
  | .infinity .negative => (-2, 0, 0)
  | .finite .negative m e _ => (-1, -e, -m)
  | .zero _ => (0, 0, 0)
  | .finite .positive m e _ => (1, e, m)
  | .infinity .positive => (2, 0, 0)

def compareKeys : Int × Int × Int → Int × Int × Int → Ordering :=
  compareLex (compareOn (·.1)) (compareLex (compareOn (·.2.1)) (compareOn (·.2.2)))

theorem compare_neg (a b : Int) : compare (-a) (-b) = (compare a b).swap := by
  rw [Int.compare_swap, Int.compare_eq_ite_lt, Int.compare_eq_ite_lt]
  simp only [Int.neg_lt_neg_iff]

theorem compare_natCast (m n : Nat) : compare (m : Int) n = compare m n := by
  rw [Int.compare_eq_ite_lt, Nat.compare_eq_ite_lt]
  simp only [Int.ofNat_lt]

theorem compare_eq_compareKeys {x y : UnpackedFloat} (one : x.isNaN = false) (two : y.isNaN = false) :
    x.compare y = some (compareKeys (key x) (key y)) := by
  cases x with
  | notANumber => cases one
  | infinity s =>
    cases y with
    | notANumber => cases two
    | infinity t => cases s <;> cases t <;> rfl
    | zero t => cases s <;> rfl
    | finite t _ _ _ => cases s <;> cases t <;> rfl
  | zero s =>
    cases y with
    | notANumber => cases two
    | infinity t => cases t <;> rfl
    | zero t => rfl
    | finite t _ _ _ => cases t <;> rfl
  | finite s m e _ =>
    cases y with
    | notANumber => cases two
    | infinity t => cases s <;> cases t <;> rfl
    | zero t => cases s <;> rfl
    | finite t n f _ =>
      have same : ∀ sign : Int, compareKeys (sign, e, m) (sign, f, n) =
          (compare e f).then (compare m n) := fun sign => by
        simp [compareKeys, compareLex, compareOn, compare_natCast]
      have opposite : ∀ sign : Int, compareKeys (sign, -e, -m) (sign, -f, -n) =
          ((compare e f).then (compare m n)).swap := fun sign => by
        simp [compareKeys, compareLex, compareOn, compare_neg, compare_natCast, Ordering.swap_then]
      cases s <;> cases t
      · exact congrArg some (opposite _).symm
      · rfl
      · rfl
      · exact congrArg some (same _).symm

theorem compare_eq_none {x y : UnpackedFloat} (undefined : x.isNaN = true ∨ y.isNaN = true) :
    x.compare y = none := by
  rcases undefined with one | two
  · cases x <;> cases one
    rfl
  · cases y <;> cases two
    cases x <;> rfl

/-- A comparison holds of two numbers if neither is NaN and it holds of their keys. -/
theorem compare_any_iff {x y : UnpackedFloat} {test : Ordering → Bool} :
    (x.compare y).any test = true ↔
      x.isNaN = false ∧ y.isNaN = false ∧ test (compareKeys (key x) (key y)) = true := by
  by_cases undefined : x.isNaN = true ∨ y.isNaN = true
  · rw [compare_eq_none undefined]
    rcases undefined with one | two
    · simp [one]
    · simp [two]
  · simp only [not_or, Bool.not_eq_true] at undefined
    rw [compare_eq_compareKeys undefined.1 undefined.2]
    simp [undefined.1, undefined.2]

instance : Std.TransCmp compareKeys := inferInstanceAs (Std.TransCmp (compareLex _ _))

theorem swap_compareKeys (a b : Int × Int × Int) : (compareKeys a b).swap = compareKeys b a :=
  Std.OrientedCmp.eq_swap.symm

theorem isLE_compareKeys {a b c : Int × Int × Int} :
    (compareKeys a b).isLE = true → (compareKeys b c).isLE = true → (compareKeys a c).isLE = true :=
  Std.TransCmp.isLE_trans

variable {x y : Float}

/-- The order of two numbers that are not NaN. -/
def order (x y : Float) : Ordering := compareKeys (key x.toModel.unpack) (key y.toModel.unpack)

theorem swap_order (x y : Float) : (order x y).swap = order y x := swap_compareKeys ..

theorem le_iff : Scalar.le x y = true ↔ Scalar.isUndefined x = false ∧ Scalar.isUndefined y = false ∧
    (order x y).isLE = true := by
  rw [le_eq, UnpackedFloat.le]
  exact compare_any_iff

theorem lt_iff : Scalar.lt x y = true ↔ Scalar.isUndefined x = false ∧ Scalar.isUndefined y = false ∧
    (order x y).isLT = true := by
  have same : ∀ order : Option Ordering, (order == some .lt) = order.any (·.isLT) := by
    rintro (_ | _ | _ | _) <;> rfl
  rw [lt_eq, UnpackedFloat.lt, same]
  exact compare_any_iff

instance : Scalar.Ordered Float where
  defined_zero := by decide
  defined_of_le less := ⟨(le_iff.mp less).1, (le_iff.mp less).2.1⟩
  le_total {x y} one two := by
    simp only [le_iff, one, two, true_and, ← swap_order x y]
    cases order x y <;> simp
  le_trans less more := by
    obtain ⟨one, -, first⟩ := le_iff.mp less
    obtain ⟨-, two, second⟩ := le_iff.mp more
    exact le_iff.mpr ⟨one, two, isLE_compareKeys first second⟩
  lt_iff {x y} := by
    have back : Scalar.le y x = false ↔ ¬ (Scalar.isUndefined y = false ∧ Scalar.isUndefined x = false ∧
        (order y x).isLE = true) := by
      rw [← le_iff, Bool.not_eq_true]
    rw [lt_iff, back, ← swap_order x y]
    cases order x y <;> simp +contextual

end Double
end StockFlow
