import StockFlow.Proofs.Bounds
import StockFlow.Proofs.Exact

/-!
# Interpolation

With exact arithmetic a look-up is linear between the points of its table and constant outside of them,
up to the tolerance with which it hits a point. Where the heights of the points do not decrease, neither
does the answer.
-/

namespace StockFlow

open Scalar (real)

/-! ## Numbers that are about equal -/

namespace Scalar

/-- Numbers of which none is both finite and undefined. -/
class Defined (α : Type) [Scalar α] : Prop where
  not_isUndefined {x : α} : isFinite x = true → isUndefined x = false

instance : Defined Rational where
  not_isUndefined {x} finite := by
    obtain ⟨q, rfl⟩ := Rational.exists_value finite
    rfl

/-- Whether a test that holds of a number and a smaller one holds of the number and all between them. -/
def IsTolerance {α : Type} [Scalar α] [Exact α] (test : α → α → Bool) : Prop :=
  ∀ {x y z : α}, isFinite x → isFinite y → isFinite z → real y ≤ real z → real z ≤ real x →
    test x y = true → test x z = true

end Scalar

/-! ## Points -/

namespace Table

variable {α : Type} [Scalar α] [Scalar.Exact α] {graph : GraphicalFunction α} {table : Table α} {x y : α}
  {i j : ℕ} {q : ℝ}

noncomputable def position (table : Table α) (i : ℕ) : ℝ := real (table.point i).1

noncomputable def height (table : Table α) (i : ℕ) : ℝ := real (table.point i).2

/-- Whether a table has points, all of them finite and in the order of their positions. -/
structure IsCurve (table : Table α) : Prop where
  nonempty : 0 < table.points.size
  finite {i : ℕ} (inside : i < table.points.size) :
    Scalar.isFinite (table.point i).1 ∧ Scalar.isFinite (table.point i).2
  ascending {i j : ℕ} (le : i ≤ j) (inside : j < table.points.size) : table.position i ≤ table.position j

theorem pairwise_of_not_decreases {xs : List α} (finite : ∀ x ∈ xs, Scalar.isFinite x = true)
    (ordered : decreases xs = false) : xs.Pairwise (real · ≤ real ·) := by
  fun_induction decreases xs with
  | case1 x y rest ih =>
    obtain ⟨here, others⟩ := List.forall_mem_cons.mp finite
    obtain ⟨next, -⟩ := List.forall_mem_cons.mp others
    rw [Bool.or_eq_false_iff] at ordered
    have sorted := ih others ordered.2
    have le : real x ≤ real y := not_lt.mp fun less => by
      rw [(Scalar.Exact.lt_iff next here).mpr less] at ordered
      cases ordered.1
    refine List.pairwise_cons.mpr ⟨fun z member => ?_, sorted⟩
    rcases List.mem_cons.mp member with rfl | later
    · exact le
    · exact le.trans (List.rel_of_pairwise_cons sorted later)
  | case2 xs short =>
    match xs, short with
    | [], _ => exact List.Pairwise.nil
    | [x], _ => exact List.pairwise_singleton _ x
    | x :: y :: rest, short => exact absurd rfl (short x y rest)

theorem isCurve_of_build (built : build graph = .ok table) : table.IsCurve := by
  obtain ⟨xs, -, nonempty, matched, finite, ordered, rfl⟩ := build_eq_ok.mp built
  have size : (xs.zip graph.yPoints).length = xs.length := by rw [List.length_zip, ← matched, min_self]
  have point : ∀ i (inside : i < xs.length), Table.point ⟨(xs.zip graph.yPoints).toArray⟩ i =
      (xs[i], graph.yPoints.get ⟨i, matched ▸ inside⟩) := by
    intro i inside
    simp [Table.point, Array.getD_eq_getD_getElem?, inside, matched ▸ inside]
  have sorted := pairwise_of_not_decreases (fun x member => finite x (List.mem_append_left _ member)) ordered
  refine ⟨?_, fun {i} inside => ?_, fun {i j} le inside => ?_⟩
  · rw [List.size_toArray, size]
    exact List.length_pos_of_ne_nil nonempty
  · rw [List.size_toArray, size] at inside
    rw [point i inside]
    exact ⟨finite _ (List.mem_append_left _ (List.getElem_mem _)),
      finite _ (List.mem_append_right _ (List.getElem_mem _))⟩
  · rw [List.size_toArray, size] at inside
    rw [position, position, point i (by omega), point j inside]
    rcases Nat.lt_or_eq_of_le le with less | rfl
    · exact List.pairwise_iff_getElem.mp sorted i j _ _ less
    · exact le_refl _

/-! ## Segments -/

/-- Whether a number lies behind one point of a table and not behind the next one. -/
structure Brackets (table : Table α) (q : ℝ) (i : ℕ) : Prop where
  positive : 0 < i
  inside : i < table.points.size
  before : table.position (i - 1) < q
  after : q ≤ table.position i

/-- The height at a number of the line through two neighbouring points. -/
noncomputable def line (table : Table α) (i : ℕ) (q : ℝ) : ℝ :=
  table.height (i - 1) + (q - table.position (i - 1)) * (table.height i - table.height (i - 1)) /
    (table.position i - table.position (i - 1))

namespace Brackets

variable (brackets : table.Brackets q i)
include brackets

theorem width_pos : 0 < table.position i - table.position (i - 1) :=
  sub_pos.mpr (brackets.before.trans_le brackets.after)

theorem le (curve : table.IsCurve) {r : ℝ} (other : table.Brackets r j) (order : q ≤ r) : i ≤ j := by
  by_contra above
  have between : table.position j ≤ table.position (i - 1) :=
    curve.ascending (by omega) (by have := brackets.inside; omega)
  exact absurd (other.after.trans between) (not_le.mpr (brackets.before.trans_le order))

theorem unique (curve : table.IsCurve) (other : table.Brackets q j) : j = i :=
  le_antisymm (other.le curve brackets le_rfl) (brackets.le curve other le_rfl)

/-- On a segment the line stays between the heights of its ends. -/
theorem line_mem : table.line i q ∈ Set.uIcc (table.height (i - 1)) (table.height i) := by
  have width := brackets.width_pos
  have part : 0 ≤ (q - table.position (i - 1)) / (table.position i - table.position (i - 1)) :=
    div_nonneg (sub_pos.mpr brackets.before).le width.le
  have whole : (q - table.position (i - 1)) / (table.position i - table.position (i - 1)) ≤ 1 :=
    (div_le_one width).mpr (sub_le_sub_right brackets.after _)
  have affine : table.line i q = table.height (i - 1) +
      (q - table.position (i - 1)) / (table.position i - table.position (i - 1)) *
        (table.height i - table.height (i - 1)) := by rw [line, div_mul_eq_mul_div]
  rw [affine]
  rcases le_total (table.height (i - 1)) (table.height i) with rises | falls
  · rw [Set.uIcc_of_le rises]
    constructor <;> nlinarith
  · rw [Set.uIcc_of_ge falls]
    constructor <;> nlinarith

theorem line_mono {r : ℝ} (order : q ≤ r) (rises : table.height (i - 1) ≤ table.height i) :
    table.line i q ≤ table.line i r := by
  have width := brackets.width_pos
  unfold line
  gcongr

omit brackets in
theorem real_interpolate (curve : table.IsCurve) (finite : Scalar.isFinite x)
    (brackets : table.Brackets (real x) i) :
    Scalar.isFinite (interpolate (table.point (i - 1)) (table.point i) x) ∧
      real (interpolate (table.point (i - 1)) (table.point i) x) = table.line i (real x) := by
  obtain ⟨left, bottom⟩ := curve.finite (i := i - 1) (by have := brackets.inside; omega)
  obtain ⟨right, top⟩ := curve.finite brackets.inside
  obtain ⟨finiteRise, rise⟩ := Scalar.Exact.real_sub top bottom
  obtain ⟨finiteWidth, width⟩ := Scalar.Exact.real_sub right left
  have nonzero : real ((table.point i).1 - (table.point (i - 1)).1) ≠ 0 := by
    rw [width]
    exact brackets.width_pos.ne'
  obtain ⟨finiteSlope, slope⟩ := Scalar.Exact.real_div finiteRise finiteWidth nonzero
  obtain ⟨finiteRun, run⟩ := Scalar.Exact.real_sub finite left
  obtain ⟨finiteProduct, product⟩ := Scalar.Exact.real_mul finiteRun finiteSlope
  obtain ⟨finiteSum, sum⟩ := Scalar.Exact.real_add finiteProduct bottom
  refine ⟨finiteSum, ?_⟩
  rw [interpolate, sum, product, run, slope, rise, width, line, position, position, height, height]
  ring

end Brackets

/-! ## Looking up -/

/-- Where a number lies behind the first point and before the last one, halving ends at the point behind
which it lies, however many steps it is given beyond the number of points. -/
theorem IsCurve.exists_brackets (curve : table.IsCurve) (finite : Scalar.isFinite x)
    (late : table.position 0 < real x) (early : real x < table.position (table.points.size - 1)) :
    ∃ i, table.Brackets (real x) i ∧ table.firstNotBefore x table.points.size 0 table.points.size = i ∧
      ∀ steps, table.points.size ≤ steps → table.search? x steps 0 table.points.size = some i := by
  have nonempty := curve.nonempty
  have search := fun steps (enough : table.points.size - 0 ≤ steps) => table.search?_eq (x := x)
    ⟨Nat.zero_le _, Nat.le_refl _, .inl rfl, .inl rfl⟩ enough
  have brackets : ∀ {i}, table.Encloses x i i → table.Brackets (real x) i := by
    intro i encloses
    have positive : 0 < i := Nat.pos_of_ne_zero fun first => by
      subst first
      rcases encloses.after with empty | above
      · omega
      · rw [(Scalar.Exact.lt_iff (curve.finite nonempty).1 finite).mpr late] at above
        cases above
    have before := encloses.before.resolve_left positive.ne'
    have inside := encloses.inside
    rw [Scalar.Exact.lt_iff (curve.finite (by omega)).1 finite] at before
    have within : i < table.points.size := Nat.lt_of_le_of_ne inside fun ends => by
      subst ends
      exact absurd before early.not_gt
    refine ⟨positive, within, before, not_lt.mp fun above => ?_⟩
    rcases encloses.after with ends | behind
    · omega
    · rw [(Scalar.Exact.lt_iff (curve.finite within).1 finite).mpr above] at behind
      cases behind
  -- the search encloses one place, and no two places bracket the same argument
  obtain ⟨i, -, found, encloses⟩ := search table.points.size (Nat.sub_le ..)
  refine ⟨i, brackets encloses, found, fun steps enough => ?_⟩
  obtain ⟨j, found', -, encloses'⟩ := search steps ((Nat.sub_le ..).trans enough)
  rw [found', (brackets encloses).unique curve (brackets encloses')]

namespace IsCurve

variable (curve : table.IsCurve) (finite : Scalar.isFinite x)
include curve finite

theorem le_first_iff : Scalar.le x (table.point 0).1 = true ↔ real x ≤ table.position 0 :=
  Scalar.Exact.le_iff finite (curve.finite curve.nonempty).1

theorem last_le_iff :
    Scalar.le (table.point (table.points.size - 1)).1 x = true ↔
      table.position (table.points.size - 1) ≤ real x :=
  Scalar.Exact.le_iff (curve.finite (by have := curve.nonempty; omega)).1 finite

variable [Scalar.Defined α]

theorem not_refused : ¬ (decide (table.points.size = 0) || Scalar.isUndefined x) = true := by
  simp [curve.nonempty.ne', Scalar.Defined.not_isUndefined finite]

theorem lookup_of_le_first (before : real x ≤ table.position 0) : table.lookup x = (table.point 0).2 := by
  unfold lookup
  dsimp only
  rw [if_neg (curve.not_refused finite), if_pos ((curve.le_first_iff finite).mpr before)]

theorem lookup_of_last_le (late : table.position 0 < real x)
    (behind : table.position (table.points.size - 1) ≤ real x) :
    table.lookup x = (table.point (table.points.size - 1)).2 := by
  unfold lookup
  dsimp only
  rw [if_neg (curve.not_refused finite), if_neg (mt (curve.le_first_iff finite).mp late.not_ge),
    if_pos ((curve.last_le_iff finite).mpr behind)]

theorem lookup_of_brackets (brackets : table.Brackets (real x) i)
    (early : real x < table.position (table.points.size - 1)) :
    table.lookup x = if Scalar.close (table.point i).1 x then (table.point i).2
      else interpolate (table.point (i - 1)) (table.point i) x := by
  have late : table.position 0 < real x :=
    (curve.ascending (Nat.zero_le _) ((Nat.sub_le _ _).trans_lt brackets.inside)).trans_lt brackets.before
  obtain ⟨j, other, found, -⟩ := curve.exists_brackets finite late early
  rw [brackets.unique curve other] at found
  unfold lookup
  dsimp only
  rw [if_neg (curve.not_refused finite), if_neg (mt (curve.le_first_iff finite).mp late.not_ge),
    if_neg (mt (curve.last_le_iff finite).mp early.not_ge), found]

/-- Between two points a look-up gives the height of the right one or that of the line. -/
theorem real_lookup_of_brackets (brackets : table.Brackets (real x) i)
    (early : real x < table.position (table.points.size - 1)) :
    real (table.lookup x) =
      if Scalar.close (table.point i).1 x then table.height i else table.line i (real x) := by
  rw [curve.lookup_of_brackets finite brackets early]
  split
  · rfl
  · exact (Brackets.real_interpolate curve finite brackets).2

theorem lookup_mem_of_brackets (brackets : table.Brackets (real x) i)
    (early : real x < table.position (table.points.size - 1)) :
    real (table.lookup x) ∈ Set.uIcc (table.height (i - 1)) (table.height i) := by
  rw [curve.real_lookup_of_brackets finite brackets early]
  split
  · exact Set.right_mem_uIcc
  · exact brackets.line_mem

end IsCurve

/-- Whether the heights of a table do not decrease. -/
def Rises (table : Table α) : Prop :=
  ∀ i j, i ≤ j → j < table.points.size → table.height i ≤ table.height j

namespace Rises

variable [Scalar.Defined α] (rises : table.Rises) (curve : table.IsCurve)
include rises curve

theorem lookup_mem_of_brackets (finite : Scalar.isFinite x) (brackets : table.Brackets (real x) i)
    (early : real x < table.position (table.points.size - 1)) :
    table.height (i - 1) ≤ real (table.lookup x) ∧ real (table.lookup x) ≤ table.height i := by
  have within := curve.lookup_mem_of_brackets finite brackets early
  rwa [Set.uIcc_of_le (rises (i - 1) i (Nat.sub_le _ _) brackets.inside)] at within

theorem height_first_le_lookup (finite : Scalar.isFinite x) : table.height 0 ≤ real (table.lookup x) := by
  have nonempty := curve.nonempty
  rcases le_or_gt (real x) (table.position 0) with before | late
  · rw [curve.lookup_of_le_first finite before]
    exact le_rfl
  rcases le_or_gt (table.position (table.points.size - 1)) (real x) with behind | early
  · rw [curve.lookup_of_last_le finite late behind]
    exact rises 0 _ (Nat.zero_le _) (by omega)
  obtain ⟨i, brackets, -⟩ := curve.exists_brackets finite late early
  exact (rises 0 (i - 1) (Nat.zero_le _) ((Nat.sub_le _ _).trans_lt brackets.inside)).trans
    (rises.lookup_mem_of_brackets curve finite brackets early).1

theorem lookup_le_height_last (finite : Scalar.isFinite x) :
    real (table.lookup x) ≤ table.height (table.points.size - 1) := by
  have nonempty := curve.nonempty
  rcases le_or_gt (real x) (table.position 0) with before | late
  · rw [curve.lookup_of_le_first finite before]
    exact rises 0 _ (Nat.zero_le _) (by omega)
  rcases le_or_gt (table.position (table.points.size - 1)) (real x) with behind | early
  · rw [curve.lookup_of_last_le finite late behind]
    exact le_rfl
  obtain ⟨i, brackets, -⟩ := curve.exists_brackets finite late early
  exact (rises.lookup_mem_of_brackets curve finite brackets early).2.trans
    (rises i _ (Nat.le_sub_one_of_lt brackets.inside) (by omega))

/-- On one segment: behind a number that hits the right point there are only such numbers, and before it
the line rises. -/
theorem lookup_mono_of_brackets (tolerant : Scalar.IsTolerance (Scalar.close : α → α → Bool))
    (finite : Scalar.isFinite x) (finite' : Scalar.isFinite y) (order : real x ≤ real y)
    (brackets : table.Brackets (real x) i) (brackets' : table.Brackets (real y) i)
    (early : real y < table.position (table.points.size - 1)) :
    real (table.lookup x) ≤ real (table.lookup y) := by
  have hit : Scalar.close (table.point i).1 x = true → Scalar.close (table.point i).1 y = true :=
    tolerant (curve.finite brackets.inside).1 finite finite' order brackets'.after
  have upper := (rises.lookup_mem_of_brackets curve finite brackets (order.trans_lt early)).2
  rw [curve.real_lookup_of_brackets finite' brackets' early]
  split
  · exact upper
  · rename_i apart
    rw [curve.real_lookup_of_brackets finite brackets (order.trans_lt early), if_neg (mt hit apart)]
    exact brackets.line_mono order (rises (i - 1) i (Nat.sub_le _ _) brackets.inside)

theorem lookup_mono (tolerant : Scalar.IsTolerance (Scalar.close : α → α → Bool))
    (finite : Scalar.isFinite x) (finite' : Scalar.isFinite y) (order : real x ≤ real y) :
    real (table.lookup x) ≤ real (table.lookup y) := by
  rcases le_or_gt (real x) (table.position 0) with before | late
  · rw [curve.lookup_of_le_first finite before]
    exact rises.height_first_le_lookup curve finite'
  rcases le_or_gt (table.position (table.points.size - 1)) (real y) with behind | early
  · rw [curve.lookup_of_last_le finite' (late.trans_le order) behind]
    exact rises.lookup_le_height_last curve finite
  obtain ⟨i, brackets, -⟩ := curve.exists_brackets finite late (order.trans_lt early)
  obtain ⟨j, brackets', -⟩ := curve.exists_brackets finite' (late.trans_le order) early
  rcases Nat.lt_or_eq_of_le (brackets.le curve brackets' order) with earlier | rfl
  · calc real (table.lookup x) ≤ table.height i :=
          (rises.lookup_mem_of_brackets curve finite brackets (order.trans_lt early)).2
      _ ≤ table.height (j - 1) :=
          rises i (j - 1) (Nat.le_sub_one_of_lt earlier) ((Nat.sub_le _ _).trans_lt brackets'.inside)
      _ ≤ real (table.lookup y) := (rises.lookup_mem_of_brackets curve finite' brackets' early).1
  · exact rises.lookup_mono_of_brackets curve tolerant finite finite' order brackets brackets' early

end Rises

/-- **A look-up interpolates between the points of its table.** It keeps to the end heights outside of
them. Inside, the search ends at the one point that is the first not before the number, however many steps
it is given beyond the number of points; the answer is the height of that point where the number hits it,
else that of the line from the point before it, and in both cases lies between the two heights. If the
heights do not decrease, neither does the answer. -/
theorem lookup_interpolates [Scalar.Defined α] (built : build graph = .ok table)
    (tolerant : Scalar.IsTolerance (Scalar.close : α → α → Bool)) (finite : Scalar.isFinite x) :
    (real x ≤ table.position 0 → table.lookup x = (table.point 0).2) ∧
    (table.position 0 < real x → table.position (table.points.size - 1) ≤ real x →
      table.lookup x = (table.point (table.points.size - 1)).2) ∧
    (table.position 0 < real x → real x < table.position (table.points.size - 1) →
      ∃ i, table.Brackets (real x) i ∧ (∀ j, table.Brackets (real x) j → j = i) ∧
        table.firstNotBefore x table.points.size 0 table.points.size = i ∧
        (∀ steps, table.points.size ≤ steps → table.search? x steps 0 table.points.size = some i) ∧
        0 < table.position i - table.position (i - 1) ∧
        (Scalar.close (table.point i).1 x → table.lookup x = (table.point i).2) ∧
        (¬ Scalar.close (table.point i).1 x →
          Scalar.isFinite (table.lookup x) ∧ real (table.lookup x) = table.line i (real x)) ∧
        real (table.lookup x) ∈ Set.uIcc (table.height (i - 1)) (table.height i)) ∧
    (table.Rises → ∀ y, Scalar.isFinite y → real x ≤ real y →
      real (table.lookup x) ≤ real (table.lookup y)) := by
  have curve := isCurve_of_build built
  refine ⟨curve.lookup_of_le_first finite, curve.lookup_of_last_le finite, fun late early => ?_,
    fun rises y finite' order => rises.lookup_mono curve tolerant finite finite' order⟩
  obtain ⟨i, brackets, found, ends⟩ := curve.exists_brackets finite late early
  have answer := curve.lookup_of_brackets finite brackets early
  refine ⟨i, brackets, fun j other => brackets.unique curve other, found, ends, brackets.width_pos,
    fun hit => ?_, fun apart => ?_, curve.lookup_mem_of_brackets finite brackets early⟩
  · rw [answer, if_pos hit]
  · rw [answer, if_neg apart]
    exact Brackets.real_interpolate curve finite brackets

end Table

/-! ## An example with a tolerance -/

namespace Rational

/-- The rational numbers, where those are about equal that lie no further apart than a distance. -/
abbrev within (distance : Rat) : Scalar Rational :=
  { (inferInstance : Scalar Rational) with close := holds fun x y => |x - y| ≤ distance }

/-- The arithmetic is exact whatever the distance. -/
abbrev exactWithin (distance : Rat) : @Scalar.Exact Rational (within distance) :=
  let exact : Scalar.Exact Rational := inferInstance
  @Scalar.Exact.mk Rational (within distance) exact.real exact.real_ofNat exact.real_add exact.real_sub
    exact.real_mul exact.real_div exact.lt_iff exact.le_iff exact.count_eq

theorem definedWithin (distance : Rat) : @Scalar.Defined Rational (within distance) :=
  let defined : Scalar.Defined Rational := inferInstance
  @Scalar.Defined.mk Rational (within distance) defined.not_isUndefined

theorem isTolerance_within (distance : Rat) :
    @Scalar.IsTolerance Rational (within distance) (exactWithin distance) (within distance).close := by
  intro x y z finite finite' finite'' least most close
  obtain ⟨p, rfl⟩ := exists_value finite
  obtain ⟨q, rfl⟩ := exists_value finite'
  obtain ⟨r, rfl⟩ := exists_value finite''
  replace least : q ≤ r := Rat.cast_le.mp least
  replace most : r ≤ p := Rat.cast_le.mp most
  replace close : |p - q| ≤ distance := of_decide_eq_true close
  refine decide_eq_true (p := |p - r| ≤ distance) ?_
  rw [abs_of_nonneg (by linarith)] at close ⊢
  linarith

end Rational

namespace Table

/-- A graphical function that jumps at 1. -/
def jump : GraphicalFunction Rational where
  xPoints? := some [.value 0, .value 1, .value 1, .value 3]
  yPoints := [.value 0, .value 2, .value 4, .value 8]
  xScale? := none

def jumping : Table Rational :=
  ⟨#[(.value 0, .value 0), (.value 1, .value 2), (.value 1, .value 4), (.value 3, .value 8)]⟩

theorem rises_jumping : jumping.Rises := by
  intro i j le inside
  have heights : ∀ j < 4, ∀ i ≤ j, Scalar.le (jumping.point i).2 (jumping.point j).2 = true ∧
      Scalar.isFinite (jumping.point i).2 = true ∧ Scalar.isFinite (jumping.point j).2 = true := by
    decide +kernel
  obtain ⟨lower, finite, finite'⟩ := heights j inside i le
  exact (Scalar.Exact.le_iff finite finite').mp lower

/-- With a tolerance of 1 / 4, halfway from the third point to the last one the answer is on the line, and
close to the last point it is its height. -/
theorem lookup_interpolates_jump :
    letI := Rational.within (1 / 4)
    letI := Rational.exactWithin (1 / 4)
    build jump = .ok jumping ∧ Scalar.IsTolerance (Scalar.close : Rational → Rational → Bool) ∧
      jumping.lookup (.value 2) = .value 6 ∧ jumping.lookup (.value (11 / 4)) = .value 8 ∧
      (∃ i, jumping.Brackets (real (Rational.value 2)) i ∧
        real (jumping.lookup (.value 2)) ∈ Set.uIcc (jumping.height (i - 1)) (jumping.height i)) ∧
      real (jumping.lookup (.value 2)) ≤ real (jumping.lookup (.value (11 / 4))) := by
  let := Rational.within (1 / 4)
  let := Rational.exactWithin (1 / 4)
  have := Rational.definedWithin (1 / 4)
  have built : build jump = .ok jumping := rfl
  obtain ⟨-, -, inside, mono⟩ :=
    lookup_interpolates built (Rational.isTolerance_within (1 / 4)) (x := .value 2) rfl
  have late : jumping.position 0 < real (Rational.value 2) := by
    show ((0 : Rat) : ℝ) < ((2 : Rat) : ℝ)
    norm_num
  have early : real (Rational.value 2) < jumping.position (jumping.points.size - 1) := by
    show ((2 : Rat) : ℝ) < ((3 : Rat) : ℝ)
    norm_num
  obtain ⟨i, brackets, -, -, -, -, -, -, between⟩ := inside late early
  refine ⟨built, Rational.isTolerance_within (1 / 4), by decide +kernel, by decide +kernel,
    ⟨i, brackets, between⟩, mono rises_jumping (.value (11 / 4)) rfl ?_⟩
  show ((2 : Rat) : ℝ) ≤ ((11 / 4 : Rat) : ℝ)
  norm_num

end Table
end StockFlow
