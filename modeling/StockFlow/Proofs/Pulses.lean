import Mathlib.Algebra.BigOperators.Group.Finset.Basic
import Mathlib.Algebra.Notation.Indicator
import Mathlib.Data.Set.Card
import StockFlow.Proofs.Exact
import StockFlow.Pulse

/-!
# Pulses

With exact arithmetic a pulse fires in its windows and only there. Where windows do not overlap, the
steps of a run meet each of them at most once, and what they deposit is the volume of each window met.
-/

namespace StockFlow.Pulse

open Scalar (real)

variable {α : Type} [Scalar α] {dt time volume first interval next answer : α}

/-! ## The search for a window -/

/-- How windows are gone through from the one that starts at `next`, however many there are, until one
fires, none is to follow or the next one is ahead. -/
inductive Loops (dt time volume interval : α) : α → α → Prop
  | ahead {next : α} (late : ¬ Scalar.le next time) : Loops dt time volume interval next Scalar.zero
  | fires {next : α} (started : Scalar.le next time) (inside : Scalar.lt time (next + dt)) :
    Loops dt time volume interval next (volume / dt)
  | once {next : α} (started : Scalar.le next time) (closed : ¬ Scalar.lt time (next + dt))
    (last : Scalar.le interval Scalar.zero) : Loops dt time volume interval next Scalar.zero
  | again {next answer : α} (started : Scalar.le next time) (closed : ¬ Scalar.lt time (next + dt))
    (repeats : ¬ Scalar.le interval Scalar.zero)
    (rest : Loops dt time volume interval (next + interval) answer) :
    Loops dt time volume interval next answer

theorem Loops.unique {other : α} (loops : Loops dt time volume interval next answer)
    (loops' : Loops dt time volume interval next other) : other = answer := by
  induction loops with
  | ahead late =>
    cases loops' with
    | ahead => rfl
    | fires started | once started | again started => exact absurd started late
  | fires started inside =>
    cases loops' with
    | fires => rfl
    | ahead late => exact absurd started late
    | once _ closed | again _ closed => exact absurd inside closed
  | once started closed last =>
    cases loops' with
    | once => rfl
    | ahead late => exact absurd started late
    | fires _ inside => exact absurd inside closed
    | again _ _ repeats => exact absurd last repeats
  | again started closed repeats _ ih =>
    cases loops' with
    | again _ _ _ rest => exact ih rest
    | ahead late => exact absurd started late
    | fires _ inside => exact absurd inside closed
    | once _ _ last => exact absurd last repeats

variable [Scalar.Exact α]

/-- Whether so many windows reach beyond a time: one that is not repeated, or as many as start up to it. -/
structure Suffices (time next interval : α) (count : ℕ) : Prop where
  once : real interval ≤ 0 → 0 < count
  beyond : 0 < real interval → real time < real next + count * real interval

theorem suffices_windows (finiteTime : Scalar.isFinite time) (finiteFirst : Scalar.isFinite first)
    (finiteInterval : Scalar.isFinite interval) :
    Suffices time first interval (windows time first interval) := by
  refine ⟨fun _ => Nat.succ_pos _, fun repeats => ?_⟩
  obtain ⟨finite, difference⟩ := Scalar.Exact.real_sub finiteTime finiteFirst
  obtain ⟨finite, quotient⟩ := Scalar.Exact.real_div finite finiteInterval repeats.ne'
  have fits := Nat.lt_floor_add_one ((real time - real first) / real interval)
  rw [windows, Scalar.Exact.count_eq finite, quotient, difference]
  -- one window more than intervals fit in is enough
  rw [div_lt_iff₀ repeats] at fits
  push_cast
  nlinarith [Nat.cast_nonneg (α := ℝ) ⌊(real time - real first) / real interval⌋₊]

/-- Enough windows make the bounded search one without a bound. -/
theorem Suffices.loops {count : ℕ} (enough : Suffices time next interval count)
    (finiteTime : Scalar.isFinite time) (finiteNext : Scalar.isFinite next)
    (finiteInterval : Scalar.isFinite interval) :
    Loops dt time volume interval next (heightFrom dt time volume interval count next) := by
  induction count generalizing next with
  | zero =>
    refine .ahead fun started => ?_
    rw [Scalar.Exact.le_iff finiteNext finiteTime] at started
    rcases le_or_gt (real interval) 0 with last | repeats
    · exact absurd (enough.once last) (lt_irrefl 0)
    · have := enough.beyond repeats
      push_cast at this
      linarith
  | succ count ih =>
    unfold heightFrom
    split
    · rename_i started
      split
      · exact .fires started ‹_›
      rename_i closed
      split
      · exact .once started closed ‹_›
      rename_i repeats
      have positive : 0 < real interval := by
        rwa [Scalar.le_zero_iff finiteInterval, not_le] at repeats
      obtain ⟨finite, moved⟩ := Scalar.Exact.real_add finiteNext finiteInterval
      refine .again started closed repeats (ih ⟨fun last => absurd last positive.not_ge, fun _ => ?_⟩ finite)
      have := enough.beyond positive
      push_cast at this
      rw [moved]
      linarith
    · exact .ahead ‹_›

theorem loops_height (finiteTime : Scalar.isFinite time) (finiteFirst : Scalar.isFinite first)
    (finiteInterval : Scalar.isFinite interval) :
    Loops dt time volume interval first (height dt time volume first interval) := by
  unfold height
  split
  · rename_i early
    rw [Scalar.Exact.lt_iff finiteTime finiteFirst] at early
    exact .ahead (mt (Scalar.Exact.le_iff finiteFirst finiteTime).mp early.not_ge)
  · exact (suffices_windows finiteTime finiteFirst finiteInterval).loops finiteTime finiteFirst
      finiteInterval

/-! ## Windows -/

/-- The window of a pulse after so many intervals. -/
def window (dt first interval : ℝ) (k : ℕ) : Set ℝ :=
  Set.Ico (first + k * interval) (first + k * interval + dt)

/-- The times at which a pulse fires: in its first window and, if it is repeated, in the later ones. -/
def firing (dt first interval : ℝ) : Set ℝ :=
  {q | q ∈ window dt first interval 0 ∨ 0 < interval ∧ ∃ k, q ∈ window dt first interval k}

section Windows

variable {step start gap q : ℝ} {k : ℕ}

theorem mem_window_zero : q ∈ window step start gap 0 ↔ start ≤ q ∧ q < start + step := by
  simp [window]

theorem mem_window_succ : q ∈ window step start gap (k + 1) ↔ q ∈ window step (start + gap) gap k := by
  simp only [window, Set.mem_Ico]
  push_cast
  rw [show start + (k + 1) * gap = start + gap + k * gap by ring]

theorem le_of_mem_firing (fires : q ∈ firing step start gap) : start ≤ q := by
  rcases fires with inside | ⟨repeats, k, inside⟩
  · exact (mem_window_zero.mp inside).1
  · exact (le_add_of_nonneg_right (by positivity)).trans inside.1

theorem mem_firing_iff_of_last (last : gap ≤ 0) :
    q ∈ firing step start gap ↔ start ≤ q ∧ q < start + step := by
  rw [firing, Set.mem_ofPred_eq, mem_window_zero, or_iff_left fun later => absurd later.1 last.not_gt]

theorem mem_firing_iff_of_closed (repeats : 0 < gap) (closed : ¬ q < start + step) :
    q ∈ firing step start gap ↔ q ∈ firing step (start + gap) gap := by
  constructor
  · rintro (inside | ⟨-, k, inside⟩)
    · exact absurd (mem_window_zero.mp inside).2 closed
    · cases k with
      | zero => exact absurd (mem_window_zero.mp inside).2 closed
      | succ k => exact .inr ⟨repeats, k, mem_window_succ.mp inside⟩
  · rintro (inside | ⟨-, k, inside⟩)
    · exact .inr ⟨repeats, 1, mem_window_succ.mpr inside⟩
    · exact .inr ⟨repeats, k + 1, mem_window_succ.mpr inside⟩

/-- Windows that do not overlap are told by how many intervals have gone by. -/
theorem eq_floor_of_mem_window (positive : 0 < step) (apart : step ≤ gap)
    (inside : q ∈ window step start gap k) : k = ⌊(q - start) / gap⌋₊ := by
  have repeats := positive.trans_le apart
  have started := inside.1
  have ends := inside.2
  symm
  rw [Nat.floor_eq_iff (div_nonneg (by nlinarith [Nat.cast_nonneg (α := ℝ) k]) repeats.le),
    le_div_iff₀ repeats, div_lt_iff₀ repeats]
  constructor <;> linarith

theorem mem_firing_iff_of_apart (positive : 0 < step) (apart : step ≤ gap) :
    q ∈ firing step start gap ↔ ∃ k, q ∈ window step start gap k := by
  constructor
  · rintro (inside | ⟨-, k, inside⟩)
    · exact ⟨0, inside⟩
    · exact ⟨k, inside⟩
  · rintro ⟨k, inside⟩
    exact .inr ⟨positive.trans_le apart, k, inside⟩

end Windows

/-! ## What fires -/

/-- Going through the windows from `next` on finds one exactly at the times at which a pulse fires. -/
theorem Loops.answer_eq (loops : Loops dt time volume interval next answer) (finiteDt : Scalar.isFinite dt)
    (finiteTime : Scalar.isFinite time) (finiteNext : Scalar.isFinite next)
    (finiteInterval : Scalar.isFinite interval) :
    (real time ∈ firing (real dt) (real next) (real interval) → answer = volume / dt) ∧
      (real time ∉ firing (real dt) (real next) (real interval) → answer = Scalar.zero) := by
  have started_iff : ∀ {next : α}, Scalar.isFinite next → (Scalar.le next time ↔ real next ≤ real time) :=
    fun finite => Scalar.Exact.le_iff finite finiteTime
  have inside_iff : ∀ {next : α}, Scalar.isFinite next →
      (Scalar.lt time (next + dt) ↔ real time < real next + real dt) := by
    intro next finite
    obtain ⟨finite, ends⟩ := Scalar.Exact.real_add finite finiteDt
    rw [Scalar.Exact.lt_iff finiteTime finite, ends]
  induction loops with
  | ahead late =>
    rw [started_iff finiteNext] at late
    exact ⟨fun fires => absurd (le_of_mem_firing fires) late, fun _ => rfl⟩
  | fires started inside =>
    rw [started_iff finiteNext] at started
    rw [inside_iff finiteNext] at inside
    exact ⟨fun _ => rfl, fun rests => absurd (.inl (mem_window_zero.mpr ⟨started, inside⟩)) rests⟩
  | once started closed last =>
    rw [inside_iff finiteNext] at closed
    rw [mem_firing_iff_of_last ((Scalar.le_zero_iff finiteInterval).mp last)]
    exact ⟨fun inside => absurd inside.2 closed, fun _ => rfl⟩
  | again started closed repeats _ ih =>
    rw [inside_iff finiteNext] at closed
    rw [Scalar.le_zero_iff finiteInterval, not_le] at repeats
    obtain ⟨finite, moved⟩ := Scalar.Exact.real_add finiteNext finiteInterval
    -- the later windows are those of a pulse that begins an interval later
    rw [mem_firing_iff_of_closed repeats closed, ← moved]
    exact ih finite

/-- In one step a pulse deposits its volume or nothing. -/
theorem real_height_mul (finiteDt : Scalar.isFinite dt) (finiteTime : Scalar.isFinite time)
    (finiteVolume : Scalar.isFinite volume) (finiteFirst : Scalar.isFinite first)
    (finiteInterval : Scalar.isFinite interval) (positive : 0 < real dt) :
    real (height dt time volume first interval * dt) =
      (firing (real dt) (real first) (real interval)).indicator (fun _ => real volume) (real time) := by
  have loops : Loops dt time volume interval first _ := loops_height finiteTime finiteFirst finiteInterval
  obtain ⟨inside, outside⟩ := loops.answer_eq finiteDt finiteTime finiteFirst finiteInterval
  by_cases fires : real time ∈ firing (real dt) (real first) (real interval)
  · obtain ⟨finite, quotient⟩ := Scalar.Exact.real_div finiteVolume finiteDt positive.ne'
    rw [inside fires, (Scalar.Exact.real_mul finite finiteDt).2, quotient, Set.indicator_of_mem fires,
      div_mul_cancel₀ _ positive.ne']
  · rw [outside fires, (Scalar.Exact.real_mul Scalar.isFinite_zero finiteDt).2, Scalar.real_zero, zero_mul,
      Set.indicator_of_notMem fires]

/-! ## What a run deposits -/

/-- The time after so many steps. -/
def sample (dt start : α) (n : ℕ) : α := start + Scalar.ofNat n * dt

theorem real_sample {start : α} (finiteDt : Scalar.isFinite dt) (finiteStart : Scalar.isFinite start)
    (n : ℕ) :
    Scalar.isFinite (sample dt start n) ∧ real (sample dt start n) = real start + n * real dt := by
  obtain ⟨finiteCount, count⟩ := Scalar.Exact.real_ofNat (α := α) n
  obtain ⟨finiteProduct, product⟩ := Scalar.Exact.real_mul finiteCount finiteDt
  obtain ⟨finite, sum⟩ := Scalar.Exact.real_add finiteStart finiteProduct
  exact ⟨finite, by rw [sample, sum, product, count]⟩

/-- The windows that are met by one of so many times in steps. -/
def met (step origin start gap : ℝ) (N : ℕ) : Set ℕ :=
  {k | ∃ n < N, origin + n * step ∈ window step start gap k}

section Met

variable {step origin start gap : ℝ} {k n m N : ℕ}

theorem eq_of_mem_window (positive : 0 < step) (inside : origin + n * step ∈ window step start gap k)
    (inside' : origin + m * step ∈ window step start gap k) : n = m := by
  wlog earlier : n < m generalizing n m
  · rcases Nat.lt_or_eq_of_le (not_lt.mp earlier) with later | same
    · exact (this inside' inside later).symm
    · exact same.symm
  have steps : (n : ℝ) + 1 ≤ m := by exact_mod_cast earlier
  have started := inside.1
  have ends := inside'.2
  nlinarith

open Classical in
/-- Each window that is met is met by one of the times that fire. -/
theorem met_eq_image (positive : 0 < step) (apart : step ≤ gap) :
    met step origin start gap N =
      ((Finset.range N).filter fun n : ℕ => origin + n * step ∈ firing step start gap).image
        fun n : ℕ => ⌊(origin + n * step - start) / gap⌋₊ := by
  ext k
  simp only [met, Set.mem_ofPred_eq, Finset.coe_image, Finset.coe_filter, Finset.mem_range, Set.mem_image]
  constructor
  · rintro ⟨n, earlier, inside⟩
    exact ⟨n, ⟨earlier, (mem_firing_iff_of_apart positive apart).mpr ⟨k, inside⟩⟩,
      (eq_floor_of_mem_window positive apart inside).symm⟩
  · rintro ⟨n, ⟨earlier, fires⟩, rfl⟩
    obtain ⟨k, inside⟩ := (mem_firing_iff_of_apart positive apart).mp fires
    rw [← eq_floor_of_mem_window positive apart inside]
    exact ⟨n, earlier, inside⟩

open Classical in
theorem ncard_met (positive : 0 < step) (apart : step ≤ gap) :
    (met step origin start gap N).ncard =
      ((Finset.range N).filter fun n : ℕ => origin + n * step ∈ firing step start gap).card := by
  rw [met_eq_image positive apart, Set.ncard_coe_finset]
  refine Finset.card_image_of_injOn fun n fires m fires' same => ?_
  obtain ⟨k, inside⟩ := (mem_firing_iff_of_apart positive apart).mp (Finset.mem_filter.mp fires).2
  obtain ⟨j, inside'⟩ := (mem_firing_iff_of_apart positive apart).mp (Finset.mem_filter.mp fires').2
  rw [← eq_floor_of_mem_window positive apart inside, ← eq_floor_of_mem_window positive apart inside']
    at same
  subst same
  exact eq_of_mem_window positive inside inside'

end Met

section Runs

variable (finiteDt : Scalar.isFinite dt) (finiteVolume : Scalar.isFinite volume)
  (finiteFirst : Scalar.isFinite first) (finiteInterval : Scalar.isFinite interval)
  (positive : 0 < real dt)
include finiteDt finiteVolume finiteFirst finiteInterval positive

theorem mem_firing_of_height (finiteTime : Scalar.isFinite time) (nonzero : real volume ≠ 0)
    (full : height dt time volume first interval = volume / dt) :
    real time ∈ firing (real dt) (real first) (real interval) := by
  have loops : Loops dt time volume interval first _ := loops_height finiteTime finiteFirst finiteInterval
  by_contra rests
  have empty : volume / dt = Scalar.zero :=
    full.symm.trans ((loops.answer_eq finiteDt finiteTime finiteFirst finiteInterval).2 rests)
  have quotient := (Scalar.Exact.real_div finiteVolume finiteDt positive.ne').2
  rw [empty, Scalar.real_zero] at quotient
  exact div_ne_zero nonzero positive.ne' quotient.symm

/-- Where windows do not overlap, a run deposits the volume of each window that it meets. -/
theorem sum_height_mul {start : α} (finiteStart : Scalar.isFinite start) (apart : real dt ≤ real interval)
    (N : ℕ) :
    ∑ n ∈ Finset.range N, real (height dt (sample dt start n) volume first interval * dt) =
      real volume * (met (real dt) (real start) (real first) (real interval) N).ncard := by
  classical
  calc ∑ n ∈ Finset.range N, real (height dt (sample dt start n) volume first interval * dt)
    _ = ∑ n ∈ Finset.range N, if real start + n * real dt ∈
          firing (real dt) (real first) (real interval) then real volume else 0 := by
      refine Finset.sum_congr rfl fun n _ => ?_
      obtain ⟨finite, moment⟩ := real_sample finiteDt finiteStart n
      rw [real_height_mul finiteDt finite finiteVolume finiteFirst finiteInterval positive, moment,
        Set.indicator_apply]
    _ = real volume * (met (real dt) (real start) (real first) (real interval) N).ncard := by
      rw [← Finset.sum_filter, Finset.sum_const, nsmul_eq_mul, mul_comm, ncard_met positive apart]

end Runs

/-- **A pulse fires in its windows and deposits its volume once in each that a run meets.** Going through
the windows ends, with the height of the pulse: that of its volume spread over a step at the times at which
it fires, zero at all others. From any start and for any number of steps, if no two windows overlap, the
heights add up to the volume of each window met, and no window is met twice. -/
theorem height_deposits (finiteDt : Scalar.isFinite dt) (finiteVolume : Scalar.isFinite volume)
    (finiteFirst : Scalar.isFinite first) (finiteInterval : Scalar.isFinite interval)
    (positive : 0 < real dt) :
    (∀ time, Scalar.isFinite time →
      (∀ answer, Loops dt time volume interval first answer ↔
        answer = height dt time volume first interval) ∧
      (real time ∈ firing (real dt) (real first) (real interval) →
        height dt time volume first interval = volume / dt) ∧
      (real time ∉ firing (real dt) (real first) (real interval) →
        height dt time volume first interval = Scalar.zero) ∧
      (real volume ≠ 0 → (height dt time volume first interval = volume / dt ↔
        real time ∈ firing (real dt) (real first) (real interval)))) ∧
    ∀ start, Scalar.isFinite start → real dt ≤ real interval → ∀ N : ℕ,
      (met (real dt) (real start) (real first) (real interval) N).Finite ∧
      ∑ n ∈ Finset.range N, real (height dt (sample dt start n) volume first interval * dt) =
        real volume * (met (real dt) (real start) (real first) (real interval) N).ncard ∧
      ∀ k n m, real (sample dt start n) ∈ window (real dt) (real first) (real interval) k →
        real (sample dt start m) ∈ window (real dt) (real first) (real interval) k → n = m := by
  refine ⟨fun time finiteTime => ?_, fun start finiteStart apart N => ⟨?_, ?_, fun k n m => ?_⟩⟩
  · have loops : Loops dt time volume interval first _ :=
      loops_height finiteTime finiteFirst finiteInterval
    obtain ⟨inside, outside⟩ := loops.answer_eq finiteDt finiteTime finiteFirst finiteInterval
    refine ⟨fun answer => ⟨loops.unique, fun same => same ▸ loops⟩, inside, outside, fun nonzero => ?_⟩
    exact ⟨mem_firing_of_height finiteDt finiteVolume finiteFirst finiteInterval positive finiteTime nonzero,
      inside⟩
  · classical
    rw [met_eq_image positive apart]
    exact Finset.finite_toSet _
  · exact sum_height_mul finiteDt finiteVolume finiteFirst finiteInterval positive finiteStart apart N
  · rw [(real_sample finiteDt finiteStart n).2, (real_sample finiteDt finiteStart m).2]
    exact eq_of_mem_window positive

/-- Of the windows from 1, 7 / 2 and 6 on, steps of length 1 meet the first one at its start, the second one
inside and, being six, the third one no more. -/
theorem height_deposits_unaligned :
    (List.range 6).map (fun n => height (.value 1) (sample (.value 1) (.value 0) n) (.value 10) (.value 1)
      (.value (5 / 2) : Rational)) = [0, 10, 0, 0, 10, 0].map .value ∧
    0 < real (.value 1 : Rational) ∧ real (.value 1 : Rational) ≤ real (.value (5 / 2) : Rational) ∧
    ∑ n ∈ Finset.range 6, real (height (.value 1) (sample (.value 1) (.value 0) n) (.value 10) (.value 1)
      (.value (5 / 2) : Rational) * .value 1) = real (.value 10 : Rational) *
        (met (real (.value 1 : Rational)) (real (.value 0 : Rational)) (real (.value 1 : Rational))
          (real (.value (5 / 2) : Rational)) 6).ncard := by
  have positive : 0 < real (.value 1 : Rational) := by
    show (0 : ℝ) < ((1 : Rat) : ℝ)
    norm_num
  have apart : real (.value 1 : Rational) ≤ real (.value (5 / 2) : Rational) := by
    show ((1 : Rat) : ℝ) ≤ ((5 / 2 : Rat) : ℝ)
    norm_num
  have finite : ∀ q, Scalar.isFinite (.value q : Rational) := fun _ => rfl
  have deposits :=
    (height_deposits (finite 1) (finite 10) (finite 1) (finite (5 / 2)) positive).2 (.value 0) rfl apart 6
  exact ⟨by decide +kernel, positive, apart, deposits.2.1⟩

end StockFlow.Pulse
