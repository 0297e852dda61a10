import StockFlow.Proofs.Catalog
import StockFlow.Proofs.Exact
import StockFlow.Proofs.History
import StockFlow.Proofs.Integration
import StockFlow.Proofs.Linking
import StockFlow.Proofs.Settling

/-!
# The times of saved rows

Saved rows stand apart by the multiple of the step that is nearest to the save step, but there are as
many of them as the save step itself asks for. So the saved times are those of the span that is asked
for if the save step is a multiple of the step, and can pass the stop or end early if it is not.
-/

namespace StockFlow

open Scalar (real)

variable {α : Type} [Scalar α]

/-! ## The time of a step -/

/-- The time after so many steps. -/
def Clock.timeAt (clock : Clock α) : Nat → α
  | 0 => clock.start
  | step + 1 => clock.timeAt step + clock.dt

namespace Plan

variable {project : Project α} {plan : Plan α} (consistent : project.Consistent)
  (planned : ofProject project = .ok plan)
include consistent planned

theorem timeSlot_notMem_written {phase : Phase} (early : phase ≠ .stocks) :
    timeSlot ∉ written (plan.program phase) := fun member =>
  absurd (lt_size_of_written consistent planned early _ member).1 (Nat.lt_irrefl _)

theorem time_settle (row : Row α) : (plan.settle row).time = row.time :=
  Row.get_assign_of_notMem (timeSlot_notMem_written consistent planned (by decide))

theorem time_rowAt (step : Nat) : (plan.rowAt step).time = plan.clock.timeAt step := by
  induction step with
  | zero =>
    have inside : timeSlot < (Array.replicate plan.size (Scalar.zero : α)).size := by
      rw [Array.size_replicate]
      exact size_pos consistent.distinct planned
    rw [rowAt, initialRow, Row.time,
      Row.get_assign_of_notMem (timeSlot_notMem_written consistent planned (by decide)),
      Row.get_setIfInBounds inside, if_pos rfl, Clock.timeAt]
  | succ step ih =>
    have whole : (plan.settle (plan.rowAt step)).size = plan.size := size_settledAt plan step
    rw [rowAt, time_nextRow consistent planned whole, time_settle consistent planned, ih, Clock.timeAt]

theorem time_settledAt (step : Nat) : (plan.settledAt step).time = plan.clock.timeAt step := by
  rw [settledAt, time_settle consistent planned, time_rowAt consistent planned]

end Plan

/-! ## Exact times -/

namespace Clock

variable [Scalar.Exact α] {clock : Clock α}

/-- The index of the last row that is asked for. -/
noncomputable def lastRow (clock : Clock α) : ℕ := ⌊clock.span / real clock.saveStep⌋₊

/-- The time between saved rows: the multiple of the step that is nearest to the save step. -/
noncomputable def spacing (clock : Clock α) : ℝ :=
  ⌊real clock.saveStep / real clock.dt + 1 / 2⌋₊ * real clock.dt

/-- Whether the times of saved rows lie in the span of a run, and the last one less than a save step
before its stop. -/
structure IsCovered (clock : Clock α) (times : List α) : Prop where
  within : ∀ time ∈ times, real clock.start ≤ real time ∧ real time ≤ real clock.stop
  reaching : ∃ last ∈ times.getLast?, real clock.stop - real clock.saveStep < real last

namespace IsValid

variable (valid : clock.IsValid)
include valid

theorem real_timeAt (step : Nat) : Scalar.isFinite (clock.timeAt step) ∧
    real (clock.timeAt step) = real clock.start + step * real clock.dt := by
  induction step with
  | zero => exact ⟨valid.start, by rw [timeAt, Nat.cast_zero, zero_mul, add_zero]⟩
  | succ step ih =>
    obtain ⟨finite, sum⟩ := Scalar.Exact.real_add ih.1 valid.dt
    refine ⟨finite, ?_⟩
    rw [timeAt, sum, ih.2]
    push_cast
    ring

theorem lastRow_mul_le : clock.lastRow * real clock.saveStep ≤ clock.span :=
  (le_div_iff₀ valid.saveStep_pos).mp (Nat.floor_le (div_nonneg valid.span_nonneg valid.saveStep_pos.le))

theorem span_lt : clock.span < clock.lastRow * real clock.saveStep + real clock.saveStep := by
  have less := (div_lt_iff₀ valid.saveStep_pos).mp (Nat.lt_floor_add_one (clock.span / real clock.saveStep))
  rwa [add_mul, one_mul] at less

theorem spacing_eq : clock.spacing = clock.saveEvery * real clock.dt := by
  rw [spacing, valid.saveEvery_eq]

theorem spacing_nonneg : 0 ≤ clock.spacing := mul_nonneg (Nat.cast_nonneg _) valid.positive.le

theorem saveEvery_of_multiple {k : ℕ} (multiple : real clock.saveStep = k * real clock.dt) :
    clock.saveEvery = k := by
  have ratio : real clock.saveStep / real clock.dt = k := by
    rw [multiple, mul_div_cancel_right₀ _ valid.positive.ne']
  rw [valid.saveEvery_eq, ratio, add_comm, Nat.floor_add_natCast (by norm_num),
    Nat.floor_eq_zero.mpr (by norm_num), Nat.zero_add]

theorem spacing_of_multiple {k : ℕ} (multiple : real clock.saveStep = k * real clock.dt) :
    clock.spacing = real clock.saveStep := by
  rw [valid.spacing_eq, valid.saveEvery_of_multiple multiple, multiple]

theorem lastRow_mul_spacing_le (close : clock.spacing ≤ real clock.saveStep) :
    clock.lastRow * clock.spacing ≤ clock.span :=
  (mul_le_mul_of_nonneg_left close (Nat.cast_nonneg _)).trans valid.lastRow_mul_le

theorem span_lt_of_le_spacing (wide : real clock.saveStep ≤ clock.spacing) :
    clock.span < clock.lastRow * clock.spacing + real clock.saveStep := by
  have further := mul_le_mul_of_nonneg_left wide (Nat.cast_nonneg (α := ℝ) clock.lastRow)
  have short := valid.span_lt
  linarith

end IsValid

end Clock

/-! ## Saved times -/

namespace Plan

variable {project : Project α} {plan : Plan α}

theorem time_savedRows (consistent : project.Consistent) (planned : ofProject project = .ok plan) :
    plan.savedRows.map Row.time =
      (List.range plan.clock.savedRows).map fun row => plan.clock.timeAt (row * plan.clock.saveEvery) := by
  rw [savedRows, List.map_map]
  exact List.map_congr_left fun row _ => time_settledAt consistent planned _

variable [Scalar.Exact α]

theorem isValid_clock (planned : ofProject project = .ok plan) : plan.clock.IsValid := by
  obtain ⟨accepted, same⟩ := clock_of_ofProject planned
  exact same ▸ Clock.isValid_of_validate accepted

theorem real_time_savedRows (consistent : project.Consistent) (planned : ofProject project = .ok plan)
    {row : ℕ} {time : α} (saved : (plan.savedRows.map Row.time)[row]? = some time) :
    Scalar.isFinite time ∧ real time = real plan.clock.start + row * plan.clock.spacing := by
  have valid := isValid_clock planned
  rw [time_savedRows consistent planned, List.getElem?_map] at saved
  obtain ⟨_, within, rfl⟩ := Option.map_eq_some_iff.mp saved
  obtain ⟨_, rfl⟩ := List.getElem?_eq_some_iff.mp within
  rw [List.getElem_range]
  obtain ⟨finite, value⟩ := valid.real_timeAt (row * plan.clock.saveEvery)
  refine ⟨finite, ?_⟩
  rw [value, valid.spacing_eq, Nat.cast_mul, mul_assoc]

end Plan

/-- Times of rows that stand so far apart lie in a run's span exactly if the last one does. -/
theorem Clock.IsValid.covered_iff [Scalar.Exact α] {clock : Clock α} (valid : clock.IsValid)
    {times : List α} (count : times.length = clock.lastRow + 1)
    (each : ∀ (row : ℕ) time, times[row]? = some time →
      real time = real clock.start + row * clock.spacing) :
    ((∀ time ∈ times, real clock.start ≤ real time ∧ real time ≤ real clock.stop) ↔
        clock.lastRow * clock.spacing ≤ clock.span) ∧
      ((∃ last ∈ times.getLast?, real clock.stop - real clock.saveStep < real last) ↔
        clock.span < clock.lastRow * clock.spacing + real clock.saveStep) := by
  have ends : ∃ last, times[clock.lastRow]? = some last := by
    refine ⟨_, List.getElem?_eq_getElem (by omega)⟩
  obtain ⟨last, there⟩ := ends
  have final : times.getLast? = some last := by
    rw [List.getLast?_eq_getElem?, count, Nat.add_sub_cancel, there]
  have value := each _ _ there
  constructor
  · constructor
    · intro within
      have := (within last (List.mem_of_getElem? there)).2
      rw [Clock.span]
      linarith
    · intro fits time member
      obtain ⟨row, found⟩ := List.mem_iff_getElem?.mp member
      have early : row ≤ clock.lastRow := by
        have := (List.getElem?_eq_some_iff.mp found).1
        omega
      have before : (row : ℝ) * clock.spacing ≤ clock.lastRow * clock.spacing :=
        mul_le_mul_of_nonneg_right (Nat.cast_le.mpr early) valid.spacing_nonneg
      have late : 0 ≤ (row : ℝ) * clock.spacing := mul_nonneg (Nat.cast_nonneg _) valid.spacing_nonneg
      rw [Clock.span] at fits
      rw [each _ _ found]
      constructor <;> linarith
  · simp only [final, Option.mem_def, Option.some.injEq, exists_eq_left', value, Clock.span]
    constructor <;> intro <;> linarith

namespace Simulation

theorem series_runToEnd {plan : Plan α} {name : Path} {slot : Nat} (known : plan.slot? name = some slot) :
    (start plan).runToEnd.series? name =
      some ⟨name, plan.savedRows.map Row.time, plan.savedRows.map (·.get slot)⟩ := by
  rw [series?_runToEnd, known]
  rfl

/-- With exact arithmetic a run to the end saves a row at every multiple of the spacing, one for each
save step that fits. No time lies before the start. All lie before the stop if the spacing is at most a
save step, and the last one is less than a save step from it if it is at least one, so they cover the
span if the save step is a multiple of the step. -/
theorem saved_times [Scalar.Exact α] {document : Document.Project α} {project : Project α}
    {run : Simulation α} {clock : Clock α} (compiled : Project.compile document = .ok project)
    (ready : ofProject project = .ok run) (ticks : run.plan.clock = clock) {name : Path} {slot : Nat}
    (known : run.plan.slot? name = some slot) :
    ∃ series, run.reset.runToEnd.series? name = some series ∧
      series.time.length = clock.lastRow + 1 ∧
      (∀ (row : ℕ) time, series.time[row]? = some time →
        Scalar.isFinite time ∧ real time = real clock.start + row * clock.spacing) ∧
      ((∀ time ∈ series.time, real clock.start ≤ real time ∧ real time ≤ real clock.stop) ↔
        clock.lastRow * clock.spacing ≤ clock.span) ∧
      ((∃ last ∈ series.time.getLast?, real clock.stop - real clock.saveStep < real last) ↔
        clock.span < clock.lastRow * clock.spacing + real clock.saveStep) ∧
      (∀ time ∈ series.time, real clock.start ≤ real time) ∧
      (clock.spacing ≤ real clock.saveStep → ∀ time ∈ series.time, real time ≤ real clock.stop) ∧
      (real clock.saveStep ≤ clock.spacing →
        ∃ last ∈ series.time.getLast?, real clock.stop - real clock.saveStep < real last) ∧
      (∀ k : ℕ, real clock.saveStep = k * real clock.dt → clock.IsCovered series.time) := by
  obtain ⟨plan, planned, rfl⟩ := ofProject_eq_ok.mp ready
  obtain rfl : plan.clock = clock := ticks
  have consistent := Project.consistent_of_compile compiled
  have valid := Plan.isValid_clock planned
  have count : (plan.savedRows.map Row.time).length = plan.clock.lastRow + 1 := by
    rw [Plan.time_savedRows consistent planned, List.length_map, List.length_range, valid.savedRows_eq,
      Clock.lastRow]
  have each : ∀ (row : ℕ) time, (plan.savedRows.map Row.time)[row]? = some time →
      Scalar.isFinite time ∧ real time = real plan.clock.start + row * plan.clock.spacing :=
    fun row time => Plan.real_time_savedRows consistent planned
  obtain ⟨within, reaching⟩ := valid.covered_iff count fun row time found => (each row time found).2
  -- where the spacing is not that asked for, it errs to one side: rows within the span, or up to its end
  refine ⟨_, series_runToEnd known, count, each, within, reaching, ?_, ?_, ?_, ?_⟩
  · intro time member
    obtain ⟨row, found⟩ := List.mem_iff_getElem?.mp member
    rw [(each row time found).2]
    have := mul_nonneg (Nat.cast_nonneg (α := ℝ) row) valid.spacing_nonneg
    linarith
  · exact fun close time member => (within.mpr (valid.lastRow_mul_spacing_le close) time member).2
  · exact fun wide => reaching.mpr (valid.span_lt_of_le_spacing wide)
  · intro k multiple
    have exactly := valid.spacing_of_multiple multiple
    exact ⟨within.mpr (valid.lastRow_mul_spacing_le exactly.le),
      reaching.mpr (valid.span_lt_of_le_spacing exactly.ge)⟩

/-- A project of one variable, which follows the time. -/
def following (spec : TimeSpec Rational) : Document.Project Rational :=
  ⟨"", spec, [⟨"main", none, [.auxiliary ⟨"x", "", some (.reference "time"), none⟩]⟩]⟩

theorem saved_times_following : ∃ project run series,
    Project.compile (following ⟨.value 1, .value 4, .value (1 / 2), some (.value 1)⟩) = .ok project ∧
      ofProject project = .ok run ∧ run.reset.runToEnd.series? "x" = some series ∧
        series.time.length = run.plan.clock.lastRow + 1 ∧ run.plan.clock.IsCovered series.time := by
  have check : ∃ project ∈ (Project.compile
      (following ⟨.value 1, .value 4, .value (1 / 2), some (.value 1)⟩)).toOption,
      ∃ run ∈ (ofProject project).toOption, run.plan.slot? "x" = some 1 ∧
        run.plan.clock.saveStep = .value 1 ∧ run.plan.clock.dt = .value (1 / 2) := by
    rw [Project.compile_eq]
    decide +kernel
  obtain ⟨project, compiled, run, ready, known, saveStep, dt⟩ := check
  have compiled := toOption_eq_some.mp compiled
  have ready := toOption_eq_some.mp ready
  obtain ⟨series, found, count, -, -, -, -, -, -, multiples⟩ := saved_times compiled ready rfl known
  have twice : real run.plan.clock.saveStep = (2 : ℕ) * real run.plan.clock.dt := by
    rw [saveStep, dt]
    show ((1 : ℚ) : ℝ) = (2 : ℕ) * ((1 / 2 : ℚ) : ℝ)
    norm_num
  exact ⟨project, run, series, compiled, ready, found, count, multiples 2 twice⟩

/-- Where the save step is no multiple of the step, a saved time can lie behind the stop: rows at every
one and a half of three steps are saved at every second step, up to the fourth. And the last one can lie
more than a save step before it: rows at every 1.4 of fourteen steps are saved up to the tenth. -/
theorem saved_times_uncovered :
    (∃ project run series,
      Project.compile (following ⟨.value 0, .value 3, .value 1, some (.value (3 / 2))⟩) = .ok project ∧
        ofProject project = .ok run ∧ run.reset.runToEnd.series? "x" = some series ∧
          ∃ time ∈ series.time, real run.plan.clock.stop < real time) ∧
    ∃ project run series,
      Project.compile (following ⟨.value 0, .value 14, .value 1, some (.value (7 / 5))⟩) = .ok project ∧
        ofProject project = .ok run ∧ run.reset.runToEnd.series? "x" = some series ∧
          ∃ last ∈ series.time.getLast?,
            real last < real run.plan.clock.stop - real run.plan.clock.saveStep := by
  constructor
  · have check : ∃ project ∈ (Project.compile
        (following ⟨.value 0, .value 3, .value 1, some (.value (3 / 2))⟩)).toOption,
        ∃ run ∈ (ofProject project).toOption, run.plan.clock.stop = .value 3 ∧
          ∃ series ∈ run.reset.runToEnd.series? "x", .value 4 ∈ series.time := by
      rw [Project.compile_eq]
      decide +kernel
    obtain ⟨project, compiled, run, ready, stop, series, found, late⟩ := check
    refine ⟨project, run, series, toOption_eq_some.mp compiled, toOption_eq_some.mp ready, found,
      .value 4, late, ?_⟩
    rw [stop]
    show ((3 : ℚ) : ℝ) < ((4 : ℚ) : ℝ)
    norm_num
  · have check : ∃ project ∈ (Project.compile
        (following ⟨.value 0, .value 14, .value 1, some (.value (7 / 5))⟩)).toOption,
        ∃ run ∈ (ofProject project).toOption, run.plan.clock.stop = .value 14 ∧
          run.plan.clock.saveStep = .value (7 / 5) ∧
            ∃ series ∈ run.reset.runToEnd.series? "x", series.time.getLast? = some (.value 10) := by
      rw [Project.compile_eq]
      decide +kernel
    obtain ⟨project, compiled, run, ready, stop, saveStep, series, found, early⟩ := check
    refine ⟨project, run, series, toOption_eq_some.mp compiled, toOption_eq_some.mp ready, found,
      .value 10, early, ?_⟩
    rw [stop, saveStep]
    show ((10 : ℚ) : ℝ) < ((14 : ℚ) : ℝ) - ((7 / 5 : ℚ) : ℝ)
    norm_num

end Simulation
end StockFlow
