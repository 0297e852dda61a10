import StockFlow.Proofs.Catalog
import StockFlow.Proofs.Queries
import StockFlow.Proofs.Saving

/-!
# Running to the end and to the stop

A run to the end takes all steps of its last row, also those behind the stop. A run to half a step
behind the stop takes no step that begins later. So where the save step is a multiple of the step, the
two agree if the last row needs no such step, and if it does the second one lacks this row.
-/

namespace StockFlow

open Scalar (real)

variable {α : Type} [Scalar α]

namespace Simulation

variable {plan : Plan α} {run other : Simulation α} {step : Nat}

theorem IsAt.unique (at_ : IsAt plan step run) (at_' : IsAt plan step other) : run = other := by
  have history : run.history = other.history :=
    Array.toList_inj.mp (at_.history.trans at_'.history.symm)
  obtain ⟨samePlan, sameStep, present, -⟩ := at_
  obtain ⟨samePlan', sameStep', present', -⟩ := at_'
  cases run
  cases other
  dsimp only at samePlan sameStep present samePlan' sameStep' present' history
  rw [samePlan, sameStep, present, samePlan', sameStep', present', history]

/-- Steps are taken until one begins at a time that is past, or none is left. -/
theorem IsAt.exists_advanceUntil (at_ : IsAt plan step run) (past : α → Bool) (steps : Nat) :
    ∃ taken ≤ steps, IsAt plan (step + taken) (run.advanceUntil past steps) ∧
      (∀ i < taken, past (plan.rowAt (step + i)).time = false) ∧
        (taken < steps → past (plan.rowAt (step + taken)).time = true) := by
  induction steps generalizing run step with
  | zero => exact ⟨0, Nat.le_refl _, at_, nofun, nofun⟩
  | succ steps ih =>
    have time : run.time = (plan.rowAt step).time := by rw [Simulation.time, at_.present]
    rw [Simulation.advanceUntil, time]
    split
    · rename_i late
      exact ⟨0, Nat.zero_le _, at_, nofun, fun _ => late⟩
    · rename_i early
      obtain ⟨taken, fewer, further, before, after⟩ := ih at_.advance
      refine ⟨taken + 1, Nat.succ_le_succ fewer, ?_, ?_, ?_⟩
      · rw [Nat.add_comm taken, ← Nat.add_assoc]
        exact further
      · intro i within
        cases i with
        | zero => exact Bool.eq_false_iff.mpr early
        | succ i =>
          have := before i (Nat.lt_of_succ_lt_succ within)
          rwa [Nat.add_assoc, Nat.add_comm 1] at this
      · intro left
        have := after (Nat.lt_of_succ_lt_succ left)
        rwa [Nat.add_assoc, Nat.add_comm 1] at this

theorem series_of_dropLast {name : Path} {slot : Nat} (known : plan.slot? name = some slot)
    (samePlan : run.plan = plan) (samePlan' : other.plan = plan)
    (lacks : run.savedHistory = other.savedHistory.dropLast) :
    ∃ short whole, run.series? name = some short ∧ other.series? name = some whole ∧
      short.time = whole.time.dropLast ∧ short.values = whole.values.dropLast := by
  rw [series?, samePlan, known, series?, samePlan', known, lacks]
  exact ⟨_, _, rfl, rfl, List.map_dropLast, List.map_dropLast⟩

end Simulation

namespace Clock

variable [Scalar.Exact α] {clock : Clock α}

/-- How much of the span lies behind the last row that is asked for. -/
noncomputable def rest (clock : Clock α) : ℝ := clock.span - clock.lastRow * real clock.saveStep

namespace IsValid

variable (valid : clock.IsValid)
include valid

theorem lt_timeAt_iff (step : ℕ) :
    Scalar.lt (clock.stop + clock.dt / Scalar.ofNat 2) (clock.timeAt step) ↔
      clock.span + real clock.dt / 2 < step * real clock.dt := by
  obtain ⟨two, two_eq⟩ := Scalar.Exact.real_ofNat (α := α) 2
  obtain ⟨half, half_eq⟩ := Scalar.Exact.real_div valid.dt two (by rw [two_eq]; norm_num)
  obtain ⟨later, later_eq⟩ := Scalar.Exact.real_add valid.stop half
  obtain ⟨finite, time⟩ := valid.real_timeAt step
  rw [Scalar.Exact.lt_iff later finite, later_eq, half_eq, two_eq, time, span, Nat.cast_two]
  constructor <;> intro <;> linarith

theorem steps_mul {k : ℕ} (multiple : real clock.saveStep = k * real clock.dt) :
    clock.steps * real clock.dt = clock.lastRow * real clock.saveStep + real clock.saveStep := by
  have rows : clock.savedRows = clock.lastRow + 1 := valid.savedRows_eq
  rw [steps, rows, valid.saveEvery_of_multiple multiple, multiple]
  push_cast
  ring

end IsValid
end Clock

namespace Simulation

section

variable [Scalar.Exact α] {project : Project α} {plan : Plan α} (consistent : project.Consistent)
  (planned : Plan.ofProject project = .ok plan) (valid : plan.clock.IsValid)

omit [Scalar.Exact α] in
include consistent planned in
theorem IsAt.time_settle {run : Simulation α} {step : Nat} (at_ : IsAt plan step run) :
    run.settle.time = plan.clock.timeAt step := by
  rw [Simulation.time, at_.present_settle, Plan.time_settledAt consistent planned]

include consistent planned valid

/-- A run to half a step behind the stop takes the steps that begin no later, as far as there are any. -/
theorem exists_isAt_runTo_stop : ∃ taken ≤ plan.clock.steps, ∃ run, IsAt plan taken run ∧
    (start plan).runTo (plan.clock.stop + plan.clock.dt / Scalar.ofNat 2) = run.settle ∧
      (∀ i < taken, i * real plan.clock.dt ≤ plan.clock.span + real plan.clock.dt / 2) ∧
        (taken < plan.clock.steps →
          plan.clock.span + real plan.clock.dt / 2 < taken * real plan.clock.dt) := by
  obtain ⟨taken, fewer, at_, before, after⟩ := (IsAt.start plan).exists_advanceUntil
    (fun time => Scalar.lt (plan.clock.stop + plan.clock.dt / Scalar.ofNat 2) time) plan.clock.steps
  simp only [Nat.zero_add, Plan.time_rowAt consistent planned] at at_ before after
  refine ⟨taken, fewer, _, at_, rfl, fun i within => ?_, fun left => ?_⟩
  · exact not_lt.mp fun late => Bool.eq_false_iff.mp (before i within) ((valid.lt_timeAt_iff i).mpr late)
  · exact (valid.lt_timeAt_iff taken).mp (after left)

variable {taken k : ℕ} (multiple : real plan.clock.saveStep = k * real plan.clock.dt)
  (before : ∀ i < taken, (i : ℝ) * real plan.clock.dt ≤ plan.clock.span + real plan.clock.dt / 2)
  (after : taken < plan.clock.steps →
    plan.clock.span + real plan.clock.dt / 2 < taken * real plan.clock.dt)
include multiple before after

omit consistent planned in
theorem taken_eq_steps_iff (fewer : taken ≤ plan.clock.steps) : taken = plan.clock.steps ↔
    real plan.clock.saveStep ≤ plan.clock.rest + 3 / 2 * real plan.clock.dt := by
  have total := valid.steps_mul multiple
  rw [Clock.rest]
  constructor
  · rintro rfl
    have some : 0 < plan.clock.steps :=
      Nat.mul_pos (by rw [valid.savedRows_eq]; exact Nat.succ_pos _) plan.clock.one_le_saveEvery
    have last := before (plan.clock.steps - 1) (by omega)
    rw [Nat.cast_sub some, Nat.cast_one, sub_mul, total] at last
    linarith
  · intro enough
    refine Nat.le_antisymm fewer (not_lt.mp fun left => ?_)
    have one_less : (taken : ℝ) ≤ plan.clock.steps - 1 := by
      rw [le_sub_iff_add_le]
      exact_mod_cast left
    have := mul_le_mul_of_nonneg_right one_less valid.positive.le
    rw [sub_mul, total] at this
    linarith [after left]

omit consistent planned before in
/-- If not all steps are taken, all rows but the last are finished. -/
theorem div_saveEvery_of_lt (left : taken < plan.clock.steps) :
    taken / plan.clock.saveEvery = plan.clock.lastRow := by
  have every := valid.saveEvery_of_multiple multiple
  have rows : plan.clock.savedRows = plan.clock.lastRow + 1 := valid.savedRows_eq
  have enough : plan.clock.lastRow * plan.clock.saveEvery ≤ taken := by
    have less : ((plan.clock.lastRow * plan.clock.saveEvery : ℕ) : ℝ) * real plan.clock.dt ≤
        taken * real plan.clock.dt := by
      rw [every, Nat.cast_mul, mul_assoc, ← multiple]
      linarith [after left, valid.lastRow_mul_le, valid.positive]
    exact_mod_cast le_of_mul_le_mul_right less valid.positive
  rw [Clock.steps, rows, Nat.mul_comm] at left
  exact Nat.div_eq_of_lt_le enough (by rwa [Nat.mul_comm])

end

end Simulation
end StockFlow
