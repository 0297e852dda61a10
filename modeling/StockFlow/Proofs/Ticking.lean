import Mathlib.Order.Bounds.Basic
import StockFlow.Proofs.Catalog
import StockFlow.Proofs.Comparing
import StockFlow.Proofs.Decimation
import StockFlow.Proofs.Euler
import StockFlow.Proofs.Saving
import StockFlow.Proofs.Storing

/-!
# The clock of a run

Only a step moves the clock, by the length of a step, and nothing that is computed writes it. So a run to
a time stops at the first step at which the clock is past it, or else at the end, and to stop on the way
changes neither the step nor the time at which it stops. The same holds of the clock in the cells of a
storage, where a row that is not due is written over.
-/

namespace StockFlow

variable {α : Type} [Scalar α]

/-- The time some steps after another one. -/
def Clock.timeFrom (clock : Clock α) (time : α) : Nat → α
  | 0 => time
  | steps + 1 => clock.timeFrom time steps + clock.dt

theorem Clock.timeFrom_add (clock : Clock α) (time : α) (m n : Nat) :
    clock.timeFrom (clock.timeFrom time m) n = clock.timeFrom time (m + n) := by
  induction n with
  | zero => rfl
  | succ n ih => rw [timeFrom, ih, ← Nat.add_assoc, timeFrom]

theorem Plan.timeSlot_unwritten {project : Project α} {plan : Plan α} (consistent : project.Consistent)
    (planned : ofProject project = .ok plan) (phase : Phase) : timeSlot ∉ written (plan.program phase) := by
  by_cases integrating : phase = .stocks
  · subst integrating
    exact fun member => Nat.lt_irrefl _ (lt_size_of_integrated consistent planned _ member).1
  · exact timeSlot_notMem_written consistent planned integrating

namespace Simulation

/-- The time that a run comes to at a step from its own on. -/
def timeAt (run : Simulation α) (step : Nat) : α := run.plan.clock.timeFrom run.time (step - run.step)

/-- Whether a run can stop at a step: it is over then, or a test holds of the time. -/
def StopsAt (past : α → Bool) (run : Simulation α) (step : Nat) : Prop :=
  run.step ≤ step ∧ (step = run.plan.clock.steps ∨ past (run.timeAt step) = true)

theorem timeAt_of_later {run next : Simulation α} (same : next.plan = run.plan) (later : run.step ≤ next.step)
    (time : next.time = run.timeAt next.step) {step : Nat} (after : next.step ≤ step) :
    next.timeAt step = run.timeAt step := by
  have split : step - run.step = next.step - run.step + (step - next.step) := by omega
  rw [timeAt, time, same, timeAt, Clock.timeFrom_add, timeAt, split]

section

variable {project : Project α} {run : Simulation α} (past : α → Bool) (consistent : project.Consistent)
  (planned : Plan.ofProject project = .ok run.plan)
include consistent planned

theorem time_settle : run.settle.time = run.time := Plan.time_settle consistent planned run.present

theorem time_advance (whole : run.IsWhole) : run.advance.time = run.time + run.plan.clock.dt := by
  have moved := Plan.time_nextRow consistent planned whole.settle
  exact moved.trans (congrArg (· + run.plan.clock.dt) (time_settle consistent planned))

theorem exists_advanceUntil (whole : run.IsWhole) (steps : Nat) : ∃ n ≤ steps,
    (run.advanceUntil past steps).plan = run.plan ∧ (run.advanceUntil past steps).step = run.step + n ∧
      (run.advanceUntil past steps).time = run.plan.clock.timeFrom run.time n ∧
      (n = steps ∨ past (run.plan.clock.timeFrom run.time n) = true) ∧
      ∀ m < n, past (run.plan.clock.timeFrom run.time m) = false := by
  induction steps generalizing run with
  | zero => exact ⟨0, Nat.le_refl _, rfl, rfl, rfl, .inl rfl, fun m none => absurd none (Nat.not_lt_zero m)⟩
  | succ steps ih =>
    rw [advanceUntil]
    split
    · rename_i done
      exact ⟨0, Nat.zero_le _, rfl, rfl, rfl, .inr done, fun m none => absurd none (Nat.not_lt_zero m)⟩
    · rename_i further
      obtain ⟨n, within, same, step, time, ends, before⟩ :=
        ih (show Plan.ofProject project = .ok run.advance.plan from planned) whole.advance
      have later (m : Nat) : run.advance.plan.clock.timeFrom run.advance.time m =
          run.plan.clock.timeFrom run.time (m + 1) := by
        rw [time_advance consistent planned whole, Nat.add_comm, ← Clock.timeFrom_add]
        rfl
      rw [later] at time ends
      refine ⟨n + 1, Nat.succ_le_succ within, same, ?_, time, ends.imp_left (congrArg (· + 1)), ?_⟩
      · rw [step, Nat.add_comm n, ← Nat.add_assoc]
        rfl
      · intro m less
        cases m with
        | zero => exact Bool.eq_false_iff.mpr further
        | succ m =>
          rw [← later]
          exact before m (Nat.lt_of_succ_lt_succ less)

/-- A run stops at the first step at which it can, with the time of that step. -/
theorem isLeast_runUntil (whole : run.IsWhole) (early : run.step ≤ run.plan.clock.steps) :
    IsLeast {step | run.StopsAt past step} (run.runUntil past).step ∧
      (run.runUntil past).time = run.timeAt (run.runUntil past).step := by
  obtain ⟨n, within, same, step, time, ends, before⟩ :=
    exists_advanceUntil past consistent planned whole (run.plan.clock.steps - run.step)
  have stop : (run.runUntil past).step = run.step + n := step
  have settled : (run.runUntil past).time = run.plan.clock.timeFrom run.time n :=
    (time_settle consistent (by rwa [same])).trans time
  have at_ (m : Nat) : run.timeAt (run.step + m) = run.plan.clock.timeFrom run.time m := by
    rw [timeAt, Nat.add_sub_cancel_left]
  rw [stop, settled, at_]
  refine ⟨⟨⟨Nat.le_add_right _ _, ends.imp (fun ended => by omega) fun late => ?_⟩, ?_⟩, rfl⟩
  · rwa [at_]
  · rintro other ⟨after, ended | late⟩
    · omega
    · obtain ⟨m, rfl⟩ := Nat.exists_eq_add_of_le after
      rw [at_] at late
      refine Nat.add_le_add_left (Nat.not_lt.mp fun less => ?_) _
      exact absurd (before m less) (by simp [late])

/-- To stop on the way changes neither the step nor the time at which a run stops, if it stops on the way
wherever it stops without. -/
theorem runUntil_runUntil {before : α → Bool} (whole : run.IsWhole)
    (early : run.step ≤ run.plan.clock.steps) (wider : ∀ time, past time = true → before time = true) :
    ((run.runUntil before).runUntil past).step = (run.runUntil past).step ∧
      ((run.runUntil before).runUntil past).time = (run.runUntil past).time := by
  have reaches : Reaches run (run.runUntil before) := reaches_runUntil before
  have same : (run.runUntil before).plan = run.plan := reaches.plan_eq
  obtain ⟨⟨-, first⟩, middle⟩ := isLeast_runUntil before consistent planned whole early
  obtain ⟨⟨stops, last⟩, time⟩ := isLeast_runUntil past consistent planned whole early
  have later : run.step ≤ (run.runUntil before).step := reaches.step_le
  have on : (run.runUntil before).step ≤ (run.runUntil past).step :=
    first ⟨stops.1, stops.2.imp_right (wider _)⟩
  have inside : (run.runUntil before).step ≤ (run.runUntil before).plan.clock.steps := by
    rw [same]
    exact first ⟨early, .inl rfl⟩
  obtain ⟨both, time'⟩ := isLeast_runUntil past consistent (by rwa [same])
    (reaches.keeps (fun _ _ moves => moves.isWhole) whole) inside
  have at_ {step : Nat} (after : (run.runUntil before).step ≤ step) :=
    timeAt_of_later same later middle after
  -- where the second run stops is the first step at which the run without a stop can
  have direct : IsLeast {step | (run.runUntil before).StopsAt past step} (run.runUntil past).step := by
    refine ⟨⟨on, ?_⟩, fun step ⟨after, ends⟩ => last ⟨later.trans after, ?_⟩⟩
    · rw [same, at_ on]
      exact stops.2
    · rwa [same, at_ after] at ends
  have step := both.unique direct
  refine ⟨step, ?_⟩
  rw [time', step, at_ on, time]

end

theorem step_le_after (plan : Plan α) (calls : List (Call α)) :
    ((start plan).after calls).step ≤ plan.clock.steps := by
  suffices within : ((start plan).after calls).step ≤ ((start plan).after calls).plan.clock.steps by
    rwa [plan_after] at within
  refine after_induction (motive := fun run => run.step ≤ run.plan.clock.steps) (Nat.zero_le _) ?_ calls
  intro run next moves within
  cases moves with
  | advance early => exact early
  | settle => exact within
  | put => exact within

end Simulation
end StockFlow
