import StockFlow.Proofs.Stops

/-!
# The history of a run

The rows of a run by their steps: each is the next one of the settled row before it. A run to the end
saves the settled rows of every `saveEvery`-th step, beginning with the first.
-/

namespace StockFlow

variable {α : Type} [Scalar α]

namespace Plan

/-- The row with which a step of a run begins. -/
def rowAt (plan : Plan α) : Nat → Row α
  | 0 => plan.initialRow
  | step + 1 => plan.nextRow (plan.settle (plan.rowAt step))

def settledAt (plan : Plan α) (step : Nat) : Row α := plan.settle (plan.rowAt step)

theorem size_settle (plan : Plan α) (row : Row α) : (plan.settle row).size = row.size :=
  Row.size_assign

theorem size_rowAt (plan : Plan α) (step : Nat) : (plan.rowAt step).size = plan.size := by
  induction step with
  | zero => exact plan.size_initialRow
  | succ step ih => rw [rowAt, size_nextRow, size_settle, ih]

theorem size_settledAt (plan : Plan α) (step : Nat) : (plan.settledAt step).size = plan.size := by
  rw [settledAt, size_settle, size_rowAt]

/-- The saved rows of a run to the end, without stops and changes. -/
def savedRows (plan : Plan α) : List (Row α) :=
  (List.range plan.clock.savedRows).map fun row => plan.settledAt (row * plan.clock.saveEvery)

end Plan

namespace Simulation

/-! ## What a step finishes -/

variable {plan : Plan α} {run : Simulation α} {step : Nat}

theorem history_advance (run : Simulation α) :
    run.advance.history = if run.step % run.saveEvery = 0 then
      run.history.push (run.plan.settle run.present) else run.history := rfl

theorem size_history_advance (run : Simulation α) :
    run.advance.history.size = run.history.size + if run.step % run.saveEvery = 0 then 1 else 0 := by
  rw [history_advance]
  split
  · rw [Array.size_push]
  · rfl

/-- A step finishes at most one row, which is the settled one and stands behind all others. -/
theorem getElem?_history_advance {n : Nat} {row : Row α} (found : run.advance.history[n]? = some row) :
    run.history[n]? = some row ∨ n = run.history.size ∧ row = run.plan.settle run.present := by
  rw [history_advance] at found
  split at found
  · rw [Array.getElem?_push] at found
    split at found
    · rename_i last
      exact .inr ⟨last, (Option.some.inj found).symm⟩
    · exact .inl found
  · exact .inl found

theorem mem_history_advance {row : Row α} (member : row ∈ run.advance.history) :
    row ∈ run.history ∨ row = run.plan.settle run.present := by
  obtain ⟨n, found⟩ := Array.mem_iff_getElem?.mp member
  exact (getElem?_history_advance found).imp Array.mem_of_getElem? And.right

/-! ## Runs without stops -/

/-- Whether a run of a plan without stops and changes is at the beginning of a step. -/
structure IsAt (plan : Plan α) (step : Nat) (run : Simulation α) : Prop where
  plan_eq : run.plan = plan
  step_eq : run.step = step
  present : run.present = plan.rowAt step
  history : run.history.toList =
    (List.range ((step + plan.clock.saveEvery - 1) / plan.clock.saveEvery)).map
      fun row => plan.settledAt (row * plan.clock.saveEvery)

theorem IsAt.start (plan : Plan α) : IsAt plan 0 (start plan) := by
  refine ⟨rfl, rfl, rfl, ?_⟩
  have := plan.clock.one_le_saveEvery
  rw [Nat.div_eq_of_lt (by omega)]
  rfl

theorem mul_add_div_eq {every quotient rest : Nat} (less : rest < every) :
    (every * quotient + rest) / every = quotient := by
  rw [Nat.mul_add_div (Nat.zero_lt_of_lt less), Nat.div_eq_of_lt less, Nat.add_zero]

theorem div_of_mul {every quotient : Nat} (positive : 1 ≤ every) :
    (every * quotient + every - 1) / every = quotient := by
  rw [Nat.add_sub_assoc positive]
  exact mul_add_div_eq (by omega)

theorem ceil_div_succ {every step : Nat} (positive : 1 ≤ every) :
    (step + 1 + every - 1) / every =
      (step + every - 1) / every + if step % every = 0 then 1 else 0 := by
  have split := Nat.div_add_mod step every
  have rest := Nat.mod_lt step positive
  generalize step / every = quotient at split
  generalize step % every = remainder at split rest ⊢
  subst split
  have next : every * quotient + remainder + 1 + every - 1 =
      every * (quotient + 1) + remainder := by
    rw [Nat.mul_add, Nat.mul_one]
    omega
  rw [next, mul_add_div_eq rest]
  split
  · rename_i none
    simp only [none, Nat.add_zero, div_of_mul positive]
  · have same : every * quotient + remainder + every - 1 =
        every * (quotient + 1) + (remainder - 1) := by
      rw [Nat.mul_add, Nat.mul_one]
      omega
    rw [same, mul_add_div_eq (by omega)]

theorem IsAt.advance (at_ : IsAt plan step run) : IsAt plan (step + 1) run.advance := by
  obtain ⟨rfl, rfl, present, history⟩ := at_
  refine ⟨rfl, rfl, ?_, ?_⟩
  · rw [Simulation.advance, present]
    rfl
  · rw [ceil_div_succ run.plan.clock.one_le_saveEvery, history_advance, saveEvery]
    split
    · rename_i due
      have row : (run.step + run.plan.clock.saveEvery - 1) / run.plan.clock.saveEvery *
          run.plan.clock.saveEvery = run.step := by
        obtain ⟨quotient, whole⟩ := Nat.dvd_of_mod_eq_zero due
        rw [whole, div_of_mul run.plan.clock.one_le_saveEvery, Nat.mul_comm]
      rw [Array.toList_push, history, List.range_succ, List.map_append, List.map_singleton, row,
        Plan.settledAt, present]
    · rw [history, Nat.add_zero]

theorem IsAt.advanceUntil (at_ : IsAt plan step run) (steps : Nat) :
    IsAt plan (step + steps) (run.advanceUntil (fun _ => false) steps) := by
  induction steps generalizing run step with
  | zero => exact at_
  | succ steps ih =>
    rw [Simulation.advanceUntil, if_neg Bool.false_ne_true, Nat.add_comm steps, ← Nat.add_assoc]
    exact ih at_.advance

theorem exists_isAt_runToEnd (plan : Plan α) :
    ∃ run, IsAt plan plan.clock.steps run ∧ (start plan).runToEnd = run.settle := by
  have ends := (IsAt.start plan).advanceUntil plan.clock.steps
  rw [Nat.zero_add] at ends
  exact ⟨_, ends, rfl⟩

/-- A run that stops has saved the settled rows of the save steps that are finished. -/
theorem savedHistory_settle (at_ : IsAt plan step run) :
    run.settle.savedHistory = (List.range (step / plan.clock.saveEvery)).map
      fun row => plan.settledAt (row * plan.clock.saveEvery) := by
  have positive := plan.clock.one_le_saveEvery
  have rows : run.settle.completeRows = step / plan.clock.saveEvery := by
    show run.step / run.plan.clock.saveEvery = _
    rw [at_.step_eq, at_.plan_eq]
  have history : run.settle.history.toList = _ := at_.history
  have enough : step / plan.clock.saveEvery ≤
      (step + plan.clock.saveEvery - 1) / plan.clock.saveEvery :=
    Nat.div_le_div_right (by omega)
  rw [savedHistory, rows, history, ← List.map_take, List.take_range, Nat.min_eq_left enough]

/-- A run to the end saves its settled rows, one for every save step. -/
theorem savedHistory_runToEnd (plan : Plan α) :
    (start plan).runToEnd.savedHistory = plan.savedRows := by
  obtain ⟨run, ends, ended⟩ := exists_isAt_runToEnd plan
  rw [ended, savedHistory_settle ends, Clock.steps, Nat.mul_div_cancel _ plan.clock.one_le_saveEvery,
    Plan.savedRows]

/-- The series of a run to the end: the times and values of its saved rows. -/
theorem series?_runToEnd (plan : Plan α) (name : Path) :
    (start plan).runToEnd.series? name = (plan.slot? name).map fun slot =>
      ⟨name, plan.savedRows.map Row.time, plan.savedRows.map (·.get slot)⟩ := by
  obtain ⟨run, ends, ended⟩ := exists_isAt_runToEnd plan
  have same : (start plan).runToEnd.plan = plan := (congrArg Simulation.plan ended).trans ends.plan_eq
  rw [series?, savedHistory_runToEnd, same]

end Simulation
end StockFlow
