import StockFlow.Plan.Basic

/-!
# Simulations

A run keeps the rows that it has finished and the present row. A step computes the flows in the
present row, finishes it if it is due, and replaces it by the next one, in which each stock has
moved by its net flow. A row is due to be saved every `saveEvery` steps.
-/

namespace StockFlow

variable {α : Type} [Scalar α]

/-! ## Rows -/

/-- Makes assignments one after the other; each reads what those before it wrote. -/
def Row.assign (dt : α) (row : Row α) (program : List (Assignment α)) : Row α :=
  program.foldl (fun row a => row.setIfInBounds a.slot (a.term.value dt row)) row

/-- Makes assignments at one go; all read the row as it was. -/
def Row.advance (dt : α) (row : Row α) (program : List (Assignment α)) : Row α :=
  program.foldl (fun next a => next.setIfInBounds a.slot (a.term.value dt row)) row

namespace Plan

def initialRow (plan : Plan α) : Row α :=
  let blank := (Array.replicate plan.size Scalar.zero).setIfInBounds timeSlot plan.clock.start
  Row.assign plan.clock.dt blank (plan.program .initials)

/-- The row with its flows and auxiliary variables computed from its stocks. -/
def settle (plan : Plan α) (row : Row α) : Row α :=
  Row.assign plan.clock.dt row (plan.program .flows)

def nextRow (plan : Plan α) (row : Row α) : Row α :=
  (Row.advance plan.clock.dt row (plan.program .stocks)).setIfInBounds timeSlot
    (row.time + plan.clock.dt)

end Plan

/-! ## Runs -/

structure Simulation (α : Type) where
  plan : Plan α
  step : Nat
  history : Array (Row α)
  present : Row α

/-- The saved values of one variable with their times. -/
structure Series (α : Type) where
  name : String
  time : List α
  values : List α
  deriving Repr

namespace Simulation

def start (plan : Plan α) : Simulation α :=
  { plan, step := 0, history := #[], present := plan.initialRow }

def ofProject (project : Project α) : Except Fault (Simulation α) := do
  let plan ← Plan.ofProject project
  return start plan

theorem ofProject_eq_ok {project : Project α} {run : Simulation α} :
    ofProject project = .ok run ↔ ∃ plan, Plan.ofProject project = .ok plan ∧ start plan = run := by
  unfold ofProject
  cases Plan.ofProject project <;> simp [bind, Except.bind, pure, Except.pure]

def reset (run : Simulation α) : Simulation α := start run.plan

def time (run : Simulation α) : α := run.present.time

def saveEvery (run : Simulation α) : Nat := run.plan.clock.saveEvery

def advance (run : Simulation α) : Simulation α :=
  let settled := run.plan.settle run.present
  { run with
    step := run.step + 1
    history := if run.step % run.saveEvery = 0 then run.history.push settled else run.history
    present := run.plan.nextRow settled }

/-- Takes steps until `past` holds of the time, at most so many. -/
def advanceUntil (past : α → Bool) : Nat → Simulation α → Simulation α
  | 0, run => run
  | steps + 1, run => if past run.time then run else advanceUntil past steps run.advance

def settle (run : Simulation α) : Simulation α :=
  { run with present := run.plan.settle run.present }

/-- Runs until a test of the time holds or the run is over; then the flows of the present row are
those of its stocks. -/
def runUntil (past : α → Bool) (run : Simulation α) : Simulation α :=
  (run.advanceUntil past (run.plan.clock.steps - run.step)).settle

def runTo (run : Simulation α) (stop : α) : Simulation α :=
  run.runUntil fun time => Scalar.lt stop time

def runToEnd (run : Simulation α) : Simulation α := run.runUntil fun _ => false

/-! ## Values -/

/-- Overrides a value of the present row, before the first step. -/
def set (run : Simulation α) (name : Path) (value : α) : Except Fault (Simulation α) :=
  if run.step ≠ 0 then
    .error (.simulation .alreadyStepped
      ("can't set '" ++ name ++ "' after the simulation has started"))
  else
    match run.plan.slot? name with
    | none => .error (.simulation .unresolvedReference name)
    | some slot => .ok { run with present := run.present.setIfInBounds slot value }

def completeRows (run : Simulation α) : Nat := run.step / run.saveEvery

/-- The row last due to be saved: the present one, or between saves the last finished one. -/
def dueRow (run : Simulation α) : Row α := (run.history[run.completeRows]?).getD run.present

/-- The value of a variable in the row last due. -/
def value? (run : Simulation α) (name : Path) : Option α :=
  (run.plan.slot? name).map run.dueRow.get

def savedHistory (run : Simulation α) : List (Row α) := run.history.toList.take run.completeRows

def series? (run : Simulation α) (name : Path) : Option (Series α) :=
  (run.plan.slot? name).map fun slot =>
    ⟨name, run.savedHistory.map Row.time, run.savedHistory.map (·.get slot)⟩

end Simulation
end StockFlow
