import StockFlow.Proofs.Catalog
import StockFlow.Proofs.Settling

/-!
# Stops on the way

A run that stops on the way computes the flows of its present row once more than one that does not.
Where settling a settled row changes nothing, this leaves no trace: the run to the end is the same.
-/

namespace StockFlow

variable {α : Type} [Scalar α]

namespace Plan

theorem size_nextRow (plan : Plan α) (row : Row α) : (plan.nextRow row).size = row.size := by
  unfold nextRow Row.advance
  rw [Array.size_setIfInBounds]
  have carried : ∀ (program : List (Assignment α)) (next : Row α),
      (program.foldl (fun next a => next.setIfInBounds a.slot (a.term.value plan.clock.dt row))
        next).size = next.size := by
    intro program
    induction program with
    | nil => exact fun _ => rfl
    | cons a rest ih =>
      intro next
      rw [List.foldl_cons, ih, Array.size_setIfInBounds]
  exact carried _ row

/-- Whether settling a settled row of a plan changes nothing. -/
def IsStable (plan : Plan α) : Prop :=
  ∀ row : Row α, row.size = plan.size → plan.settle (plan.settle row) = plan.settle row

end Plan

namespace Simulation

variable {run : Simulation α}

/-- Whether the present row of a run has a slot for each variable of its plan. -/
def IsWhole (run : Simulation α) : Prop := run.present.size = run.plan.size

theorem IsWhole.start (plan : Plan α) : (Simulation.start plan).IsWhole := plan.size_initialRow

theorem IsWhole.settle (whole : run.IsWhole) : run.settle.IsWhole := by
  unfold IsWhole Simulation.settle Plan.settle
  rw [Row.size_assign]
  exact whole

theorem IsWhole.advance (whole : run.IsWhole) : run.advance.IsWhole := by
  unfold IsWhole Simulation.advance
  rw [Plan.size_nextRow]
  exact whole.settle

theorem advance_settle (stable : run.plan.IsStable) (whole : run.IsWhole) :
    run.settle.advance = run.advance := by
  unfold advance settle saveEvery
  rw [stable run.present whole]

theorem settle_settle (stable : run.plan.IsStable) (whole : run.IsWhole) :
    run.settle.settle = run.settle := by
  unfold settle
  rw [stable run.present whole]

theorem runToEnd_advance (early : run.step < run.plan.clock.steps) :
    run.advance.runToEnd = run.runToEnd := by
  unfold runToEnd runUntil
  have left : run.plan.clock.steps - run.step =
      (run.advance.plan.clock.steps - run.advance.step) + 1 := by
    have step : run.advance.step = run.step + 1 := rfl
    have plan : run.advance.plan = run.plan := rfl
    rw [step, plan]
    omega
  rw [left, advanceUntil, if_neg Bool.false_ne_true]

theorem runToEnd_settle (stable : run.plan.IsStable) (whole : run.IsWhole) :
    run.settle.runToEnd = run.runToEnd := by
  by_cases early : run.step < run.plan.clock.steps
  · have later : run.settle.step < run.settle.plan.clock.steps := early
    rw [← runToEnd_advance later, advance_settle stable whole, runToEnd_advance early]
  · have finished : run.plan.clock.steps - run.step = 0 := by omega
    have finished' : run.settle.plan.clock.steps - run.settle.step = 0 := finished
    unfold runToEnd runUntil
    rw [finished, finished', advanceUntil, advanceUntil, settle_settle stable whole]

/-- A stop leaves the run to the end as it is, and the row whole. -/
theorem runToEnd_runUntil (past : α → Bool) (stable : run.plan.IsStable) (whole : run.IsWhole) :
    (run.runUntil past).plan = run.plan ∧ (run.runUntil past).IsWhole ∧
      (run.runUntil past).runToEnd = run.runToEnd := by
  unfold runUntil
  generalize left : run.plan.clock.steps - run.step = steps
  -- a stop takes some of the steps that are left, and settles once more than they do
  induction steps generalizing run with
  | zero => exact ⟨rfl, whole.settle, runToEnd_settle stable whole⟩
  | succ steps ih =>
    unfold advanceUntil
    split
    · exact ⟨rfl, whole.settle, runToEnd_settle stable whole⟩
    · have fewer : run.advance.plan.clock.steps - run.advance.step = steps := by
        have step : run.advance.step = run.step + 1 := rfl
        have plan : run.advance.plan = run.plan := rfl
        rw [step, plan]
        omega
      have stable' : run.advance.plan.IsStable := stable
      obtain ⟨samePlan, stillWhole, same⟩ := ih stable' whole.advance fewer
      exact ⟨samePlan, stillWhole, same.trans (runToEnd_advance (by omega))⟩

theorem runToEnd_stops (stable : run.plan.IsStable) (whole : run.IsWhole) (stops : List α) :
    (stops.foldl runTo run).runToEnd = run.runToEnd := by
  induction stops generalizing run with
  | nil => rfl
  | cons stop rest ih =>
    obtain ⟨samePlan, stillWhole, same⟩ :=
      runToEnd_runUntil (fun time => Scalar.lt stop time) stable whole
    rw [List.foldl_cons]
    exact (ih (samePlan ▸ stable) stillWhole).trans same

/-- Where the order of evaluation is sound, stopping on the way never changes a series. -/
theorem series_of_stops {document : Document.Project α} {project : Project α}
    (compiled : Project.compile document = .ok project) (planned : ofProject project = .ok run)
    (plain : document.HasPlainNames) (spares : project.SparesStocks)
    (outward : project.ReadsOutward) (stops : List α) (name : Path) :
    ((stops.foldl runTo run.reset).runToEnd).series? name = run.reset.runToEnd.series? name := by
  obtain ⟨plan, built, rfl⟩ := ofProject_eq_ok.mp planned
  have stable : plan.IsStable := fun row size =>
    Plan.settle_settle (Project.consistent_of_compile compiled) built
      (Project.hasPlainNames_of_compile compiled plain) spares outward size
  exact congrArg (·.series? name) (runToEnd_stops stable (IsWhole.start plan) stops)

theorem series_of_stops_nested : ∃ project run, Project.compile Plan.nested = .ok project ∧
    ofProject project = .ok run ∧
      ((([0.5, 1] : List Float).foldl runTo run.reset).runToEnd).series? "m.n.y" =
        run.reset.runToEnd.series? "m.n.y" := by
  obtain ⟨project, plan, compiled, planned, plain, spares, outward⟩ := Plan.nested_runs
  have ready : ofProject project = .ok (start plan) := ofProject_eq_ok.mpr ⟨plan, planned, rfl⟩
  exact ⟨project, start plan, compiled, ready,
    series_of_stops compiled ready plain spares outward [0.5, 1] "m.n.y"⟩

/-- A project with a variable whose name is that of a constant. No order is found between `a` and
the `pi` that it reads. -/
def shadowed : Document.Project Float :=
  ⟨"", ⟨0, 1, 1, none⟩, [⟨"main", none, [
    .auxiliary ⟨"a", "", some (.reference "pi"), none⟩,
    .auxiliary ⟨"pi", "", some (.reference "time"), none⟩]⟩]⟩

/-- Where a name is not plain, stopping on the way can change a series. -/
theorem series_of_stops_ne : ∃ project run, Project.compile shadowed = .ok project ∧
    ofProject project = .ok run ∧
      ((([0] : List Float).foldl runTo run.reset).runToEnd).series? "a" ≠
        run.reset.runToEnd.series? "a" := by
  have check : ∃ project ∈ (Project.compile shadowed).toOption,
      ∃ run ∈ (ofProject project).toOption,
        (((([0] : List Float).foldl runTo run.reset).runToEnd).series? "a").map
            (·.values.map Float.toBits) ≠
          (run.reset.runToEnd.series? "a").map (·.values.map Float.toBits) := by
    rw [Project.compile_eq]
    decide +kernel
  obtain ⟨project, compiled, run, ready, different⟩ := check
  exact ⟨project, run, toOption_eq_some.mp compiled, toOption_eq_some.mp ready,
    fun same => different (congrArg _ same)⟩

end Simulation
end StockFlow
