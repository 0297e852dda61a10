import StockFlow.Proofs.Calls
import StockFlow.Proofs.Catalog
import StockFlow.Proofs.Overriding

/-!
# Values asked for on the way

A run that has stopped on the way differs from one that has not in one thing: the flows of its present
row are computed already. So what it answers on the way is what it saves in the end.
-/

namespace StockFlow

variable {α : Type} [Scalar α]

namespace Simulation

variable {plan : Plan α} {run clean : Simulation α} {step : Nat}

/-- Whether a run is, up to the flows of its present row, a run of the plan that never stopped. -/
def Follows (plan : Plan α) (run : Simulation α) : Prop :=
  ∃ clean, IsAt plan run.step clean ∧ run.settle = clean.settle

theorem IsAt.isWhole (at_ : IsAt plan step run) : run.IsWhole := by
  rw [IsWhole, at_.present, at_.plan_eq, Plan.size_rowAt]

theorem IsAt.present_settle (at_ : IsAt plan step run) : run.settle.present = plan.settledAt step := by
  show run.plan.settle run.present = plan.settledAt step
  rw [at_.plan_eq, at_.present]
  rfl

theorem IsAt.eq_settledAt_of_history (at_ : IsAt plan step run) {index : Nat} {row : Row α}
    (finished : run.history[index]? = some row) : row = plan.settledAt (index * plan.clock.saveEvery) := by
  rw [← Array.getElem?_toList, at_.history, List.getElem?_map] at finished
  obtain ⟨counted, here, rfl⟩ := Option.map_eq_some_iff.mp finished
  obtain ⟨-, rfl⟩ := List.getElem?_eq_some_iff.mp here
  rw [List.getElem_range]

theorem Follows.advance (stable : run.plan.IsStable) (whole : run.IsWhole)
    (follows : run.Follows plan) : run.advance.Follows plan := by
  obtain ⟨clean, at_, same⟩ := follows
  have samePlan : run.settle.plan = clean.settle.plan := congrArg Simulation.plan same
  have next : run.advance = clean.advance := by
    rw [← advance_settle stable whole, same, advance_settle (samePlan ▸ stable) at_.isWhole]
  refine ⟨clean.advance, ?_, by rw [next]⟩
  have later : clean.advance.step = run.step + 1 := congrArg (· + 1) at_.step_eq
  rw [next, later]
  exact at_.advance

theorem Follows.runUntil (past : α → Bool) (stable : run.plan.IsStable) (whole : run.IsWhole)
    (follows : run.Follows plan) :
    ∃ clean, IsAt plan (run.runUntil past).step clean ∧ run.runUntil past = clean.settle := by
  unfold Simulation.runUntil
  generalize run.plan.clock.steps - run.step = steps
  induction steps generalizing run with
  | zero => exact follows
  | succ steps ih =>
    rw [advanceUntil]
    split
    · exact follows
    · have stable' : run.advance.plan.IsStable := stable
      exact ih stable' whole.advance (follows.advance stable whole)

/-- After any calls that set nothing a run is one that never stopped, with the flows of its present row
computed. -/
theorem exists_isAt_after (stable : plan.IsStable) (steady : plan.settle plan.initialRow = plan.initialRow)
    {calls : List (Call α)} (unset : ∀ name value, .set name value ∉ calls) :
    ∃ clean, IsAt plan ((start plan).after calls).step clean ∧ (start plan).after calls = clean.settle := by
  have begins : ∃ clean, IsAt plan 0 clean ∧ start plan = clean.settle := by
    refine ⟨start plan, IsAt.start plan, ?_⟩
    show start plan = { start plan with present := plan.settle plan.initialRow }
    rw [steady]
    rfl
  suffices carried : ∀ run : Simulation α, run.plan = plan → run.IsWhole →
      (∃ clean, IsAt plan run.step clean ∧ run = clean.settle) →
        ∃ clean, IsAt plan (run.after calls).step clean ∧ run.after calls = clean.settle from
    carried (start plan) rfl (IsWhole.start plan) begins
  induction calls with
  | nil => exact fun run _ _ here => here
  | cons call rest ih =>
    rintro run rfl whole ⟨clean, at_, same⟩
    have others : ∀ name value, .set name value ∉ rest := fun name value member =>
      unset name value (List.mem_cons_of_mem _ member)
    have until_ : ∀ past : α → Bool, ∃ clean, IsAt run.plan ((run.runUntil past).after rest).step clean ∧
        (run.runUntil past).after rest = clean.settle := by
      intro past
      have twice : run.settle = run := by
        have samePlan : run.plan = clean.settle.plan := congrArg Simulation.plan same
        rw [same, settle_settle (samePlan ▸ stable) at_.isWhole]
      obtain ⟨samePlan, stillWhole, -⟩ := runToEnd_runUntil past stable whole
      refine ih others _ samePlan stillWhole (Follows.runUntil _ stable whole ⟨clean, at_, ?_⟩)
      rw [twice, same]
    cases call with
    | reset => exact ih others run.reset rfl (IsWhole.start run.plan) begins
    | runTo stop => exact until_ fun time => Scalar.lt stop time
    | runToEnd => exact until_ fun _ => false
    | set name value => exact absurd List.mem_cons_self (unset name value)

theorem after_map_runTo (run : Simulation α) (stops : List α) :
    run.after (stops.map .runTo) = stops.foldl runTo run := List.foldl_map

theorem ceil_div_of_mod_eq_zero {every step : Nat} (positive : 1 ≤ every) (due : step % every = 0) :
    (step + every - 1) / every = step / every := by
  have whole : step = every * (step / every) := (Nat.mul_div_cancel' (Nat.dvd_of_mod_eq_zero due)).symm
  conv_lhs => rw [whole]
  exact div_of_mul positive

theorem div_lt_ceil_div {every step : Nat} (positive : 1 ≤ every) (between : step % every ≠ 0) :
    step / every < (step + every - 1) / every := by
  have split := Nat.div_add_mod step every
  have rest := Nat.mod_lt step positive
  have same : step + every - 1 = every * (step / every + 1) + (step % every - 1) := by
    rw [Nat.mul_add, Nat.mul_one]
    omega
  rw [same, mul_add_div_eq (by omega)]
  exact Nat.lt_succ_self _

/-- The row last due, with its flows, is the settled row of its step. -/
theorem dueRow_settle (at_ : IsAt plan step clean) :
    clean.settle.dueRow = plan.settledAt (step / plan.clock.saveEvery * plan.clock.saveEvery) := by
  have positive := plan.clock.one_le_saveEvery
  have rows : clean.settle.completeRows = step / plan.clock.saveEvery := by
    show clean.step / clean.plan.clock.saveEvery = _
    rw [at_.step_eq, at_.plan_eq]
  have history : clean.settle.history.toList = (List.range ((step + plan.clock.saveEvery - 1) /
      plan.clock.saveEvery)).map fun row => plan.settledAt (row * plan.clock.saveEvery) := at_.history
  rw [dueRow, rows, ← Array.getElem?_toList, history, List.getElem?_map, at_.present_settle]
  by_cases due : step % plan.clock.saveEvery = 0
  · -- no step was taken since, so the row is the present one
    rw [ceil_div_of_mod_eq_zero positive due, List.getElem?_eq_none (by rw [List.length_range]),
      Nat.div_mul_cancel (Nat.dvd_of_mod_eq_zero due)]
    rfl
  · have finished := div_lt_ceil_div positive due
    rw [List.getElem?_eq_getElem (by rwa [List.length_range]), List.getElem_range]
    rfl

/-- What a run answers on the way for the row last due, it saves in the end, however often it stops
before and after. -/
theorem value_saved {document : Document.Project α} {project : Project α} {first here : Simulation α}
    (compiled : Project.compile document = .ok project) (ready : ofProject project = .ok first)
    (plain : document.HasPlainNames) (spares : project.SparesStocks)
    (outward : project.ReadsOutward) (earlier : List (Call α)) (stops further : List α)
    (asked : stops.foldl runTo (first.after earlier).reset = here) {name : Path} {x : α}
    (answer : here.value? name = some x)
    (early : here.step / here.saveEvery < here.plan.clock.savedRows) :
    ∃ series, (further.foldl runTo here).runToEnd.series? name = some series ∧
      series.values[here.step / here.saveEvery]? = some x := by
  obtain ⟨plan, planned, rfl⟩ := ofProject_eq_ok.mp ready
  have consistent := Project.consistent_of_compile compiled
  have names : project.HasPlainNames := Project.hasPlainNames_of_compile compiled plain
  have stable : plan.IsStable := fun row size =>
    Plan.settle_settle consistent planned names spares outward size
  have anew : ((start plan).after earlier).reset = start plan := by
    rw [reset, plan_after]
    rfl
  rw [anew] at asked
  have ends : (further.foldl runTo here).runToEnd = (start plan).runToEnd := by
    rw [← asked, ← List.foldl_append]
    exact runToEnd_stops stable (IsWhole.start plan) (stops ++ further)
  obtain ⟨clean, at_, same⟩ := exists_isAt_after stable
    (Plan.settle_initialRow consistent planned names outward)
    (show ∀ name value, Call.set name value ∉ stops.map Call.runTo by simp)
  rw [after_map_runTo, asked] at at_ same
  have samePlan : here.plan = plan := (congrArg Simulation.plan same).trans at_.plan_eq
  have saveEvery : here.saveEvery = plan.clock.saveEvery := by
    rw [Simulation.saveEvery, samePlan]
  rw [value?, samePlan, same, dueRow_settle at_] at answer
  obtain ⟨slot, known, rfl⟩ := Option.map_eq_some_iff.mp answer
  rw [ends, series?_runToEnd, known]
  refine ⟨_, rfl, ?_⟩
  rw [samePlan, saveEvery] at early
  simp [saveEvery, Plan.savedRows, early]

/-- A project that saves every other row: `level` moves with a smoothed value of itself in `m`. -/
def paced : Document.Project Float :=
  ⟨"", ⟨0, 4, 1, some 2⟩, [
    ⟨"main", none, [
      .stock ⟨"level", "3", none, ["net"], [], false⟩,
      .flow ⟨"net", "", some (.reference "m.eased"), none, false⟩,
      .module ⟨"m", "sub", [⟨"level", "m.x"⟩]⟩]⟩,
    ⟨"sub", none, [
      .auxiliary ⟨"x", "0", none, none⟩,
      .auxiliary ⟨"eased", "", some (.call "smth1" [.reference "x", .constant "2" 2]), none⟩]⟩]⟩

/-- A stop between two saves: after three of six steps the row last due is the second one. -/
theorem value_saved_paced : ∃ project first, Project.compile paced = .ok project ∧
    ofProject project = .ok first ∧ ∃ here, [2].foldl runTo (first.after [.runToEnd]).reset = here ∧
      here.step = 3 ∧ ∃ x, here.value? "m.eased" = some x ∧
        ∃ series, ([3].foldl runTo here).runToEnd.series? "m.eased" = some series ∧
          series.values[1]? = some x := by
  have check : ∃ project ∈ (Project.compile paced).toOption,
      ∃ first ∈ (ofProject project).toOption, paced.HasPlainNames ∧ project.SparesStocks ∧
        project.HasRelativeSources ∧
          ([2].foldl runTo (first.after [.runToEnd]).reset).step = 3 ∧
          ([2].foldl runTo (first.after [.runToEnd]).reset).saveEvery = 2 ∧
          ([2].foldl runTo (first.after [.runToEnd]).reset).plan.clock.savedRows = 3 ∧
          (([2].foldl runTo (first.after [.runToEnd]).reset).value? "m.eased").isSome = true := by
    rw [Project.compile_eq]
    decide +kernel
  obtain ⟨project, compiled, first, ready, plain, spares, relative, step, every, rows, present⟩ := check
  have compiled := toOption_eq_some.mp compiled
  have ready := toOption_eq_some.mp ready
  obtain ⟨x, answer⟩ := Option.isSome_iff_exists.mp present
  obtain ⟨series, found, saved⟩ := value_saved compiled ready plain spares relative.readsOutward
    [.runToEnd] [2] [3] rfl answer (by rw [step, every, rows]; decide)
  rw [step, every] at saved
  exact ⟨project, first, compiled, ready, _, rfl, step, x, answer, series, found, saved⟩

end Simulation
end StockFlow
