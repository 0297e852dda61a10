import StockFlow.Proofs.Calls
import StockFlow.Proofs.Catalog
import StockFlow.Proofs.Integration

/-!
# Constants that are set

A value that is set before the first step stays if nothing computes its slot afterwards. The slot of a
constant is such a slot: it is computed at the start and not again, and takes no part in writing the next
row. A stock is not, also where its equation is a constant, since that is only its initial value.
-/

namespace StockFlow

variable {α : Type} [Scalar α]

theorem Row.getElem?_eq_some_iff {row : Row α} {slot : Nat} {x : α} :
    row[slot]? = some x ↔ slot < row.size ∧ row.get slot = x := by
  constructor
  · intro found
    obtain ⟨inside, -⟩ := Array.getElem?_eq_some_iff.mp found
    refine ⟨inside, ?_⟩
    rw [get, Array.getD_eq_getD_getElem?, found]
    rfl
  · rintro ⟨inside, rfl⟩
    rw [get, Array.getD_eq_getD_getElem?, Array.getElem?_eq_getElem inside]
    rfl

namespace Plan

/-- Whether a step leaves a slot alone. -/
structure Spares (plan : Plan α) (slot : Nat) : Prop where
  late : slot ≠ timeSlot
  flows : slot ∉ written (plan.program .flows)
  stocks : slot ∉ written (plan.program .stocks)

variable {plan : Plan α} {row : Row α} {slot : Nat} {x : α}

namespace Spares

variable (spares : plan.Spares slot) (here : row[slot]? = some x)
include spares here

theorem settle : (plan.settle row)[slot]? = some x := by
  obtain ⟨inside, value⟩ := Row.getElem?_eq_some_iff.mp here
  refine Row.getElem?_eq_some_iff.mpr ⟨by rwa [size_settle], ?_⟩
  rw [Plan.settle, Row.get_assign_of_notMem spares.flows, value]

theorem nextRow : (plan.nextRow row)[slot]? = some x := by
  obtain ⟨inside, value⟩ := Row.getElem?_eq_some_iff.mp here
  refine Row.getElem?_eq_some_iff.mpr ⟨by rwa [size_nextRow], ?_⟩
  rw [get_nextRow_of_notMem spares.late spares.stocks, value]

end Spares

variable {project : Project α} {path : List Name} {node : Coded α} {model : LinkedModel α}
  {formula : Formula α}

/-- The slot of a constant without a table that is no input is left alone. -/
theorem exists_spares_of_constant (consistent : project.Consistent)
    (planned : ofProject project = .ok plan) (leads : plan.root.descend? path = some node)
    (found : project.find? node.model = some model) (member : .formula formula ∈ model.vars)
    (constant : formula.equation.isConstant = true) (plain : formula.table? = none)
    (unconnected : node.note.inputs.get? formula.name = none) :
    ∃ slot, node.slots.get? formula.name = some slot ∧ slot < plan.size ∧ plan.Spares slot := by
  have held : (Variable.formula formula).isHeld = true := by simp [Variable.isHeld, constant, plain]
  obtain ⟨slot, own⟩ := exists_get? consistent planned leads found member rfl
  obtain ⟨late, inside⟩ := lt_size_of_own consistent planned leads own
  exact ⟨slot, own, inside, Nat.ne_of_gt late,
    notMem_flows_of_held consistent planned leads found member unconnected own held,
    notMem_integrated_of_own consistent planned leads found member own rfl⟩

end Plan

/-! ## Runs -/

namespace Simulation

/-- Whether a run has one value in a slot of its present row and of all rows that it has finished. -/
structure Carries (slot : Nat) (x : α) (run : Simulation α) : Prop where
  present : run.present[slot]? = some x
  finished : ∀ row ∈ run.history, row[slot]? = some x

variable {plan : Plan α} {run : Simulation α} {slot : Nat} {x : α}

namespace Carries

section

variable (carries : run.Carries slot x) (spares : run.plan.Spares slot)
include carries spares

theorem settle : run.settle.Carries slot x := ⟨spares.settle carries.present, carries.finished⟩

theorem advance : run.advance.Carries slot x := by
  have settled := spares.settle carries.present
  refine ⟨spares.nextRow settled, fun row member => ?_⟩
  rcases mem_history_advance member with earlier | rfl
  · exact carries.finished row earlier
  · exact settled

theorem advanceUntil (past : α → Bool) (steps : Nat) :
    (run.advanceUntil past steps).Carries slot x ∧ (run.advanceUntil past steps).plan = run.plan := by
  induction steps generalizing run with
  | zero => exact ⟨carries, rfl⟩
  | succ steps ih =>
    rw [Simulation.advanceUntil]
    split
    · exact ⟨carries, rfl⟩
    · exact ih (carries.advance spares) spares

theorem runUntil (past : α → Bool) : (run.runUntil past).Carries slot x := by
  obtain ⟨still, same⟩ := carries.advanceUntil spares past (run.plan.clock.steps - run.step)
  rw [← same] at spares
  exact still.settle spares

theorem after {calls : List (Call α)} (kept : .reset ∉ calls)
    (unset : ∀ name value, .set name value ∉ calls) : (run.after calls).Carries slot x := by
  induction calls generalizing run with
  | nil => exact carries
  | cons call rest ih =>
    simp only [List.mem_cons, not_or] at kept unset
    have same : (run.call call).plan = run.plan := (reaches_call (Ne.symm kept.1)).plan_eq
    have next : (run.call call).Carries slot x := by
      cases call with
      | reset => exact absurd rfl kept.1
      | runTo stop => exact carries.runUntil spares _
      | runToEnd => exact carries.runUntil spares _
      | set name value => exact absurd rfl (unset name value).1
    exact ih next (same ▸ spares) kept.2 fun name value => (unset name value).2

end

variable (carries : run.Carries slot x)
include carries

theorem dueRow : run.dueRow[slot]? = some x := by
  unfold Simulation.dueRow
  cases finished : run.history[run.completeRows]? with
  | none => exact carries.present
  | some row => exact carries.finished row (Array.mem_of_getElem? finished)

theorem savedHistory : ∀ row ∈ run.savedHistory, row[slot]? = some x := fun row saved =>
  carries.finished row (Array.mem_toList_iff.mp (List.mem_of_mem_take saved))

theorem value? {name : Path} (leads : run.plan.slot? name = some slot) : run.value? name = some x := by
  rw [Simulation.value?, leads, Option.map_some, (Row.getElem?_eq_some_iff.mp carries.dueRow).2]

theorem series? (recorded : run.IsRecorded) {name : Path} (leads : run.plan.slot? name = some slot) :
    ∃ series, run.series? name = some series ∧ series.values = List.replicate run.completeRows x := by
  refine ⟨_, by rw [Simulation.series?, leads, Option.map_some], ?_⟩
  rw [List.eq_replicate_iff, List.length_map, length_savedHistory recorded]
  refine ⟨rfl, fun y member => ?_⟩
  obtain ⟨row, saved, rfl⟩ := List.mem_map.mp member
  exact (Row.getElem?_eq_some_iff.mp (carries.savedHistory row saved)).2

end Carries

/-- A value that is set on a fresh run. -/
theorem exists_set_start {name : Path} (leads : plan.slot? name = some slot) (inside : slot < plan.size) :
    ∃ run, (start plan).set name x = .ok run ∧ run.plan = plan ∧ run.Carries slot x ∧ run.IsRecorded := by
  refine ⟨{ start plan with present := plan.initialRow.setIfInBounds slot x }, ?_, rfl, ⟨?_, ?_⟩, ?_⟩
  · simp [set, start, leads]
  · have within : slot < plan.initialRow.size := by rwa [Plan.size_initialRow]
    exact Array.getElem?_setIfInBounds_self_of_lt within
  · exact fun row member => absurd member (Array.not_mem_empty row)
  · exact isRecorded_start plan

/-- A constant that is set on a fresh run stays set until the run is reset: its slot, where the main model
or any instance below has one, holds the value in all complete rows, and every name that leads there answers
with it. -/
theorem constant_stays_set {document : Document.Project α} {project : Project α} {first : Simulation α}
    (compiled : Project.compile document = .ok project) (ready : ofProject project = .ok first)
    {path : List Name} {node : Coded α} {model : LinkedModel α} {formula : Formula α}
    (leads : first.plan.root.descend? path = some node) (found : project.find? node.model = some model)
    (member : .formula formula ∈ model.vars) (constant : formula.equation.isConstant = true)
    (plain : formula.table? = none) (unconnected : node.note.inputs.get? formula.name = none) :
    ∃ slot, node.slots.get? formula.name = some slot ∧
      ∀ calls name x, first.plan.slot? name = some slot →
        ∃ run, (first.after calls).reset.set name x = .ok run ∧
          ∀ later, .reset ∉ later → (∀ name value, .set name value ∉ later) →
            (∀ row ∈ (run.after later).savedHistory, row[slot]? = some x) ∧
              ∀ other, first.plan.slot? other = some slot →
                (run.after later).value? other = some x ∧
                  ∃ series, (run.after later).series? other = some series ∧
                    series.values = List.replicate (run.after later).completeRows x := by
  obtain ⟨plan, planned, rfl⟩ := ofProject_eq_ok.mp ready
  obtain ⟨slot, own, inside, spares⟩ := Plan.exists_spares_of_constant
    (Project.consistent_of_compile compiled) planned leads found member constant plain unconnected
  refine ⟨slot, own, fun calls name x resolves => ?_⟩
  have anew : ((start plan).after calls).reset = start plan := by
    rw [reset, plan_after]
    rfl
  rw [anew]
  obtain ⟨run, done, same, carries, recorded⟩ := exists_set_start resolves inside
  refine ⟨run, done, fun later kept unset => ?_⟩
  have still : (run.after later).Carries slot x := carries.after (same ▸ spares) kept unset
  have plan_eq : (run.after later).plan = plan := plan_after.trans same
  have recorded : (run.after later).IsRecorded :=
    (reaches_after kept).keeps (fun _ _ moves => moves.isRecorded) recorded
  refine ⟨still.savedHistory, fun other resolves => ?_⟩
  rw [← plan_eq] at resolves
  exact ⟨still.value? resolves, still.series? recorded resolves⟩

/-- A stock in a module that a constant flow fills, with every other row saved. -/
def filled : Document.Project Float :=
  ⟨"", ⟨0, 4, 1, some 2⟩, [
    ⟨"main", none, [
      .auxiliary ⟨"copy", "", some (.reference "m.level"), none⟩,
      .module ⟨"m", "tank", []⟩]⟩,
    ⟨"tank", none, [
      .stock ⟨"level", "10", none, ["rate"], [], false⟩,
      .flow ⟨"rate", "", some (.unary .negative (.group (.constant "1" 1))), none, false⟩]⟩]⟩

/-- A run that stops once: the flow is two in all three rows. -/
theorem constant_stays_set_filled : ∃ project first, Project.compile filled = .ok project ∧
    ofProject project = .ok first ∧ ∃ run, (first.after [.runToEnd]).reset.set "m.rate" 2 = .ok run ∧
      (run.after [.runTo 1, .runToEnd]).value? "m.rate" = some 2 ∧
        ∃ series, (run.after [.runTo 1, .runToEnd]).series? "m.rate" = some series ∧
          series.values = [2, 2, 2] := by
  have check : ∃ project ∈ (Project.compile filled).toOption, ∃ first ∈ (ofProject project).toOption,
      ∃ node ∈ first.plan.root.descend? ["m"], ∃ model ∈ project.find? node.model,
        ∃ v ∈ model.vars, v.name = "rate" ∧ v.table?.isNone = true ∧
          (∃ equation ∈ v.equation?, equation.isConstant = true) ∧
          (node.note.inputs.get? v.name).isNone = true ∧ v.isStock = false ∧
          node.slots.get? v.name = first.plan.slot? "m.rate" ∧
          ∃ run ∈ ((first.after [.runToEnd]).reset.set "m.rate" 2).toOption,
            (run.after [.runTo 1, .runToEnd]).completeRows = 3 := by
    rw [Project.compile_eq]
    decide +kernel
  obtain ⟨project, compiled, first, ready, node, leads, model, found, v, member, named, plain, constant,
    unconnected, computed, own, run, set, rows⟩ := check
  have compiled := toOption_eq_some.mp compiled
  have ready := toOption_eq_some.mp ready
  have set := toOption_eq_some.mp set
  cases v with
  | stock => cases computed
  | module => obtain ⟨_, none, -⟩ := constant; cases none
  | formula formula =>
    obtain ⟨_, same, constant⟩ := constant
    cases same
    obtain ⟨slot, here, stays⟩ := constant_stays_set compiled ready leads found member constant
      (Option.isNone_iff_eq_none.mp plain) (Option.isNone_iff_eq_none.mp unconnected)
    have resolves : first.plan.slot? "m.rate" = some slot := own.symm.trans here
    obtain ⟨other, set', after⟩ := stays [.runToEnd] "m.rate" 2 resolves
    cases set.symm.trans set'
    obtain ⟨-, answers⟩ := after [.runTo 1, .runToEnd] (by simp) (by simp)
    obtain ⟨value, series, asked, values⟩ := answers "m.rate" resolves
    rw [rows] at values
    exact ⟨project, first, compiled, ready, run, set, value, series, asked, values⟩

/-- A stock whose equation is a constant does not stay set: it moves by its net flow from what it was set
to. -/
theorem set_stock_moves : ∃ project first, Project.compile filled = .ok project ∧
    ofProject project = .ok first ∧
      (∃ node model v, first.plan.root.descend? ["m"] = some node ∧
        project.find? node.model = some model ∧ v ∈ model.vars ∧
        (∃ equation, v.equation? = some equation ∧ equation.isConstant = true) ∧ v.table? = none ∧
        node.note.inputs.get? v.name = none ∧ node.slots.get? v.name = first.plan.slot? "m.level") ∧
      ∃ run, first.reset.set "m.level" 5 = .ok run ∧
        ∃ series, run.runToEnd.series? "m.level" = some series ∧
          series.values ≠ List.replicate run.runToEnd.completeRows 5 := by
  have check : ∃ project ∈ (Project.compile filled).toOption, ∃ first ∈ (ofProject project).toOption,
      (∃ node ∈ first.plan.root.descend? ["m"], ∃ model ∈ project.find? node.model,
        ∃ v ∈ model.vars, (∃ equation ∈ v.equation?, equation.isConstant = true) ∧
          v.table?.isNone = true ∧ (node.note.inputs.get? v.name).isNone = true ∧
          node.slots.get? v.name = first.plan.slot? "m.level") ∧
      ∃ run ∈ (first.reset.set "m.level" 5).toOption, ∃ series ∈ run.runToEnd.series? "m.level",
        series.values.map Float.toBits ≠
          (List.replicate run.runToEnd.completeRows (5 : Float)).map Float.toBits := by
    rw [Project.compile_eq]
    decide +kernel
  obtain ⟨project, compiled, first, ready, ⟨node, leads, model, found, v, member, constant, plain,
    unconnected, own⟩, run, set, series, asked, moved⟩ := check
  exact ⟨project, first, toOption_eq_some.mp compiled, toOption_eq_some.mp ready,
    ⟨node, model, v, leads, found, member, constant, Option.isNone_iff_eq_none.mp plain,
      Option.isNone_iff_eq_none.mp unconnected, own⟩,
    run, toOption_eq_some.mp set, series, asked, fun same => moved (congrArg _ same)⟩

end Simulation
end StockFlow
