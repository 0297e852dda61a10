import StockFlow.Proofs.Calls
import StockFlow.Proofs.Catalog
import StockFlow.Proofs.Integration
import StockFlow.Proofs.Lowering

/-!
# Euler steps

Each step of a run moves all stocks at once by their net flows over the step, as they are in the row
whose flows have just been computed. No stock reads another one that has already moved, so the order in
which the stocks phase takes stocks and modules does not matter.
-/

namespace StockFlow

variable {α : Type} [Scalar α]

/-- Assignments at one go into different slots may be made in any order. -/
theorem Row.advance_perm {dt : α} {row : Row α} {program other : List (Assignment α)}
    (perm : other.Perm program) (distinct : (written program).Nodup) :
    Row.advance dt row other = Row.advance dt row program := by
  have apart : ∀ a ∈ other, ∀ b ∈ other, a ≠ b → a.slot ≠ b.slot := by
    intro a one b two differ same
    have slots : (other.map Assignment.slot).Nodup := (perm.map _).nodup_iff.mpr distinct
    exact differ (List.inj_on_of_nodup_map slots one two same)
  unfold Row.advance
  apply perm.foldl_eq'
  intro a one b two next
  by_cases same : a = b
  · rw [same]
  · exact (Array.setIfInBounds_comm _ _ (apart a one b two same))

namespace Plan

/-- Whether a slot is that of a stock, in one of the instances of a plan, that is no input. -/
def Integrates (project : Project α) (plan : Plan α) (slot : Nat) : Prop :=
  ∃ (path : List Name) (node : Coded α) (model : LinkedModel α) (stock : Stock α),
    plan.root.descend? path = some node ∧ project.find? node.model = some model ∧
      .stock stock ∈ model.vars ∧ node.note.inputs.get? stock.name = none ∧
      node.slots.get? stock.name = some slot

variable {project : Project α} {plan : Plan α} {slot : Nat} (consistent : project.Consistent)
  (planned : ofProject project = .ok plan)
include consistent planned

theorem integrates_iff : plan.Integrates project slot ↔ slot ∈ written (plan.program .stocks) := by
  obtain ⟨made, -⟩ := made_of_ofProject consistent planned
  rw [plan.program_eq, written, List.mem_map]
  constructor
  · rintro ⟨path, node, model, stock, leads, found, declared, unconnected, own⟩
    exact ⟨_, (made.mem_integrated consistent).mpr
      ⟨path, node, model, stock, slot, leads, found, declared, unconnected, own, rfl⟩, rfl⟩
  · rintro ⟨a, member, rfl⟩
    obtain ⟨path, node, model, stock, slot, leads, found, declared, unconnected, own, rfl⟩ :=
      (made.mem_integrated consistent).mp member
    exact ⟨path, node, model, stock, leads, found, declared, unconnected, own⟩

/-- A stock that is no input moves by its net flow. -/
theorem get_nextRow_stock {row : Row α} (size : row.size = plan.size) {path : List Name}
    {node : Coded α} {model : LinkedModel α} {stock : Stock α}
    (leads : plan.root.descend? path = some node) (found : project.find? node.model = some model)
    (declared : .stock stock ∈ model.vars) (unconnected : node.note.inputs.get? stock.name = none) :
    ∃ slot, node.slots.get? stock.name = some slot ∧ (plan.nextRow row).get slot =
      (node.scope model plan.clock stock.name).nextValue row (row.get slot) stock := by
  obtain ⟨made, -⟩ := made_of_ofProject consistent planned
  obtain ⟨slot, own⟩ := exists_get? consistent planned leads found declared rfl
  let scope := node.scope model plan.clock stock.name
  have member : ⟨slot, scope.stockUpdate slot stock⟩ ∈ plan.program .stocks := by
    rw [plan.program_eq]
    exact (made.mem_integrated consistent).mpr
      ⟨path, node, model, stock, slot, leads, found, declared, unconnected, own, rfl⟩
  refine ⟨slot, own, (get_nextRow consistent planned size _ member).trans ?_⟩
  exact scope.value_stockUpdate row slot stock

end Plan

namespace Simulation

theorem isWhole_after (plan : Plan α) (calls : List (Call α)) : ((start plan).after calls).IsWhole :=
  after_induction (IsWhole.start plan) (fun _ _ moves => moves.isWhole) calls

theorem IsWhole.advanceUntil {run : Simulation α} (whole : run.IsWhole) (past : α → Bool) (steps : Nat) :
    (run.advanceUntil past steps).IsWhole ∧ (run.advanceUntil past steps).plan = run.plan := by
  induction steps generalizing run with
  | zero => exact ⟨whole, rfl⟩
  | succ steps ih =>
    rw [Simulation.advanceUntil]
    split
    · exact ⟨whole, rfl⟩
    · exact ih whole.advance

/-- The row that a step of a run writes, wherever the run is after some calls and some steps of the next
one: the time has moved by a step, each stock that is no input by its net flow, and nothing else. -/
theorem euler_step {document : Document.Project α} {project : Project α} {first : Simulation α}
    (compiled : Project.compile document = .ok project) (ready : ofProject project = .ok first)
    (calls : List (Call α)) (past : α → Bool) (steps : Nat) :
    let run := (first.after calls).advanceUntil past steps
    let row := run.plan.settle run.present
    let next := run.advance.present
    next.size = row.size ∧ next.time = row.time + run.plan.clock.dt ∧
      (∀ path (node : Coded α) model stock, run.plan.root.descend? path = some node →
        project.find? node.model = some model → .stock stock ∈ model.vars →
        node.note.inputs.get? stock.name = none → ∃ slot, node.slots.get? stock.name = some slot ∧
          next.get slot =
            (node.scope model run.plan.clock stock.name).nextValue row (row.get slot) stock) ∧
      (∀ slot, slot ≠ timeSlot → ¬ run.plan.Integrates project slot → next.get slot = row.get slot) ∧
      ∀ program, program.Perm (run.plan.program .stocks) →
        Row.advance run.plan.clock.dt row program =
          Row.advance run.plan.clock.dt row (run.plan.program .stocks) := by
  have consistent := Project.consistent_of_compile compiled
  obtain ⟨plan, planned, rfl⟩ := ofProject_eq_ok.mp ready
  intro run row next
  obtain ⟨whole, same⟩ := (isWhole_after plan calls).advanceUntil past steps
  have plan_eq : run.plan = plan := same.trans plan_after
  have size : row.size = plan.size := by
    rw [← plan_eq]
    exact whole.settle
  have next_eq : next = plan.nextRow row := by
    show run.plan.nextRow row = plan.nextRow row
    rw [plan_eq]
  rw [plan_eq, next_eq]
  refine ⟨Plan.size_nextRow plan row, Plan.time_nextRow consistent planned size, ?_, ?_, ?_⟩
  · intro path node model stock leads found declared unconnected
    exact Plan.get_nextRow_stock consistent planned size leads found declared unconnected
  · intro slot late idle
    exact Plan.get_nextRow_of_notMem late fun member =>
      idle ((Plan.integrates_iff consistent planned).mpr member)
  · -- no two updates are of the same slot, and all of them read the settled row
    intro program perm
    obtain ⟨made, -⟩ := Plan.made_of_ofProject consistent planned
    apply Row.advance_perm perm
    rw [plan.program_eq]
    exact made.nodup_integrated consistent

theorem euler_step_nested : ∃ project first, Project.compile Plan.nested = .ok project ∧
    ofProject project = .ok first ∧
      let run := (first.after [.set "a" 2, .runTo 0]).advanceUntil (fun _ => false) 1
      let row := run.plan.settle run.present
      ∃ (node : Coded Float) (model : LinkedModel Float) (stock : Stock Float) (slot : Nat),
        run.plan.root.descend? ["m"] = some node ∧ project.find? node.model = some model ∧
        .stock stock ∈ model.vars ∧ run.advance.present.time = row.time + run.plan.clock.dt ∧
        run.advance.present.get slot =
          (node.scope model run.plan.clock stock.name).nextValue row (row.get slot) stock := by
  have check : ∃ project ∈ (Project.compile Plan.nested).toOption,
      ∃ first ∈ (ofProject project).toOption,
        ∃ node ∈ ((first.after [.set "a" 2, .runTo 0]).advanceUntil
          (fun _ => false) 1).plan.root.descend? ["m"],
        ∃ model ∈ project.find? node.model, ∃ v ∈ model.vars,
          v.isStock = true ∧ (node.note.inputs.get? v.name).isNone = true := by
    rw [Project.compile_eq]
    decide +kernel
  obtain ⟨project, compiled, first, ready, node, leads, model, found, v, member, isStock,
    unconnected⟩ := check
  have compiled := toOption_eq_some.mp compiled
  have ready := toOption_eq_some.mp ready
  obtain ⟨-, time, moves, -⟩ :=
    euler_step compiled ready [.set "a" 2, .runTo 0] (fun _ => false) 1
  cases v with
  | stock stock =>
    obtain ⟨slot, -, moved⟩ :=
      moves ["m"] node model stock leads found member (Option.isNone_iff_eq_none.mp unconnected)
    exact ⟨project, first, compiled, ready, node, model, stock, slot, leads, found, member, time, moved⟩
  | formula => cases isStock
  | module => cases isStock

end Simulation
end StockFlow
