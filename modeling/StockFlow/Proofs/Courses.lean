import StockFlow.Proofs.Euler
import StockFlow.Proofs.Mirroring
import StockFlow.Proofs.Queries

/-!
# The courses of variables

The values of a variable in the settled rows of a run, one for each step. An input takes the value of
its source, and any other flow or auxiliary variable that of its equation, in the same row. A stock
begins with its initial value and moves from row to row by its net flow.
-/

namespace StockFlow

variable {α : Type} [Scalar α]

namespace Plan

/-- The value of a slot in the settled row of a step. -/
def course (plan : Plan α) (slot step : Nat) : α := (plan.settledAt step).get slot

end Plan

theorem Scope.value_of_isConstant {scope : Scope α} {row other : Row α} {equation : Equation α}
    (constant : equation.isConstant = true) : scope.value row equation = scope.value other equation := by
  fun_induction Equation.isConstant equation with
  | case1 => rfl
  | case2 inner ih => simpa only [value] using ih constant
  | case3 operator operand ih => simp only [value, ih constant]
  | case4 => cases constant

namespace Plan.IsSound

variable {project : Project α} {plan : Plan α} (sound : plan.IsSound project)
include sound

theorem settledAt_zero : plan.settledAt 0 = plan.initialRow :=
  settle_initialRow sound.consistent sound.planned sound.plain sound.outward

theorem satisfies_settledAt (step : Nat) :
    (plan.settledAt step).Satisfies plan.clock.dt (plan.program .flows) :=
  sound.settle_satisfies (size_rowAt plan step)

variable {path : List Name} {node : Coded α} {model : LinkedModel α} {slot : Nat}
  (leads : plan.root.descend? path = some node) (found : project.find? node.model = some model)
include leads found

theorem course_input {v : Variable α} {source : Option Nat} (member : v ∈ model.vars)
    (own : node.slots.get? v.name = some slot) (connected : node.note.inputs.get? v.name = some source)
    (step : Nat) : plan.course slot step =
      (Scope.loadSlot source).value plan.clock.dt (plan.settledAt step) :=
  sound.satisfies_settledAt step ⟨slot, Scope.loadSlot source⟩
    (sound.mem_program_of_connected leads found member own (by decide) connected)

section

variable {formula : Formula α} (member : .formula formula ∈ model.vars)
  (unconnected : node.note.inputs.get? formula.name = none)
  (own : node.slots.get? formula.name = some slot)
include member unconnected own

theorem course_held_succ (held : (Variable.formula formula).isHeld = true) (step : Nat) :
    plan.course slot (step + 1) = plan.course slot step := by
  obtain ⟨term, among, -⟩ := sound.exists_term leads found member unconnected own
    (by decide : Phase.initials ≠ .stocks) (by simp [Variable.isDue]) rfl
  have late : slot ≠ timeSlot := Nat.ne_of_gt
    (lt_size_of_written sound.consistent sound.planned (by decide) slot (List.mem_map_of_mem among)).1
  have kept : plan.course slot (step + 1) = (plan.rowAt (step + 1)).get slot :=
    Row.get_assign_of_notMem (sound.notMem_flows leads found member unconnected own held)
  rw [kept, rowAt, get_nextRow_of_notMem late (sound.notMem_stocks leads found member own rfl)]
  rfl

/-- In each settled row a formula that is no input has the value of its equation. -/
theorem course_formula (step : Nat) : plan.course slot step =
    (node.scope model plan.clock formula.name).formulaValue (plan.settledAt step) formula := by
  cases held : (Variable.formula formula).isHeld with
  | false =>
    exact sound.get_formula leads found member unconnected own (by decide : Phase.flows ≠ .stocks)
      (by simp [Variable.isDue, held]) (sound.satisfies_settledAt step)
  | true =>
    -- a constant has its value from the start, in which it is computed
    induction step with
    | zero =>
      rw [course, sound.settledAt_zero]
      exact sound.get_formula leads found member unconnected own
        (by decide : Phase.initials ≠ .stocks) (by simp [Variable.isDue]) sound.initialRow_satisfies
    | succ step ih =>
      obtain ⟨plain, constant⟩ := Bool.and_eq_true_iff.mp held
      rw [sound.course_held_succ leads found member unconnected own held, ih, Scope.formulaValue,
        Scope.formulaValue, Scope.value_of_isConstant constant]

end

variable {stock : Stock α} (member : .stock stock ∈ model.vars)
  (unconnected : node.note.inputs.get? stock.name = none)
  (own : node.slots.get? stock.name = some slot)
include member unconnected own

theorem course_stock_zero : plan.course slot 0 =
    (node.scope model plan.clock stock.name).value (plan.settledAt 0) stock.initial := by
  rw [course, sound.settledAt_zero]
  exact sound.get_stock leads found member unconnected own sound.initialRow_satisfies

theorem course_stock_succ (step : Nat) : plan.course slot (step + 1) =
    (node.scope model plan.clock stock.name).nextValue (plan.settledAt step)
      (plan.course slot step) stock := by
  obtain ⟨slot', own', moves⟩ := get_nextRow_stock sound.consistent sound.planned
    (size_settledAt plan step) leads found member unconnected
  obtain rfl := Option.some.inj (own.symm.trans own')
  have kept : plan.course slot (step + 1) = (plan.rowAt (step + 1)).get slot :=
    Row.get_assign_of_notMem (sound.notMem_flows leads found member unconnected own rfl)
  rw [kept, rowAt]
  exact moves

end Plan.IsSound
end StockFlow
