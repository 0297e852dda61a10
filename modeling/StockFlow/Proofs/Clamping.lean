import StockFlow.Proofs.Catalog
import StockFlow.Proofs.Comparing
import StockFlow.Proofs.Persisting

/-!
# Values that do not fall below zero

The equation of a non-negative flow and the update of a non-negative stock are lowered to the larger of
themselves and zero. Nothing else is ever assigned to their slots, so after the start all their values are
zero or above it, whatever the equations come to: where a number does not compare, zero is chosen.
-/

namespace StockFlow

variable {α : Type} [Scalar α]

/-! ## Terms that are kept from falling below zero -/

/-- Whether a number is zero or compares greater than zero. -/
def Scalar.IsNonNegative (x : α) : Prop :=
  Scalar.isUndefined x = false ∧ (x = Scalar.zero ∨ Scalar.lt Scalar.zero x = true)

theorem Scalar.isNonNegative_maximum [Scalar.Ordered α] (x : α) :
    Scalar.IsNonNegative (Scalar.maximum x Scalar.zero) := by
  unfold maximum
  split
  · rename_i above
    exact ⟨(defined_of_lt above).2, .inr above⟩
  · exact ⟨Ordered.defined_zero, .inl rfl⟩

/-- Whether a term is the larger of another one and zero. -/
def Term.IsClamped (term : Term α) : Prop := ∃ inner : Term α, term = inner.nonNegative

theorem Term.IsClamped.isNonNegative [Scalar.Ordered α] {term : Term α} (clamped : term.IsClamped) (dt : α)
    (row : Row α) : Scalar.IsNonNegative (term.value dt row) := by
  obtain ⟨inner, rfl⟩ := clamped
  exact Scalar.isNonNegative_maximum _

/-- Whether a variable is kept from falling below zero where it is no input. -/
def Variable.isClamped : Variable α → Bool
  | stock s => s.nonNegative
  | formula f => f.isFlow && f.nonNegative
  | module _ => false

namespace Scope

variable {scope : Scope α}

theorem isClamped_stockUpdate {stock : Stock α} (clamped : stock.nonNegative = true) (slot : Nat) :
    (scope.stockUpdate slot stock).IsClamped :=
  ⟨_, if_pos clamped⟩

theorem isClamped_formulaTerm {formula : Formula α} {term : Term α}
    (clamped : (formula.isFlow && formula.nonNegative) = true)
    (lowered : scope.formulaTerm formula = .ok term) : term.IsClamped := by
  simp only [formulaTerm, clamped, if_true, bind_eq_ok, pure_eq_ok] at lowered
  obtain ⟨inner, -, rfl⟩ := lowered
  exact ⟨_, rfl⟩

end Scope

/-- Whatever a program assigns to a slot, and what the slot holds if nothing is assigned, has a property. -/
theorem Row.holds_assign {dt : α} {row : Row α} {program : List (Assignment α)} {slot : Nat}
    {holds : α → Prop} (inside : slot < row.size)
    (writes : ∀ a ∈ program, a.slot = slot → ∀ row : Row α, holds (a.term.value dt row))
    (begins : slot ∈ written program ∨ holds (row.get slot)) : holds ((assign dt row program).get slot) := by
  induction program generalizing row with
  | nil => exact begins.resolve_left List.not_mem_nil
  | cons a rest ih =>
    obtain ⟨here, others⟩ := List.forall_mem_cons.mp writes
    rw [assign_cons]
    refine ih (by rwa [Array.size_setIfInBounds]) others ?_
    by_cases own : a.slot = slot
    · right
      rw [get_setIfInBounds (own ▸ inside), if_pos own]
      exact here own row
    · rw [get_setIfInBounds_ne own]
      exact begins.imp_left fun listed => (List.mem_cons.mp listed).resolve_left (Ne.symm own)

/-! ## Slots that are kept from falling below zero -/

namespace Plan

/-- Whether all that is computed for a slot after the start is kept from falling below zero. -/
structure Guards (plan : Plan α) (slot : Nat) : Prop where
  late : slot ≠ timeSlot
  inside : slot < plan.size
  clamped : ∀ phase, phase ≠ .initials → ∀ a ∈ plan.program phase, a.slot = slot → a.term.IsClamped

section

variable {project : Project α} {plan : Plan α} (consistent : project.Consistent)
  (planned : ofProject project = .ok plan) {path : List Name} {node : Coded α} {model : LinkedModel α}
  {v : Variable α} (leads : plan.root.descend? path = some node)
  (found : project.find? node.model = some model) (member : v ∈ model.vars)
  (unconnected : node.note.inputs.get? v.name = none) (clamped : v.isClamped = true)
include consistent planned leads found member unconnected clamped

/-- All that is computed for a clamped variable that is no input is clamped, but for the initial value of a
stock. -/
theorem isClamped_of_own {slot : Nat} (own : node.slots.get? v.name = some slot) {phase : Phase}
    (late : phase = .initials → v.isStock = false) {a : Assignment α} (among : a ∈ plan.program phase)
    (same : a.slot = slot) : a.term.IsClamped := by
  subst same
  by_cases integrating : phase = .stocks
  · subst integrating
    obtain ⟨stock, rfl, -, term⟩ := exists_stock_of_own consistent planned leads found member among own
    rw [term]
    exact Scope.isClamped_stockUpdate clamped _
  · obtain ⟨-, computes⟩ := computes_of_own consistent planned leads found member integrating among own
    cases v with
    | module => cases clamped
    | stock =>
      cases computes with
      | input connected => cases connected.symm.trans unconnected
      | stock start => cases late start
    | formula =>
      cases computes with
      | input connected => cases connected.symm.trans unconnected
      | formula _ _ lowered => exact Scope.isClamped_formulaTerm clamped lowered

/-- The slot of a clamped variable that is no input is guarded. Each step computes that of a stock anew; that
of a flow holds no value below zero from the start. -/
theorem exists_guards [Scalar.Ordered α] : ∃ slot, node.slots.get? v.name = some slot ∧
    plan.Guards slot ∧ (v.isStock = true → slot ∈ written (plan.program .stocks)) ∧
      (v.isStock = false → Scalar.IsNonNegative (plan.initialRow.get slot)) := by
  have owns := fun slot own => @isClamped_of_own _ _ project plan consistent planned path node model v leads
    found member unconnected clamped slot own
  obtain ⟨made, -⟩ := made_of_ofProject consistent planned
  have part : v.isModule = false := by
    cases v with
    | stock | formula => rfl
    | module => cases clamped
  obtain ⟨slot, own⟩ := exists_get? consistent planned leads found member part
  obtain ⟨late, inside⟩ := lt_size_of_own consistent planned leads own
  refine ⟨slot, own, ⟨Nat.ne_of_gt late, inside, fun phase after a among same =>
    owns slot own (fun start => absurd start after) among same⟩, fun isStock => ?_, fun computed => ?_⟩
  · cases v with
    | formula | module => cases isStock
    | stock stock =>
      rw [plan.program_eq]
      exact List.mem_map.mpr ⟨_, (made.mem_integrated consistent).mpr
        ⟨path, node, model, stock, slot, leads, found, member, unconnected, own, rfl⟩, rfl⟩
  · have assigned := mem_written_initials consistent planned inside (Nat.ne_of_gt late)
    refine Row.holds_assign ?_ (fun a among same row =>
      (owns slot own (fun _ => computed) among same).isNonNegative _ row) (.inl assigned)
    rwa [Array.size_setIfInBounds, Array.size_replicate]

end

namespace Guards

variable [Scalar.Ordered α] {project : Project α} {plan : Plan α} {slot : Nat} {row : Row α}
  (guards : plan.Guards slot) (size : row.size = plan.size)
include guards size

theorem settle (here : Scalar.IsNonNegative (row.get slot)) :
    Scalar.IsNonNegative ((plan.settle row).get slot) :=
  Row.holds_assign (size ▸ guards.inside)
    (fun a among same row => (guards.clamped .flows (by decide) a among same).isNonNegative _ row) (.inr here)

theorem nextRow (consistent : project.Consistent) (planned : ofProject project = .ok plan)
    (here : slot ∈ written (plan.program .stocks) ∨ Scalar.IsNonNegative (row.get slot)) :
    Scalar.IsNonNegative ((plan.nextRow row).get slot) := by
  by_cases integrating : slot ∈ written (plan.program .stocks)
  · obtain ⟨a, among, rfl⟩ := List.mem_map.mp integrating
    rw [get_nextRow consistent planned size a among]
    exact (guards.clamped .stocks (by decide) a among rfl).isNonNegative _ row
  · rw [get_nextRow_of_notMem guards.late integrating]
    exact here.resolve_left integrating

end Guards
end Plan

/-! ## Runs -/

namespace Simulation

/-- Whether a run has no value below zero in a slot from a saved row on. -/
structure Sustains (slot first : Nat) (run : Simulation α) : Prop where
  few : run.history.size ≤ run.step
  present : first ≤ run.step → Scalar.IsNonNegative (run.present.get slot)
  finished : ∀ i row, run.history[i]? = some row → first ≤ i → Scalar.IsNonNegative (row.get slot)

namespace Sustains

variable [Scalar.Ordered α] {run : Simulation α} {slot first : Nat} (sustains : run.Sustains slot first)
  (guards : run.plan.Guards slot) (whole : run.IsWhole)
include sustains guards whole

theorem settle : run.settle.Sustains slot first :=
  ⟨sustains.few, fun begun => guards.settle whole (sustains.present begun), sustains.finished⟩

theorem advance {project : Project α} (consistent : project.Consistent)
    (planned : Plan.ofProject project = .ok run.plan)
    (renewed : slot ∈ written (run.plan.program .stocks) ∨ first = 0) : run.advance.Sustains slot first := by
  have settled : first ≤ run.step → Scalar.IsNonNegative ((run.plan.settle run.present).get slot) :=
    fun begun => guards.settle whole (sustains.present begun)
  refine ⟨?_, fun _ => ?_, fun i row found begun => ?_⟩
  · have few := sustains.few
    show run.advance.history.size ≤ run.step + 1
    rw [size_history_advance]
    split <;> omega
  · have size : (run.plan.settle run.present).size = run.plan.size := whole.settle
    refine guards.nextRow size consistent planned (renewed.imp_right ?_)
    rintro rfl
    exact settled (Nat.zero_le _)
  · rcases getElem?_history_advance found with earlier | ⟨last, rfl⟩
    · exact sustains.finished i row earlier begun
    · exact settled (begun.trans (last ▸ sustains.few))

end Sustains

namespace Sustains

variable {run : Simulation α} {slot first : Nat} (sustains : run.Sustains slot first)
include sustains

theorem savedHistory {i : Nat} {row : Row α} (saved : run.savedHistory[i]? = some row) (begun : first ≤ i) :
    Scalar.IsNonNegative (row.get slot) := by
  rw [Simulation.savedHistory, List.getElem?_take] at saved
  split at saved
  · exact sustains.finished i row (by rwa [Array.getElem?_toList] at saved) begun
  · cases saved

theorem dueRow (begun : first ≤ run.completeRows) : Scalar.IsNonNegative (run.dueRow.get slot) := by
  unfold Simulation.dueRow
  cases found : run.history[run.completeRows]? with
  | none => exact sustains.present (begun.trans (Nat.div_le_self ..))
  | some row => exact sustains.finished _ row found begun

end Sustains

theorem sustains_after [Scalar.Ordered α] {project : Project α} {plan : Plan α} {slot first : Nat}
    (consistent : project.Consistent) (planned : Plan.ofProject project = .ok plan)
    (guards : plan.Guards slot)
    (begins : slot ∈ written (plan.program .stocks) ∧ first = 1 ∨
      first = 0 ∧ Scalar.IsNonNegative (plan.initialRow.get slot))
    {calls : List (Call α)} (unset : ∀ name value, .set name value ∉ calls) :
    ((start plan).after calls).Sustains slot first := by
  have fresh : (start plan).Sustains slot first := by
    refine ⟨Nat.zero_le _, fun begun => ?_, fun i row found => absurd found (by simp [start])⟩
    rcases begins with ⟨-, rfl⟩ | ⟨-, here⟩
    · exact absurd begun (Nat.not_succ_le_zero 0)
    · exact here
  refine unset_induction fresh ?_ ?_ unset
  · rintro run rfl whole sustains
    exact sustains.advance guards whole consistent planned (begins.imp And.left And.left)
  · rintro run rfl whole sustains
    exact sustains.settle guards whole

/-- Non-negative variables stay non-negative. In a compiled project, at any depth, a non-negative flow that
is no input is zero or above it in all rows that a run saves, and in the row last due to be saved; a
non-negative stock is so in all of them but the first. -/
theorem stays_non_negative [Scalar.Ordered α] {document : Document.Project α} {project : Project α}
    {first : Simulation α} (compiled : Project.compile document = .ok project)
    (ready : ofProject project = .ok first) {path : List Name} {node : Coded α} {model : LinkedModel α}
    {v : Variable α} (leads : first.plan.root.descend? path = some node)
    (found : project.find? node.model = some model) (member : v ∈ model.vars)
    (unconnected : node.note.inputs.get? v.name = none) (clamped : v.isClamped = true) :
    ∃ slot, node.slots.get? v.name = some slot ∧
      ∀ calls, (∀ name value, .set name value ∉ calls) →
        (∀ i row, (first.after calls).savedHistory[i]? = some row → (v.isStock = true → 0 < i) →
          Scalar.IsNonNegative (row.get slot)) ∧
        ((v.isStock = true → 0 < (first.after calls).completeRows) →
          Scalar.IsNonNegative ((first.after calls).dueRow.get slot)) := by
  have consistent := Project.consistent_of_compile compiled
  obtain ⟨plan, planned, rfl⟩ := ofProject_eq_ok.mp ready
  obtain ⟨slot, own, guards, renewed, fresh⟩ :=
    Plan.exists_guards consistent planned leads found member unconnected clamped
  refine ⟨slot, own, fun calls unset => ?_⟩
  cases kind : v.isStock with
  | true =>
    have sustains := sustains_after consistent planned guards (.inl ⟨renewed kind, rfl⟩) unset
    exact ⟨fun i row saved begun => sustains.savedHistory saved (begun rfl),
      fun begun => sustains.dueRow (begun rfl)⟩
  | false =>
    have sustains := sustains_after consistent planned guards (.inr ⟨rfl, fresh kind⟩) unset
    exact ⟨fun i row saved _ => sustains.savedHistory saved (Nat.zero_le i),
      fun _ => sustains.dueRow (Nat.zero_le _)⟩

/-- A tank in a module that loses more than it holds, and gains what is no number at first and then
infinitely little. -/
def draining : Document.Project Float :=
  ⟨"", ⟨0, 3, 1, none⟩, [
    ⟨"main", none, [.module ⟨"m", "tank", []⟩]⟩,
    ⟨"tank", none, [
      .stock ⟨"level", "3", none, ["gain"], ["loss"], true⟩,
      .flow ⟨"gain", "", some (.binary .div (.unary .negative (.reference "time"))
        (.binary .sub (.reference "level") (.reference "level"))), none, true⟩,
      .flow ⟨"loss", "2", none, none, false⟩]⟩]⟩

/-- A run that stops once: all four rows are saved, and neither the tank nor its gain is below zero. -/
theorem stays_non_negative_draining : ∃ project first node level gain,
    Project.compile draining = .ok project ∧ ofProject project = .ok first ∧
      first.plan.root.descend? ["m"] = some node ∧ node.slots.get? "level" = some level ∧
      node.slots.get? "gain" = some gain ∧
      (first.after [.runTo 1, .runToEnd]).savedHistory.length = 4 ∧
      ∀ i row, (first.after [.runTo 1, .runToEnd]).savedHistory[i]? = some row →
        Scalar.IsNonNegative (row.get gain) ∧ (0 < i → Scalar.IsNonNegative (row.get level)) := by
  have check : ∃ project ∈ (Project.compile draining).toOption, ∃ first ∈ (ofProject project).toOption,
      ∃ node ∈ first.plan.root.descend? ["m"], ∃ model ∈ project.find? node.model,
        (∀ name ∈ ["level", "gain"], ∃ v ∈ model.vars, v.name = name ∧ v.isClamped = true ∧
          v.isStock = (name == "level") ∧ (node.note.inputs.get? v.name).isNone = true) ∧
        (first.after [.runTo 1, .runToEnd]).savedHistory.length = 4 := by
    rw [Project.compile_eq]
    decide +kernel
  obtain ⟨project, compiled, first, ready, node, leads, model, found, vars, rows⟩ := check
  have compiled := toOption_eq_some.mp compiled
  have ready := toOption_eq_some.mp ready
  obtain ⟨stock, among, named, clamped, isStock, unconnected⟩ := vars "level" (by simp)
  obtain ⟨flow, among', named', clamped', isFlow, unconnected'⟩ := vars "gain" (by simp)
  obtain ⟨level, own, stays⟩ := stays_non_negative compiled ready leads found among
    (Option.isNone_iff_eq_none.mp unconnected) clamped
  obtain ⟨gain, own', stays'⟩ := stays_non_negative compiled ready leads found among'
    (Option.isNone_iff_eq_none.mp unconnected') clamped'
  obtain ⟨saved, -⟩ := stays [.runTo 1, .runToEnd] (by simp)
  obtain ⟨saved', -⟩ := stays' [.runTo 1, .runToEnd] (by simp)
  refine ⟨project, first, node, level, gain, compiled, ready, leads, named ▸ own, named' ▸ own', rows,
    fun i row at_ => ⟨saved' i row at_ fun is => ?_, fun later => saved i row at_ fun _ => later⟩⟩
  exact absurd (isFlow.symm.trans is) (by decide)

end Simulation
end StockFlow
