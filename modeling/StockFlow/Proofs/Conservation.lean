import Mathlib.Algebra.BigOperators.Group.List.Basic
import Mathlib.Algebra.BigOperators.Ring.List
import Mathlib.Tactic.Ring
import StockFlow.Proofs.Catalog
import StockFlow.Proofs.Euler
import StockFlow.Proofs.Exact

/-!
# Conservation

What flows out of one stock and into another is neither lost nor gained. Where each flow leaves as many
stocks of the main model as it enters, a step with exact arithmetic keeps their total, since all of them
read the same flows. So all rows that a run saves have one total.
-/

namespace StockFlow

open Scalar (real)

variable {α : Type} [Scalar α]

/-! ## Stocks and their flows -/

namespace Model

def stocks (model : Model α) : List (Stock α) :=
  model.vars.filterMap fun
    | .stock stock => some stock
    | _ => none

/-- The flows into the stocks of a model, each as often as it is named. -/
def inflows (model : Model α) : List Name := model.stocks.flatMap Stock.inflows

/-- The flows out of the stocks of a model, each as often as it is named. -/
def outflows (model : Model α) : List Name := model.stocks.flatMap Stock.outflows

/-- Whether each flow leaves stocks of a model as often as it enters some. -/
def IsClosed (model : Model α) : Prop := ∀ flow, model.inflows.count flow = model.outflows.count flow

variable {model : Model α}

omit [Scalar α] in
theorem mem_stocks {stock : Stock α} : stock ∈ model.stocks ↔ .stock stock ∈ model.vars := by
  rw [stocks, List.mem_filterMap]
  constructor
  · rintro ⟨v, member, same⟩
    cases v with
    | stock => exact Option.some.inj same ▸ member
    | formula => cases same
    | module => cases same
  · exact fun member => ⟨_, member, rfl⟩

omit [Scalar α] in
/-- A model is closed if each of its flows enters one stock and leaves one. -/
theorem isClosed_of_once (once : ∀ flow ∈ model.inflows ++ model.outflows,
    model.inflows.count flow = 1 ∧ model.outflows.count flow = 1) : model.IsClosed := by
  intro flow
  by_cases named : flow ∈ model.inflows ++ model.outflows
  · rw [(once flow named).1, (once flow named).2]
  · rw [List.mem_append, not_or] at named
    rw [List.count_eq_zero_of_not_mem named.1, List.count_eq_zero_of_not_mem named.2]

end Model

/-- The value of what may have a slot in a row. -/
def Row.getSlot (row : Row α) : Option Nat → α
  | some slot => row.get slot
  | none => Scalar.undefined

namespace Coded

/-- The value of a stock of an instance in a row. -/
def level (node : Coded α) (row : Row α) (name : Name) : α := row.getSlot (node.slots.get? name)

/-- The value of a flow, which a stock finds by its path. -/
def rate (node : Coded α) (row : Row α) (flow : Path) : α := row.getSlot (node.slot? flow)

/-- Whether the stocks of an instance and the flows that they name have finite values in a row. -/
structure Measures (node : Coded α) (model : Model α) (row : Row α) : Prop where
  levels : ∀ stock ∈ model.stocks, Scalar.isFinite (node.level row stock.name)
  rates : ∀ flow ∈ model.inflows ++ model.outflows, Scalar.isFinite (node.rate row flow)

variable [Scalar.Exact α] {node : Coded α} {model : Model α} {row : Row α}

/-- What the stocks of an instance amount to in a row. -/
noncomputable def total (node : Coded α) (model : Model α) (row : Row α) : ℝ :=
  (model.stocks.map fun stock => real (node.level row stock.name)).sum

/-- What flows add up to in a row. -/
noncomputable def totalRate (node : Coded α) (row : Row α) (flows : List Name) : ℝ :=
  (flows.map fun flow => real (node.rate row flow)).sum

theorem totalRate_append (flows others : List Name) :
    node.totalRate row (flows ++ others) = node.totalRate row flows + node.totalRate row others := by
  rw [totalRate, List.map_append, List.sum_append, totalRate, totalRate]

/-- In a closed model what enters the stocks is what leaves them. -/
theorem totalRate_inflows (closed : model.IsClosed) :
    node.totalRate row model.inflows = node.totalRate row model.outflows :=
  ((List.perm_iff_count.mpr closed).map _).sum_eq

/-- What flows into a stock less what flows out of it. -/
noncomputable def netRate (node : Coded α) (row : Row α) (stock : Stock α) : ℝ :=
  node.totalRate row stock.inflows - node.totalRate row stock.outflows

theorem sum_netRate (closed : model.IsClosed) : (model.stocks.map (node.netRate row)).sum = 0 := by
  have each : ∀ stocks : List (Stock α), (stocks.map (node.netRate row)).sum =
      node.totalRate row (stocks.flatMap Stock.inflows) -
        node.totalRate row (stocks.flatMap Stock.outflows) := by
    intro stocks
    induction stocks with
    | nil => exact (sub_self _).symm
    | cons stock rest ih =>
      rw [List.map_cons, List.sum_cons, ih, List.flatMap_cons, List.flatMap_cons, totalRate_append,
        totalRate_append, netRate]
      ring
  exact (each model.stocks).trans (sub_eq_zero.mpr (totalRate_inflows closed))

theorem real_foldl_rate {flows : List Name} {sum : α} (start : Scalar.isFinite sum)
    (finite : ∀ flow ∈ flows, Scalar.isFinite (node.rate row flow)) :
    Scalar.isFinite (flows.foldl (fun sum flow => sum + node.rate row flow) sum) ∧
      real (flows.foldl (fun sum flow => sum + node.rate row flow) sum) =
        real sum + node.totalRate row flows := by
  induction flows generalizing sum with
  | nil => exact ⟨start, (add_zero _).symm⟩
  | cons flow rest ih =>
    obtain ⟨here, others⟩ := List.forall_mem_cons.mp finite
    obtain ⟨next, value⟩ := Scalar.Exact.real_add start here
    obtain ⟨whole, total⟩ := ih next others
    refine ⟨whole, ?_⟩
    rw [List.foldl_cons, total, value, totalRate, totalRate, List.map_cons, List.sum_cons, add_assoc]

theorem real_flowValue (linked : LinkedModel α) (clock : Clock α) (owner : Name) {flows : List Name}
    (finite : ∀ flow ∈ flows, Scalar.isFinite (node.rate row flow)) :
    Scalar.isFinite ((node.scope linked clock owner).flowValue row flows) ∧
      real ((node.scope linked clock owner).flowValue row flows) = node.totalRate row flows := by
  cases flows with
  | nil => exact ⟨Scalar.isFinite_zero, Scalar.real_zero⟩
  | cons first rest =>
    obtain ⟨here, others⟩ := List.forall_mem_cons.mp finite
    exact real_foldl_rate here others

end Coded

/-! ## A step -/

namespace Plan

/-- Whether settling a row, and a step from a row with finite values, keep the total of a model's stocks in
the root of a plan. -/
structure Conserves [Scalar.Exact α] (plan : Plan α) (model : Model α) : Prop where
  settle (row : Row α) : plan.root.total model (plan.settle row) = plan.root.total model row
  nextRow {row : Row α} (size : row.size = plan.size) (measured : plan.root.Measures model row) :
    plan.root.total model (plan.nextRow row) = plan.root.total model row

variable {project : Project α} {plan : Plan α} {model : LinkedModel α} {row : Row α} {stock : Stock α}
  (consistent : project.Consistent) (planned : ofProject project = .ok plan)
  (main : project.find? mainModel = some model)
include consistent planned main

theorem find?_root : project.find? plan.root.model = some model := by
  obtain ⟨-, named, -⟩ := made_of_ofProject consistent planned
  rwa [named]

theorem level_settle (member : stock ∈ model.stocks) :
    plan.root.level (plan.settle row) stock.name = plan.root.level row stock.name := by
  unfold Coded.level
  cases own : plan.root.slots.get? stock.name with
  | none => rfl
  | some slot =>
    have leads : plan.root.descend? [] = some plan.root := rfl
    exact Row.get_assign_of_notMem (notMem_flows_of_held consistent planned leads
      (find?_root consistent planned main) (Model.mem_stocks.mp member)
      (unconnected_of_ofProject consistent planned _) own rfl)

variable [Scalar.Exact α]

/-- A stock that may fall below zero moves by the difference of what flows in and out. -/
theorem real_level_nextRow (size : row.size = plan.size) (measured : plan.root.Measures model.toModel row)
    (member : stock ∈ model.stocks) (free : stock.nonNegative = false) :
    real (plan.root.level (plan.nextRow row) stock.name) =
      real (plan.root.level row stock.name) + plan.root.netRate row stock * real plan.clock.dt := by
  obtain ⟨valid, same⟩ := clock_of_ofProject planned
  have dt : Scalar.isFinite plan.clock.dt := same ▸ (Clock.isValid_of_validate valid).dt
  have leads : plan.root.descend? [] = some plan.root := rfl
  obtain ⟨slot, own, moves⟩ := get_nextRow_stock consistent planned size leads
    (find?_root consistent planned main) (Model.mem_stocks.mp member)
    (unconnected_of_ofProject consistent planned _)
  have reads : ∀ row, plan.root.level row stock.name = row.get slot := fun row => by
    rw [Coded.level, own, Row.getSlot]
  have present := measured.levels stock member
  rw [reads] at present
  obtain ⟨finiteIn, inflow⟩ := Coded.real_flowValue model plan.clock stock.name fun flow listed =>
    measured.rates flow (List.mem_append_left _ (List.mem_flatMap_of_mem member listed))
  obtain ⟨finiteOut, outflow⟩ := Coded.real_flowValue model plan.clock stock.name fun flow listed =>
    measured.rates flow (List.mem_append_right _ (List.mem_flatMap_of_mem member listed))
  obtain ⟨finiteNet, net⟩ := Scalar.Exact.real_sub finiteIn finiteOut
  obtain ⟨finiteChange, change⟩ := Scalar.Exact.real_mul finiteNet dt
  have next := (Scalar.Exact.real_add present finiteChange).2
  rw [change, net, inflow, outflow] at next
  rw [reads, reads, moves, Scope.nextValue, free, if_neg (by decide)]
  exact next

/-- Settling a row keeps the total of the main model's stocks; so does a step, if all of them may fall below
zero and the model is closed. -/
theorem conserves (free : ∀ stock ∈ model.stocks, stock.nonNegative = false)
    (closed : model.toModel.IsClosed) : plan.Conserves model.toModel where
  settle row := congrArg List.sum (List.map_congr_left fun stock member =>
    congrArg real (level_settle consistent planned main member))
  nextRow {row} size measured := by
    have moved : plan.root.total model.toModel (plan.nextRow row) = (model.stocks.map fun stock =>
        real (plan.root.level row stock.name) + plan.root.netRate row stock * real plan.clock.dt).sum :=
      congrArg List.sum (List.map_congr_left fun stock member =>
        real_level_nextRow consistent planned main size measured member (free stock member))
    rw [moved, List.sum_map_add, List.sum_map_mul_right, Coded.sum_netRate closed, zero_mul, add_zero,
      Coded.total]

end Plan

/-! ## Runs -/

namespace Simulation

/-- The rows from which a run takes steps until `past` holds of the time, at most so many. -/
def steppedUntil (past : α → Bool) : Nat → Simulation α → List (Row α)
  | 0, _ => []
  | steps + 1, run =>
    if past run.time then [] else run.plan.settle run.present :: steppedUntil past steps run.advance

/-- The rows from which a run has taken steps after a call, given those before it. -/
def stepped (run : Simulation α) (rows : List (Row α)) : Call α → List (Row α)
  | .reset => []
  | .runTo stop =>
    rows ++ run.steppedUntil (fun time => Scalar.lt stop time) (run.plan.clock.steps - run.step)
  | .runToEnd => rows ++ run.steppedUntil (fun _ => false) (run.plan.clock.steps - run.step)
  | .set _ _ => rows

/-- The rows from which a run has taken steps after some calls, since it was last reset. -/
def steppedAfter (run : Simulation α) (rows : List (Row α)) : List (Call α) → List (Row α)
  | [] => rows
  | call :: rest => (run.call call).steppedAfter (run.stepped rows call) rest

variable [Scalar.Exact α] {plan : Plan α} {model : Model α} {run : Simulation α}

/-- Whether all rows that a run of a plan has finished have the same total as the present one. -/
structure Balances (plan : Plan α) (model : Model α) (run : Simulation α) : Prop where
  same : run.plan = plan
  whole : run.IsWhole
  fresh : run.step = 0 → run.history = #[]
  finished : ∀ row ∈ run.history, plan.root.total model row = plan.root.total model run.present

theorem balances_start : (start plan).Balances plan model :=
  ⟨rfl, .start plan, fun _ => rfl, fun row member => absurd member (Array.not_mem_empty row)⟩

namespace Balances

variable (balances : run.Balances plan model)
include balances

/-- A value is set before the first step, when no row has been finished. -/
theorem set (name : Path) (x : α) : (run.call (.set name x)).Balances plan model := by
  show ((run.set name x).toOption.getD run).Balances plan model
  unfold Simulation.set
  split
  · exact balances
  rename_i fresh
  split
  · exact balances
  rename_i slot _
  have empty := balances.fresh (not_not.mp fresh)
  refine ⟨balances.same, ?_, balances.fresh, fun row member => ?_⟩
  · show (run.present.setIfInBounds slot x).size = run.plan.size
    rw [Array.size_setIfInBounds]
    exact balances.whole
  · rw [show run.history = #[] from empty] at member
    exact absurd member (Array.not_mem_empty row)

variable (conserves : plan.Conserves model)
include conserves

theorem settle : run.settle.Balances plan model := by
  obtain ⟨rfl, whole, fresh, finished⟩ := balances
  exact ⟨rfl, whole.settle, fresh, fun row member => (finished row member).trans (conserves.settle _).symm⟩

theorem advance (measured : plan.root.Measures model (plan.settle run.present)) :
    run.advance.Balances plan model := by
  obtain ⟨rfl, whole, -, finished⟩ := balances
  have next : run.plan.root.total model run.advance.present = run.plan.root.total model run.present :=
    (conserves.nextRow whole.settle measured).trans (conserves.settle _)
  refine ⟨rfl, whole.advance, fun first => absurd first (Nat.succ_ne_zero _), fun row member => ?_⟩
  rw [next]
  rcases mem_history_advance member with earlier | rfl
  · exact finished row earlier
  · exact conserves.settle _

theorem advanceUntil {past : α → Bool} {steps : Nat}
    (measured : ∀ row ∈ run.steppedUntil past steps, plan.root.Measures model row) :
    (run.advanceUntil past steps).Balances plan model := by
  induction steps generalizing run with
  | zero => exact balances
  | succ steps ih =>
    rw [steppedUntil] at measured
    rw [Simulation.advanceUntil]
    split
    · exact balances
    · rename_i early
      rw [if_neg early, List.forall_mem_cons, balances.same] at measured
      exact ih (balances.advance conserves measured.1) measured.2

theorem runUntil {past : α → Bool}
    (measured : ∀ row ∈ run.steppedUntil past (run.plan.clock.steps - run.step),
      plan.root.Measures model row) : (run.runUntil past).Balances plan model :=
  (balances.advanceUntil conserves measured).settle conserves

end Balances

/-- The rows of a run balance after some calls if they do before, and if all rows from which the run takes
steps have finite values. -/
theorem balances_after (conserves : plan.Conserves model) {rows : List (Row α)} (same : run.plan = plan)
    (balances : (∀ row ∈ rows, plan.root.Measures model row) → run.Balances plan model)
    {calls : List (Call α)}
    (measured : ∀ row ∈ run.steppedAfter rows calls, plan.root.Measures model row) :
    (run.after calls).Balances plan model := by
  induction calls generalizing run rows with
  | nil => exact balances measured
  | cons call rest ih =>
    have still : (run.call call).plan = plan := (plan_after : (run.after [call]).plan = _).trans same
    refine ih still (fun before => ?_) measured
    cases call with
    | reset =>
      -- whatever rows came before, the run begins anew
      subst same
      exact balances_start
    | runTo stop | runToEnd =>
      rw [stepped, List.forall_mem_append] at before
      exact (balances before.1).runUntil conserves before.2
    | set name x => exact (balances before).set name x

/-- **Material is conserved.** In a compiled project whose main model is closed and has no stock that is
kept from falling below zero, whatever its flows depend on: after any calls, if the rows from which the run
has taken its steps since it was reset have finite values, its stocks have the same total in all rows that
it has saved. -/
theorem total_conserved {document : Document.Project α} {project : Project α} {first : Simulation α}
    (compiled : Project.compile document = .ok project) (ready : ofProject project = .ok first)
    {model : LinkedModel α} (main : project.find? mainModel = some model)
    (free : ∀ stock ∈ model.stocks, stock.nonNegative = false) (closed : model.toModel.IsClosed)
    (calls : List (Call α))
    (measured : ∀ row ∈ first.steppedAfter [] calls, first.plan.root.Measures model.toModel row) :
    ∃ total, ∀ row ∈ (first.after calls).savedHistory,
      first.plan.root.total model.toModel row = total := by
  have consistent := Project.consistent_of_compile compiled
  obtain ⟨plan, planned, rfl⟩ := ofProject_eq_ok.mp ready
  have conserves := Plan.conserves consistent planned main free closed
  have balances := balances_after conserves rfl (fun _ => balances_start) measured
  exact ⟨_, fun row saved => balances.finished row
    (Array.mem_toList_iff.mp (List.mem_of_mem_take saved))⟩

/-- Two stocks between which material goes to and fro, with every other row saved. -/
def exchanging : Document.Project Rational :=
  ⟨"", ⟨.value 0, .value 3, .value (1 / 2), some (.value 1)⟩, [⟨"main", none, [
    .stock ⟨"left", "100", none, ["back"], ["move"], false⟩,
    .stock ⟨"right", "20", none, ["move"], ["back"], false⟩,
    .flow ⟨"move", "", some (.binary .div (.reference "left") (.constant "10" (.value 10))), none, false⟩,
    .flow ⟨"back", "", some (.binary .div (.reference "right") (.reference "left")), none, false⟩]⟩]⟩

/-- A run that begins with another value and stops once. -/
theorem total_conserved_exchanging : ∃ project first model, Project.compile exchanging = .ok project ∧
    ofProject project = .ok first ∧ project.find? mainModel = some model ∧
      model.inflows = ["back", "move"] ∧ model.outflows = ["move", "back"] ∧
      let run := first.after [.set "left" (.value 50), .runTo (.value 1), .runToEnd]
      run.savedHistory.length = 4 ∧
        ∃ total, ∀ row ∈ run.savedHistory, first.plan.root.total model.toModel row = total := by
  have check : ∃ project ∈ (Project.compile exchanging).toOption,
      ∃ first ∈ (ofProject project).toOption, ∃ model ∈ project.find? mainModel,
        model.inflows = ["back", "move"] ∧ model.outflows = ["move", "back"] ∧
        (∀ stock ∈ model.stocks, stock.nonNegative = false) ∧
        (∀ flow ∈ model.inflows ++ model.outflows,
          model.inflows.count flow = 1 ∧ model.outflows.count flow = 1) ∧
        (first.after [.set "left" (.value 50), .runTo (.value 1), .runToEnd]).savedHistory.length = 4 ∧
        ∀ row ∈ first.steppedAfter [] [.set "left" (.value 50), .runTo (.value 1), .runToEnd],
          (∀ stock ∈ model.stocks, Scalar.isFinite (first.plan.root.level row stock.name) = true) ∧
          ∀ flow ∈ model.inflows ++ model.outflows,
            Scalar.isFinite (first.plan.root.rate row flow) = true := by
    rw [Project.compile_eq]
    decide +kernel
  obtain ⟨project, compiled, first, ready, model, main, inflows, outflows, free, once, rows, measured⟩ :=
    check
  have compiled := toOption_eq_some.mp compiled
  have ready := toOption_eq_some.mp ready
  exact ⟨project, first, model, compiled, ready, main, inflows, outflows, rows,
    total_conserved compiled ready main free (Model.isClosed_of_once once) _ fun row member =>
      ⟨(measured row member).1, (measured row member).2⟩⟩

end Simulation
end StockFlow
