import StockFlow.Proofs.Catalog
import StockFlow.Proofs.History
import StockFlow.Proofs.Integration

/-!
# Overridden stocks

A connected input copies the slot of its source at each step, and a variable whose equation is a bare
reference copies a slot as well. Dependencies stop at stocks, also at those that a connection turns
into copies, so a copy may be made before its source is computed. It then lags a step behind.
-/

namespace StockFlow

variable {α : Type} [Scalar α]

/-! ## Copies -/

theorem mem_of_sublist_pair {x y : Nat} {before after : List Nat}
    (distinct : (before ++ x :: after).Nodup) (later : [x, y].Sublist (before ++ x :: after)) :
    y ∈ after := by
  obtain ⟨first, second, split, inFirst, inSecond⟩ := List.cons_sublist_iff.mp later
  have listed : y ∈ second := List.singleton_sublist.mp inSecond
  have fresh : x ∉ before := fun member =>
    (List.nodup_append.mp distinct).2.2 x member x List.mem_cons_self rfl
  rcases List.append_eq_append_iff.mp split with ⟨middle, rfl, rest⟩ | ⟨middle, rfl, -⟩
  · cases middle with
    | nil => exact absurd (by simpa using inFirst) fresh
    | cons head tail =>
      obtain ⟨-, rfl⟩ := List.cons.inj rest
      exact List.mem_append_right _ listed
  · exact absurd (List.mem_append_left _ inFirst) fresh

/-- A copy has the value of its source in the result of a program, unless the source is assigned
later: then it has the value that the source had before. -/
theorem Row.get_assign_copy (dt : α) (row : Row α) {program : List (Assignment α)} {x y : Nat}
    (distinct : (written program).Nodup) (inside : x < row.size)
    (member : ⟨x, .slot y⟩ ∈ program) : (assign dt row program).get x =
      if [x, y].Sublist (written program) then row.get y else (assign dt row program).get y := by
  obtain ⟨before, after, rfl⟩ := List.append_of_mem member
  have whole : written (before ++ ⟨x, .slot y⟩ :: after) = written before ++ x :: written after := by
    simp [written]
  have split : assign dt row (before ++ ⟨x, .slot y⟩ :: after) =
      assign dt ((assign dt row before).setIfInBounds x ((assign dt row before).get y)) after := by
    rw [assign, List.foldl_append]
    rfl
  rw [whole] at distinct ⊢
  obtain ⟨-, inner, apart⟩ := List.nodup_append.mp distinct
  have copied : (assign dt row (before ++ ⟨x, .slot y⟩ :: after)).get x =
      (assign dt row before).get y := by
    rw [split, get_assign_of_notMem (List.nodup_cons.mp inner).1,
      get_setIfInBounds (by rwa [size_assign]), if_pos rfl]
  by_cases later : y ∈ written after
  · have ordered : [x, y].Sublist (written before ++ x :: written after) :=
      List.sublist_append_of_sublist_right (.cons_cons x (List.singleton_sublist.mpr later))
    rw [if_pos ordered, copied]
    refine get_assign_of_notMem fun early => ?_
    exact apart y early y (List.mem_cons_of_mem _ later) rfl
  · rw [if_neg fun ordered => later (mem_of_sublist_pair distinct ordered)]
    by_cases self : x = y
    · rw [self]
    · rw [copied, split, get_assign_of_notMem later, get_setIfInBounds_ne self]

namespace Plan

variable {project : Project α} {plan : Plan α}

/-- How many steps a copy lags behind its source: one if the flows phase assigns the source later. -/
def lag (plan : Plan α) (copy source : Nat) : Nat :=
  if [copy, source].Sublist (written (plan.program .flows)) then 1 else 0

section

variable (consistent : project.Consistent) (planned : ofProject project = .ok plan)
  (plain : project.HasPlainNames) (outward : project.ReadsOutward)
include consistent planned plain outward

/-- The row computed at the start satisfies the equations of the flows phase. -/
theorem settle_initialRow : plan.settle plan.initialRow = plan.initialRow := by
  refine Row.assign_eq_self fun a member => ?_
  exact get_assign_initials consistent planned plain outward (by simp) a
    (flows_subset consistent planned member)

theorem settledAt_copy {x y : Nat} (copies : ⟨x, .slot y⟩ ∈ plan.program .flows) (step : Nat) :
    (plan.settledAt step).get x = (plan.settledAt (step - plan.lag x y)).get y := by
  have early : Phase.flows ≠ .stocks := by decide
  have bound := (lt_size_of_written consistent planned early x (List.mem_map_of_mem copies)).2
  have copied := Row.get_assign_copy plan.clock.dt (plan.rowAt step)
    (nodup_written consistent planned early) (by rwa [size_rowAt]) copies
  unfold lag
  split
  · rename_i later
    rw [if_pos later] at copied
    cases step with
    | zero =>
      -- the row of the start satisfies all equations, in whatever order they are made
      have start : plan.settledAt 0 = plan.initialRow :=
        settle_initialRow consistent planned plain outward
      rw [Nat.zero_sub, start]
      exact get_assign_initials consistent planned plain outward (by simp) _
        (flows_subset consistent planned copies)
    | succ step =>
      have flowing : y ∈ written (plan.program .flows) := later.subset (by simp)
      have late := (lt_size_of_written consistent planned early y flowing).1
      rw [Nat.add_sub_cancel, settledAt, settle, copied, rowAt,
        get_nextRow_of_notMem (Nat.ne_of_gt late) (notMem_integrated consistent planned flowing)]
      rfl
  · rename_i earlier
    rw [if_neg earlier] at copied
    exact copied

omit plain outward

/-- What a connected input is computed by: a copy of its source. -/
theorem copies_of_wire {path : List Name} {above node : Coded α} {model : LinkedModel α}
    {module : Module} {input : Name} {symbol : Path} {x y : Nat}
    (leads : plan.root.descend? path = some above) (found : project.find? above.model = some model)
    (member : module ∈ model.modules) (inside : above.child? module.name = some node)
    (wired : (Model.wires module).get? input = some symbol)
    (own : node.slots.get? input = some x)
    (source : Coded.sourceSlot? plan.root above symbol = some y) :
    ⟨x, .slot y⟩ ∈ plan.program .flows := by
  obtain ⟨made, -⟩ := made_of_ofProject consistent planned
  have here := made.of_descend? leads
  obtain ⟨v, inner, foundInner, declared, rfl, connected⟩ :=
    here.exists_input consistent found member inside wired
  have next := Instance.descend?_concat leads inside
  obtain ⟨part, computes, within⟩ := (made.of_descend? next).computes consistent
    (by decide : Phase.flows ≠ .stocks) foundInner declared (by simp [Variable.isDue, connected])
  cases computes with
  | input connected' own' =>
    cases connected.symm.trans connected'
    cases own.symm.trans own'
    rw [plan.program_eq]
    rw [source] at within
    exact made.program_of_descend? consistent (by decide) next (within List.mem_cons_self)
  | enter unconnected | formula unconnected => cases connected.symm.trans unconnected
  | stock start => cases start

/-- What an auxiliary variable that is no input is computed by if its equation is a bare reference. -/
theorem copies_of_reference {path : List Name} {node : Coded α} {model : LinkedModel α}
    {formula : Formula α} {name : Name} {y : Nat} (leads : plan.root.descend? path = some node)
    (found : project.find? node.model = some model) (member : .formula formula ∈ model.vars)
    (unconnected : node.note.inputs.get? formula.name = none)
    (bare : formula.equation = .reference name) (curve : formula.table? = none)
    (auxiliary : formula.isFlow = false) (notClock : ClockReference.ofName? name = none)
    (source : node.slot? name = some y) :
    ∃ x, node.slots.get? formula.name = some x ∧ ⟨x, .slot y⟩ ∈ plan.program .flows := by
  obtain ⟨made, -⟩ := made_of_ofProject consistent planned
  obtain ⟨part, computes, within⟩ := (made.of_descend? leads).computes consistent
    (by decide : Phase.flows ≠ .stocks) found member
    (by simp [Variable.isDue, Variable.isHeld, bare, Equation.isConstant])
  cases computes with
  | input connected => cases connected.symm.trans unconnected
  | formula _ own lowered =>
    have term : (node.scope model plan.clock formula.name).formulaTerm formula =
        .ok (.slot y) := by
      have loaded : (node.scope model plan.clock formula.name).reference name = .slot y := by
        rw [Scope.reference, notClock]
        exact congrArg Scope.loadSlot source
      simp only [Scope.formulaTerm, bare, curve, auxiliary, Scope.lower, loaded, bind_eq_ok]
      exact ⟨_, rfl, rfl⟩
    cases term.symm.trans lowered
    refine ⟨_, own, ?_⟩
    rw [plan.program_eq]
    exact made.program_of_descend? consistent (by decide) leads (within List.mem_cons_self)

end

end Plan

/-! ## Readers of inputs -/

/-- The name that an auxiliary variable without a table has for its equation. -/
def Variable.bareReference? : Variable α → Option Name
  | .formula ⟨_, _, .reference name, none, false, _⟩ => some name
  | _ => none

omit [Scalar α] in
theorem Variable.of_bareReference? {v : Variable α} {name : Name}
    (bare : v.bareReference? = some name) : ∃ formula : Formula α, v = .formula formula ∧
      formula.equation = .reference name ∧ formula.table? = none ∧ formula.isFlow = false := by
  unfold bareReference? at bare
  split at bare
  · cases bare
    exact ⟨_, rfl, rfl, rfl, rfl⟩
  · cases bare

theorem ClockReference.ofName?_of_isDotted {name : Name} (dotted : Path.IsDotted name) :
    ofName? name = none := by
  refine Option.eq_none_iff_forall_ne_some.mpr fun reference found => ?_
  have plain : ∀ entry ∈ [("time", time), ("dt", step), ("initial_time", start), ("final_time", stop)],
      ¬ Path.IsDotted entry.1 := by decide
  exact plain (name, reference) (Keyed.mem_of_get? found) dotted

namespace Simulation

/-- Whether in each saved row of a run to the end a slot has the value that another one had some steps
before, or at the start if fewer were made. -/
def Trails (run : Simulation α) (steps copy source : Nat) : Prop :=
  ∀ index row, run.reset.runToEnd.savedHistory[index]? = some row → row.get copy =
    (run.plan.settledAt (index * run.plan.clock.saveEvery - steps)).get source

theorem trails_of_settledAt {run : Simulation α} {steps copy source : Nat}
    (same : ∀ step, (run.plan.settledAt step).get copy = (run.plan.settledAt (step - steps)).get source) :
    run.Trails steps copy source := by
  intro index row saved
  rw [reset, savedHistory_runToEnd, Plan.savedRows, List.getElem?_map] at saved
  obtain ⟨other, listed, rfl⟩ := Option.map_eq_some_iff.mp saved
  obtain ⟨-, rfl⟩ := List.getElem?_eq_some_iff.mp listed
  rw [List.getElem_range]
  exact same _

/-- What does not trail behind its source has its value in each saved row. -/
theorem Trails.get_eq {run : Simulation α} {copy source : Nat} (trails : run.Trails 0 copy source) :
    ∀ row ∈ run.reset.runToEnd.savedHistory, row.get copy = row.get source := by
  intro row member
  obtain ⟨index, saved⟩ := List.getElem?_of_mem member
  have itself : run.Trails 0 source source := trails_of_settledAt fun _ => rfl
  rw [trails index row saved, itself index row saved]

/-- The readers of a connected input, also of one that overrides a stock: the auxiliary variables of the
model whose equation is the input, and those beside the module whose equation is the input behind the
name of the module. They have the value of the connected source in the same row, but for a lag of one
step where the flows phase makes the reader before the input, and of one where it makes the input
before the source. -/
theorem readers_trail {document : Document.Project α} {project : Project α} {run : Simulation α}
    (compiled : Project.compile document = .ok project) (ready : ofProject project = .ok run)
    (plain : document.HasPlainNames) (relative : project.HasRelativeSources)
    {path : List Name} {above node : Coded α} {model inner : LinkedModel α} {module : Module}
    {input : Name} {symbol : Path} {x y : Nat}
    (leads : run.plan.root.descend? path = some above)
    (found : project.find? above.model = some model) (member : module ∈ model.modules)
    (inside : above.child? module.name = some node) (foundInner : project.find? node.model = some inner)
    (wired : (Model.wires module).get? input = some symbol)
    (notClock : ClockReference.ofName? input = none) (own : node.slots.get? input = some x)
    (source : Coded.sourceSlot? run.plan.root above symbol = some y) :
    (∀ reader ∈ inner.vars, reader.bareReference? = some input →
      node.note.inputs.get? reader.name = none → ∃ slot, node.slots.get? reader.name = some slot ∧
        run.Trails (run.plan.lag slot x + run.plan.lag x y) slot y) ∧
    (∀ reader ∈ model.vars, reader.bareReference? = some (module.name ++ "." ++ input) →
      above.note.inputs.get? reader.name = none → ∃ slot, above.slots.get? reader.name = some slot ∧
        run.Trails (run.plan.lag slot x + run.plan.lag x y) slot y) := by
  obtain ⟨plan, planned, rfl⟩ := ofProject_eq_ok.mp ready
  have consistent := Project.consistent_of_compile compiled
  have names : project.HasPlainNames := Project.hasPlainNames_of_compile compiled plain
  have outward := relative.readsOutward
  have copied := Plan.copies_of_wire consistent planned leads found member inside wired own source
  obtain ⟨made, -⟩ := Plan.made_of_ofProject consistent planned
  have next := Instance.descend?_concat leads inside
  have here : node.slot? input = some x := by
    cases made.of_descend? next with
    | intro fits =>
      obtain ⟨v, declared, -, rfl⟩ := fits.variable_of_get? own
      refine Instance.slot?_own (names fits.found v declared).2.1 ?_ own
      intro time
      rw [time] at notClock
      cases notClock
  -- a reader copies the input, which copies the source
  have trails : ∀ {slot}, ⟨slot, .slot x⟩ ∈ plan.program .flows →
      (start plan).Trails (plan.lag slot x + plan.lag x y) slot y := by
    intro slot copies
    refine trails_of_settledAt fun step => ?_
    have first := Plan.settledAt_copy consistent planned names outward copies step
    have second := Plan.settledAt_copy consistent planned names outward copied (step - plan.lag slot x)
    rw [Nat.sub_sub] at second
    exact first.trans second
  constructor
  · intro reader among bare unconnected
    obtain ⟨formula, rfl, equation, curve, auxiliary⟩ := Variable.of_bareReference? bare
    obtain ⟨slot, ownSlot, copies⟩ := Plan.copies_of_reference consistent planned next foundInner among
      unconnected equation curve auxiliary notClock here
    exact ⟨slot, ownSlot, trails copies⟩
  · intro reader among bare unconnected
    obtain ⟨formula, rfl, equation, curve, auxiliary⟩ := Variable.of_bareReference? bare
    have leadsInside : above.slot? (module.name ++ "." ++ input) = some x := by
      cases made.of_descend? leads with
      | intro fits => rw [fits.slot?_inside (names fits.found) inside, here]
    have dotted : Path.IsDotted (module.name ++ "." ++ input) := by
      simp [Path.IsDotted, String.toList_append]
    obtain ⟨slot, ownSlot, copies⟩ := Plan.copies_of_reference consistent planned leads found among
      unconnected equation curve auxiliary (ClockReference.ofName?_of_isDotted dotted) leadsInside
    exact ⟨slot, ownSlot, trails copies⟩

/-- A project in which a connection overrides the stock of `m` by `x`. Of its readers `a` and `r` come
before the copy at each step, and `y` and `z` after it. -/
def overridden : Document.Project Float :=
  ⟨"", ⟨0, 3, 1, none⟩, [
    ⟨"main", none, [
      .auxiliary ⟨"a", "", some (.reference "m.s"), none⟩,
      .auxiliary ⟨"x", "", some (.binary .add (.reference "time") (.constant "1" 1)), none⟩,
      .auxiliary ⟨"z", "", some (.reference "m.s"), none⟩,
      .module ⟨"m", "sub", [⟨"x", "m.s"⟩]⟩]⟩,
    ⟨"sub", none, [
      .stock ⟨"s", "0", none, [], [], false⟩,
      .auxiliary ⟨"r", "", some (.reference "s"), none⟩,
      .auxiliary ⟨"y", "", some (.reference "s"), none⟩]⟩]⟩

set_option synthInstance.maxSize 1500 in
/-- A reader of an overridden stock can lag behind the connected source: `m.r` behind `x`. -/
theorem readers_trail_overridden : ∃ project run, Project.compile overridden = .ok project ∧
    ofProject project = .ok run ∧ run.plan.slot? "m.r" = some 4 ∧ run.plan.slot? "x" = some 2 ∧
      run.Trails 1 4 2 ∧ ∃ row ∈ run.reset.runToEnd.savedHistory, row.get 4 ≠ row.get 2 := by
  have check : ∃ project ∈ (Project.compile overridden).toOption,
      ∃ run ∈ (ofProject project).toOption, project.HasRelativeSources ∧
        run.plan.slot? "m.r" = some 4 ∧ run.plan.slot? "x" = some 2 ∧
        run.plan.lag 4 5 + run.plan.lag 5 2 = 1 ∧
        (∃ row ∈ run.reset.runToEnd.savedHistory, (row.get 4).toBits ≠ (row.get 2).toBits) ∧
        ∃ model ∈ project.find? run.plan.root.model, ∃ node ∈ run.plan.root.child? "m",
        ∃ inner ∈ project.find? node.model, ∃ module ∈ model.modules, module.name = "m" ∧
          (Model.wires module).get? "s" = some "x" ∧ node.slots.get? "s" = some 5 ∧
          node.slots.get? "r" = some 4 ∧ ∃ reader ∈ inner.find? "r",
          reader.bareReference? = some "s" ∧ node.note.inputs.get? reader.name = none := by
    rw [Project.compile_eq]
    decide +kernel
  obtain ⟨project, compiled, run, ready, relative, copy, source, lag, ⟨row, saved, differ⟩, model, found,
    node, inside, inner, foundInner, module, member, named, wired, own, here, reader, sought, bare,
    unconnected⟩ := check
  have compiled := toOption_eq_some.mp compiled
  have ready := toOption_eq_some.mp ready
  have plain : overridden.HasPlainNames := by decide +kernel
  rw [← named] at inside
  have top : run.plan.root.descend? [] = some run.plan.root := rfl
  obtain ⟨trail, -⟩ := readers_trail compiled ready plain relative top found member inside foundInner
    wired (by decide) own source
  obtain ⟨slot, at_, trails⟩ := trail reader (mem_of_findNamed sought) bare unconnected
  have name : reader.name = "r" := name_of_findNamed sought
  obtain rfl := Option.some.inj (here.symm.trans (name ▸ at_))
  exact ⟨project, run, compiled, ready, copy, source, lag ▸ trails, row, saved,
    fun same => differ (congrArg Float.toBits same)⟩

end Simulation
end StockFlow
