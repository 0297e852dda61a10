import StockFlow.Proofs.Catalog
import StockFlow.Proofs.Omitting

/-!
# Constants at rest

A constant without a table that is no input is computed at the start and not again. A plan that computes
it in each step as well runs alike: what it computes for the constant is the same in every row, and that
is what the constant's slot holds already, since nothing else writes it.
-/

namespace StockFlow

variable {α : Type} [Scalar α]

/-! ## Rows -/

namespace Row

variable {dt : α} {row : Row α} {program further : List (Assignment α)} {holds : Row α → Prop}
  {slot : Nat} {x : α}

theorem get_setIfInBounds_of_eq {other : Nat} {y : α} (same : other = slot → y = x)
    (here : row.get slot = x) : get (row.setIfInBounds other y) slot = x := by
  by_cases own : other = slot
  · subst own
    rw [same rfl, ← here, setIfInBounds_get]
  · rw [get_setIfInBounds_ne own, here]

section

variable (keeps : ∀ a ∈ program, ∀ row : Row α, holds row →
  holds (row.setIfInBounds a.slot (a.term.value dt row)))
include keeps

theorem assign_induction (begins : holds row) : holds (assign dt row program) := by
  induction program generalizing row with
  | nil => exact begins
  | cons a rest ih =>
    obtain ⟨here, others⟩ := List.forall_mem_cons.mp keeps
    exact ih others (here row begins)

/-- Assignments that change nothing can be added to a program. -/
theorem assign_eq_of_adds {extra : Assignment α → Prop} (adds : Adds extra program further)
    (idle : ∀ a, extra a → ∀ row : Row α, holds row → row.get a.slot = a.term.value dt row)
    (begins : holds row) : assign dt row further = assign dt row program := by
  induction adds generalizing row with
  | nil => rfl
  | keep a _ ih =>
    obtain ⟨here, others⟩ := List.forall_mem_cons.mp keeps
    exact ih others (here row begins)
  | @add _ _ a new _ ih =>
    rw [assign_cons, ← idle a new row begins, setIfInBounds_get]
    exact ih keeps begins

end

theorem get_assign_of_forall (same : ∀ a ∈ program, a.slot = slot → ∀ row : Row α, a.term.value dt row = x)
    (assigned : slot ∈ written program) (inside : slot < row.size) :
    (assign dt row program).get slot = x := by
  induction program generalizing row with
  | nil => cases assigned
  | cons a rest ih =>
    obtain ⟨here, others⟩ := List.forall_mem_cons.mp same
    rw [assign_cons]
    by_cases own : a.slot = slot
    · have keeps : ∀ b ∈ rest, ∀ row : Row α, row.get slot = x →
          get (row.setIfInBounds b.slot (b.term.value dt row)) slot = x := fun b member row =>
        get_setIfInBounds_of_eq fun there => others b member there row
      refine assign_induction keeps ?_
      rw [get_setIfInBounds (own ▸ inside), if_pos own, here own]
    · exact ih others ((List.mem_cons.mp assigned).resolve_left (Ne.symm own))
        (by rwa [Array.size_setIfInBounds])

end Row

namespace Plan

variable {project : Project α} {plan full : Plan α} {row : Row α}

/-! ## Slots with one value -/

/-- Whether a slot gets one value at the start and no other value after that. -/
structure Fixes (plan : Plan α) (slot : Nat) (x : α) : Prop where
  assigned : slot ∈ written (plan.program .initials)
  late : timeSlot < slot
  inside : slot < plan.size
  same : ∀ phase, phase ≠ .stocks → ∀ a ∈ plan.program phase, a.slot = slot →
    ∀ row : Row α, a.term.value plan.clock.dt row = x
  kept : slot ∉ written (plan.program .stocks)

/-- Whether the slots that get one value have it in a row. -/
def IsAtRest (plan : Plan α) (row : Row α) : Prop := ∀ slot x, plan.Fixes slot x → row.get slot = x

theorem isAtRest_initialRow (plan : Plan α) : plan.IsAtRest plan.initialRow := by
  intro slot x fixed
  refine Row.get_assign_of_forall (fixed.same .initials (by decide)) fixed.assigned ?_
  rw [Array.size_setIfInBounds, Array.size_replicate]
  exact fixed.inside

namespace IsAtRest

variable (rests : plan.IsAtRest row)
include rests

theorem put {phase : Phase} (early : phase ≠ .stocks) {a : Assignment α} (member : a ∈ plan.program phase) :
    plan.IsAtRest (row.setIfInBounds a.slot (a.term.value plan.clock.dt row)) := fun slot x fixed =>
  Row.get_setIfInBounds_of_eq (fun own => fixed.same phase early a member own row) (rests slot x fixed)

theorem settle : plan.IsAtRest (plan.settle row) :=
  Row.assign_induction (fun _ member _ rests => rests.put (by decide) member) rests

theorem nextRow : plan.IsAtRest (plan.nextRow row) := by
  intro slot x fixed
  rw [get_nextRow_of_notMem (Nat.ne_of_gt fixed.late) fixed.kept]
  exact rests slot x fixed

end IsAtRest

/-! ## Assignments that change nothing -/

/-- Whether an assignment gives its slot, in every row, the one value that the slot gets. -/
def Repeats (plan : Plan α) (a : Assignment α) : Prop :=
  ∃ x, plan.Fixes a.slot x ∧ ∀ row : Row α, a.term.value plan.clock.dt row = x

/-- Whether a plan is another one in which assignments of a kind are made in each step besides. -/
structure Extends (extra : Assignment α → Prop) (plan full : Plan α) : Prop where
  clock : full.clock = plan.clock
  tree : Coded.Extends extra plan.root full.root

namespace Extends

section

variable {extra : Assignment α → Prop} (extends_ : plan.Extends extra full)
include extends_

omit [Scalar α] in
theorem program_eq {phase : Phase} (other : phase ≠ .flows) : full.program phase = plan.program phase := by
  rw [plan.program_eq, full.program_eq]
  cases phase with
  | initials => exact extends_.tree.initials
  | flows => exact absurd rfl other
  | stocks => exact extends_.tree.stocks

omit [Scalar α] in
theorem slot?_eq (name : Path) : full.slot? name = plan.slot? name :=
  Instance.slot?_eq_of_shape extends_.tree.shape name

theorem initialRow_eq : full.initialRow = plan.initialRow := by
  have size : full.size = plan.size := Instance.size_eq_of_shape extends_.tree.shape
  rw [initialRow, initialRow, extends_.clock, extends_.program_eq (by decide), size]

theorem nextRow_eq (row : Row α) : full.nextRow row = plan.nextRow row := by
  rw [nextRow, nextRow, extends_.clock, extends_.program_eq (by decide)]

end

theorem settle_eq (extends_ : plan.Extends plan.Repeats full) (rests : plan.IsAtRest row) :
    full.settle row = plan.settle row := by
  have adds : Adds plan.Repeats (plan.program .flows) (full.program .flows) := by
    rw [plan.program_eq, full.program_eq]
    exact extends_.tree.flows
  rw [settle, settle, extends_.clock]
  refine Row.assign_eq_of_adds (fun _ member _ rests => rests.put (by decide) member) adds ?_ rests
  rintro a ⟨x, fixed, value⟩ row rests
  exact (rests _ x fixed).trans (value row).symm

end Extends

/-! ## Plans that compute constants in each step -/

/-- The plan of a project where a test says which variables of an instance are computed in each step. -/
def ofProjectBy (flowing : Site α → Variable α → Bool) (project : Project α) : Except Fault (Plan α) :=
  match project.main? with
  | none =>
    .error (.simulation .notSimulatable ("no model named '" ++ mainModel ++ "' to simulate"))
  | some main => do
    let spec := project.runSpec
    spec.validate
    let clock := Clock.ofSpec spec
    let layout ← Layout.ofProject project main
    let root ← Coded.ofWiredBy flowing project clock layout.wired
    return ofRoot root clock

theorem ofProjectBy_isFlowing (project : Project α) :
    ofProjectBy Site.isFlowing project = ofProject project := by
  unfold ofProjectBy ofProject
  cases project.main? with
  | none => rfl
  | some main => simp only [Coded.ofWiredBy_isFlowing]

section

variable (consistent : project.Consistent) (planned : ofProject project = .ok plan)
include consistent planned

theorem repeats_of_rests {a : Assignment α} (rests : Coded.Rests project plan.clock plan.root a) :
    plan.Repeats a := by
  rcases rests with @⟨path, below, model, formula, _, leads, found, member, unconnected, held, own, lowered⟩
  obtain ⟨made, -⟩ := made_of_ofProject consistent planned
  obtain ⟨-, constant⟩ := Bool.and_eq_true_iff.mp held
  have value : ∀ row : Row α, a.term.value plan.clock.dt row =
      (below.scope model plan.clock formula.name).formulaValue #[] formula := by
    intro row
    have same := Scope.value_of_formulaTerm row lowered
    rw [Scope.formulaValue, Scope.value_of_isConstant constant] at same
    exact same
  have early : a ∈ plan.program .initials := by
    obtain ⟨part, computes, within⟩ := (made.of_descend? leads).computes consistent
      (by decide : Phase.initials ≠ .stocks) found member (by simp [Variable.isDue])
    rw [plan.program_eq]
    refine made.program_of_descend? consistent (by decide) leads (within ?_)
    cases computes with
    | input connected => cases connected.symm.trans unconnected
    | formula _ own' lowered' =>
      cases own.symm.trans own'
      cases lowered.symm.trans lowered'
      exact List.mem_singleton_self _
  have assigned : a.slot ∈ written (plan.program .initials) := List.mem_map_of_mem early
  obtain ⟨late, inside⟩ := lt_size_of_written consistent planned (by decide) _ assigned
  refine ⟨_, ⟨assigned, late, inside, fun phase before b among same => ?_,
    notMem_integrated_of_own consistent planned leads found member own rfl⟩, value⟩
  -- what a step computes for a slot is what the start computes for it
  have start : b ∈ plan.program .initials := by
    cases phase with
    | initials => exact among
    | flows => exact flows_subset consistent planned among
    | stocks => exact absurd rfl before
  obtain rfl := List.inj_on_of_nodup_map (nodup_written consistent planned (by decide)) start early same
  exact value

theorem exists_ofProjectBy : ∃ full, ofProjectBy Site.isChanging project = .ok full ∧
    plan.Extends plan.Repeats full := by
  obtain ⟨made, -⟩ := made_of_ofProject consistent planned
  have repeats := fun a => @repeats_of_rests _ _ project plan consistent planned a
  obtain ⟨main, layout, root, found, valid, placed, coded, rfl⟩ := ofProject_eq_ok planned
  obtain ⟨full, done, extends_⟩ := Coded.exists_ofWiredBy consistent coded made
  refine ⟨ofRoot full (Clock.ofSpec project.runSpec), ?_, rfl, extends_.mono repeats⟩
  simp only [ofProjectBy, found, bind_eq_ok, pure_eq_ok]
  exact ⟨_, valid, layout, placed, full, done, rfl⟩

end

theorem exists_ofProject_of_ofProjectBy (consistent : project.Consistent)
    (done : ofProjectBy Site.isChanging project = .ok full) : ∃ plan, ofProject project = .ok plan := by
  unfold ofProjectBy at done
  unfold ofProject
  cases found : project.main? with
  | none =>
    rw [found] at done
    cases done
  | some main =>
    simp only [found, bind_eq_ok, pure_eq_ok] at done
    obtain ⟨_, valid, layout, placed, _, whole, -⟩ := done
    obtain ⟨root, coded⟩ := Coded.exists_ofWired_of_ofWiredBy consistent whole
    simp only [bind_eq_ok, pure_eq_ok]
    exact ⟨_, _, valid, layout, placed, root, coded, rfl⟩

end Plan

/-! ## Runs -/

namespace Simulation

variable {run : Simulation α} {full : Plan α}

def under (full : Plan α) (run : Simulation α) : Simulation α := { run with plan := full }

/-- Whether a run can go on under a plan that makes more assignments in each step. -/
structure Allows (full : Plan α) (run : Simulation α) : Prop where
  plan : run.plan.Extends run.plan.Repeats full
  present : run.plan.IsAtRest run.present

theorem allows_start {plan : Plan α} (extends_ : plan.Extends plan.Repeats full) :
    (start plan).Allows full := ⟨extends_, plan.isAtRest_initialRow⟩

theorem start_under {plan : Plan α} (extends_ : plan.Extends plan.Repeats full) :
    (start plan).under full = start full := by
  unfold under start
  rw [extends_.initialRow_eq]

namespace Allows

variable (allows : run.Allows full)
include allows

theorem settle : run.settle.Allows full := ⟨allows.plan, allows.present.settle⟩

theorem advance : run.advance.Allows full := ⟨allows.plan, allows.present.settle.nextRow⟩

theorem settle_under : (run.under full).settle = run.settle.under full := by
  have row : full.settle run.present = run.plan.settle run.present := allows.plan.settle_eq allows.present
  unfold Simulation.settle under
  simp only [row]

theorem advance_under : (run.under full).advance = run.advance.under full := by
  have row : full.settle run.present = run.plan.settle run.present := allows.plan.settle_eq allows.present
  unfold Simulation.advance saveEvery under
  simp only [row, allows.plan.clock, allows.plan.nextRow_eq]

theorem advanceUntil (past : α → Bool) (steps : Nat) : (run.advanceUntil past steps).Allows full ∧
    (run.under full).advanceUntil past steps = (run.advanceUntil past steps).under full := by
  induction steps generalizing run with
  | zero => exact ⟨allows, rfl⟩
  | succ steps ih =>
    have time : (run.under full).time = run.time := rfl
    rw [Simulation.advanceUntil, Simulation.advanceUntil, time]
    split
    · exact ⟨allows, rfl⟩
    · rw [allows.advance_under]
      exact ih allows.advance

theorem runUntil (past : α → Bool) : (run.runUntil past).Allows full ∧
    (run.under full).runUntil past = (run.runUntil past).under full := by
  have steps : (run.under full).plan.clock.steps - (run.under full).step =
      run.plan.clock.steps - run.step := by
    show full.clock.steps - run.step = _
    rw [allows.plan.clock]
  obtain ⟨further, same⟩ := allows.advanceUntil past (run.plan.clock.steps - run.step)
  refine ⟨further.settle, ?_⟩
  rw [Simulation.runUntil, Simulation.runUntil, steps, same]
  exact further.settle_under

theorem call {call : Call α} (unset : ∀ name value, call ≠ .set name value) :
    (run.call call).Allows full ∧ (run.under full).call call = (run.call call).under full := by
  cases call with
  | reset => exact ⟨allows_start allows.plan, (start_under allows.plan).symm⟩
  | runTo stop => exact allows.runUntil _
  | runToEnd => exact allows.runUntil _
  | set name value => exact absurd rfl (unset name value)

theorem after {calls : List (Call α)} (unset : ∀ name value, .set name value ∉ calls) :
    (run.after calls).Allows full ∧ (run.under full).after calls = (run.after calls).under full := by
  induction calls generalizing run with
  | nil => exact ⟨allows, rfl⟩
  | cons call rest ih =>
    obtain ⟨further, same⟩ := allows.call fun name value is => unset name value (is ▸ List.mem_cons_self)
    show _ ∧ ((run.under full).call call).after rest = _
    rw [same]
    exact ih further fun name value member => unset name value (List.mem_cons_of_mem _ member)

theorem value?_under (name : Path) : (run.under full).value? name = run.value? name := by
  show (full.slot? name).map _ = (run.plan.slot? name).map _
  rw [allows.plan.slot?_eq, dueRow, dueRow, completeRows, completeRows, saveEvery, saveEvery]
  unfold under
  rw [allows.plan.clock]

theorem series?_under (name : Path) : (run.under full).series? name = run.series? name := by
  unfold series? savedHistory completeRows saveEvery under
  rw [allows.plan.slot?_eq, allows.plan.clock]

end Allows

/-- To compute in each step all variables that are no unconnected stocks, the constants among them, changes
nothing that a run shows. A compiled project has such a simulation exactly if it has one, and after any calls
that set nothing the two have the same time, values and series. -/
theorem constants_may_flow {document : Document.Project α} {project : Project α}
    (compiled : Project.compile document = .ok project) :
    Plan.ofProjectBy Site.isFlowing project = Plan.ofProject project ∧
      ((∃ full, Plan.ofProjectBy Site.isChanging project = .ok full) ↔
        ∃ first, ofProject project = .ok first) ∧
      ∀ full first, Plan.ofProjectBy Site.isChanging project = .ok full → ofProject project = .ok first →
        ∀ calls, (∀ name value, .set name value ∉ calls) →
          ((start full).after calls).time = (first.after calls).time ∧ ∀ name,
            ((start full).after calls).value? name = (first.after calls).value? name ∧
              ((start full).after calls).series? name = (first.after calls).series? name := by
  have consistent := Project.consistent_of_compile compiled
  refine ⟨Plan.ofProjectBy_isFlowing project, ⟨?_, ?_⟩, fun full first made ready calls unset => ?_⟩
  · rintro ⟨full, made⟩
    obtain ⟨plan, planned⟩ := Plan.exists_ofProject_of_ofProjectBy consistent made
    exact ⟨start plan, bind_eq_ok.mpr ⟨plan, planned, rfl⟩⟩
  · rintro ⟨first, ready⟩
    obtain ⟨plan, planned, -⟩ := bind_eq_ok.mp ready
    exact (Plan.exists_ofProjectBy consistent planned).imp fun _ both => both.1
  · obtain ⟨plan, planned, rfl⟩ := ofProject_eq_ok.mp ready
    obtain ⟨other, made', extends_⟩ := Plan.exists_ofProjectBy consistent planned
    cases made.symm.trans made'
    obtain ⟨allows, same⟩ := (allows_start extends_).after unset
    rw [← start_under extends_, same]
    exact ⟨rfl, fun name => ⟨allows.value?_under name, allows.series?_under name⟩⟩

/-- Three models, two with constants: the plan that computes them in each step is longer. -/
theorem constants_may_flow_nested : ∃ project full first, Project.compile Plan.nested = .ok project ∧
    Plan.ofProjectBy Site.isChanging project = .ok full ∧ ofProject project = .ok first ∧
      (first.plan.program .flows).length < (full.program .flows).length ∧
      ((start full).after [.runTo 1, .reset, .runToEnd]).series? "a" =
        (first.after [.runTo 1, .reset, .runToEnd]).series? "a" ∧
      (∃ x, (first.after [.runTo 1]).value? "m.s" = some x ∧
        ((start full).after [.runTo 1]).value? "m.s" = some x) := by
  have check : ∃ project ∈ (Project.compile Plan.nested).toOption,
      ∃ full ∈ (Plan.ofProjectBy Site.isChanging project).toOption,
        ∃ first ∈ (ofProject project).toOption,
          (first.plan.program .flows).length < (full.program .flows).length ∧
            ((first.after [.runTo 1]).value? "m.s").isSome = true := by
    rw [Project.compile_eq]
    decide +kernel
  obtain ⟨project, compiled, full, made, first, ready, more, present⟩ := check
  have compiled := toOption_eq_some.mp compiled
  have made := toOption_eq_some.mp made
  have ready := toOption_eq_some.mp ready
  obtain ⟨-, -, same⟩ := constants_may_flow compiled
  obtain ⟨-, ended⟩ := same full first made ready [.runTo 1, .reset, .runToEnd] (by simp)
  obtain ⟨-, stopped⟩ := same full first made ready [.runTo 1] (by simp)
  obtain ⟨x, answer⟩ := Option.isSome_iff_exists.mp present
  exact ⟨project, full, first, compiled, made, ready, more, (ended "a").2, x, answer,
    (stopped "m.s").1.trans answer⟩

end Simulation
end StockFlow
