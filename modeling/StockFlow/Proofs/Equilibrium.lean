import StockFlow.Proofs.Balancing
import StockFlow.Proofs.Catalog

/-!
# Equilibria of stateful calls

Delays and smoothers start and stay in equilibrium: a variable that is defined as one of a constant input
over a constant time other than zero equals the input in every row of a run, and a trend is zero. The steps of
the run may be longer than the time.
-/

namespace StockFlow

variable {α : Type} [Scalar α]

theorem Scalar.StandsFor.maximum_zero [Exact α] {x : α} {r : ℝ} (one : StandsFor x r) (above : 0 ≤ r) :
    StandsFor (maximum x zero) r := by
  obtain ⟨finite, rfl⟩ := one
  unfold maximum
  split
  · exact ⟨finite, rfl⟩
  · rename_i below
    rw [Exact.lt_iff isFinite_zero finite, real_zero, not_lt] at below
    exact below.antisymm above ▸ standsFor_zero

/-! ## Calls in equations -/

namespace Expansion

theorem isPrimitive_name (function : Stateful) : isPrimitive function.name = false := by
  cases function <;> decide

theorem moduleName_ne_empty {owner : Name} {call : Nat} {function : Name} :
    moduleName owner call function ≠ "" := by
  intro empty
  have letters := congrArg String.toList empty
  simp [moduleName, stem, String.toList_append] at letters

omit [Scalar α] in
/-- A stateful call becomes a reference to the output of the module that is made for what is left of its
arguments. -/
theorem expand_call_of_expandAll {owner : Name} (function : Stateful) {arguments : List (Equation α)}
    {calls : Nat} {given : Expanded α (List (Equation α))}
    (expanded : expandAll owner arguments calls = .ok given) (nonempty : given.result ≠ [])
    (most : given.result.length ≤ function.inputs.length) :
    expand owner (.call function.name arguments) calls =
      .ok ⟨.reference (moduleName owner given.calls function.name ++ ".output"),
        given.made ++ hoisted owner given.calls 0 given.result ++
          [.module (callModule owner given.calls function given.result)],
        given.calls + 1⟩ := by
  have fits : ¬ (given.result.length = 0 ∨ function.inputs.length < given.result.length) := by
    rw [List.length_eq_zero_iff]
    exact not_or.mpr ⟨nonempty, Nat.not_lt.mpr most⟩
  rw [expand, expanded]
  show expandCall owner function.name _ = _
  rw [expandCall, if_neg (by simp [isPrimitive_name]), Stateful.ofName?_name]
  exact if_neg fits

end Expansion

namespace Plan

open Expansion

variable [Scalar.Exact α] {project : Project α} {plan : Plan α}

/-- Whether the output of a module that is made in an instance can be referred to by the name of the module:
the name is canonical and has no dots, and no variable of the instance is named like the output. -/
structure Exposes (node : Coded α) (module : Name) : Prop where
  fixed : Name.canonical module = module
  undotted : ¬ Path.IsDotted module
  visible : node.slots.get? (module ++ ".output") = none

/-- Whether a slot that the source of an input of a module leads to is assigned at the start before what belongs
to the module. A source beside the module always is, as the module waits for it. -/
def Foreruns (plan : Plan α) (node : Coded α) (module source : Name) (slot : Nat) : Prop :=
  (Source.ofSymbol (Name.canonical source)).isAbsolute = false ∧
      node.Belongs (Path.head (Name.canonical source)) slot ∨
    ∀ other, node.Belongs module other → [slot, other].Sublist (written (plan.program .initials))

/-- Whether the source of an input of a module in an instance leads to a slot that holds a number. A source
inside the module itself leads nowhere. -/
structure Supplies (plan : Plan α) (node : Coded α) (module source : Name) (r : ℝ) : Prop where
  outward : Path.after? (module ++ ".") (Name.canonical source) = none
  holds : ∃ slot, Coded.sourceSlot? plan.root node (Source.ofSymbol (Name.canonical source)).symbol = some slot ∧
    plan.Foreruns node module source slot ∧ plan.Holds slot r

/-- A variable of the instance that holds a number supplies it to every module. -/
theorem supplies_of_own {node : Coded α} {module source : Name}
    (undotted : ¬ Path.IsDotted (Name.canonical source)) (notTime : Name.canonical source ≠ "time") {slot : Nat}
    (own : node.slots.get? (Name.canonical source) = some slot) {r : ℝ} (holds : plan.Holds slot r) :
    plan.Supplies node module source r := by
  have unmarked : Path.after? "." (Name.canonical source) = none :=
    Path.after?_of_not_dotted (by decide) undotted
  have dotted : Path.IsDotted (module ++ ".") := by simp [Path.IsDotted, String.toList_append]
  have relative : (Source.ofSymbol (Name.canonical source)).isAbsolute = false := by
    simp only [Source.ofSymbol, unmarked, Source.isAbsolute]
  refine ⟨Path.after?_of_not_dotted dotted undotted, slot, ?_, .inl ⟨relative, .inl ?_⟩, holds⟩
  · rw [Coded.sourceSlot?_of_relative relative]
    exact Instance.slot?_own undotted notTime own
  · exact (Path.head_of_not_dotted undotted).symm ▸ own

section

variable {document : Document.Project α} (compiled : Project.compile document = .ok project)
  (planned : ofProject project = .ok plan) {path : List Name} {node : Coded α} {model : LinkedModel α}
  (leads : plan.root.descend? path = some node) (found : project.find? node.model = some model)
include compiled planned leads found

omit [Scalar.Exact α] in
theorem Foreruns.sublist {owner : Name} {call : Nat} {function : Stateful} {given : List (Equation α)}
    (member : .module ⟨moduleName owner call function.name, Stateful.modelName function.name,
      callInputs owner call function given⟩ ∈ model.vars)
    (most : given.length ≤ function.inputs.length) {source : Name}
    (among : source ∈ sources owner call 0 given) {slot : Nat}
    (foreruns : plan.Foreruns node (moduleName owner call function.name) source slot) {other : Nat}
    (belongs : node.Belongs (moduleName owner call function.name) other) :
    [slot, other].Sublist (written (plan.program .initials)) := by
  rcases foreruns with ⟨relative, first⟩ | earlier
  · obtain ⟨wire, connected, same⟩ := exists_input most among
    exact sublist_of_sources (Project.consistent_of_compile compiled) planned leads found member
      (Variable.mem_sources_module.mpr
        ⟨wire, connected, same.trans (Source.ofSymbol_of_relative relative)⟩) belongs first
  · exact earlier other belongs

/-- The output of the module made for a call rests if the sources of its two arguments hold numbers. -/
theorem holds_output [Scalar.Discerns α] {owner : Name} {call : Nat} {function : Stateful} {x t : Equation α}
    (member : .module ⟨moduleName owner call function.name, Stateful.modelName function.name,
      callInputs owner call function [x, t]⟩ ∈ model.vars) {input time : ℝ} (nonzero : time ≠ 0)
    (first : plan.Supplies node (moduleName owner call function.name) (argumentSource owner call 0 x) input)
    (second : plan.Supplies node (moduleName owner call function.name) (argumentSource owner call 1 t) time) :
    ∃ child slot, node.child? (moduleName owner call function.name) = some child ∧
      child.slots.get? "output" = some slot ∧ child.Owns slot ∧
      plan.Holds slot (Library.equilibrium input function) := by
  have consistent := Project.consistent_of_compile compiled
  obtain ⟨child, inner, inside, foundInner, built, others, inputs⟩ :=
    exists_instance compiled leads found member planned
  have leads' := Instance.descend?_concat leads inside
  have owned : ∀ {name slot}, child.slots.get? name = some slot → child.Owns slot := by
    intro name slot own
    obtain ⟨made, -⟩ := made_of_ofProject consistent planned
    exact ((made.of_descend? leads').owns_own own).1
  have known : function.inputs = ["input", "delay_time", "initial_value"] := rfl
  have fed : ∀ {index : Nat} {name : Name} {argument : Equation α} {r : ℝ},
      function.inputs[index]? = some name → [x, t][index]? = some argument →
      plan.Supplies node (moduleName owner call function.name) (argumentSource owner call index argument) r →
      ∃ before, child.note.inputs.get? name = some (some before) ∧ plan.Holds before r ∧
        ∀ slot, child.slots.get? name = some slot →
          [before, slot].Sublist (written (plan.program .initials)) := by
    intro index name argument r input present supplies
    obtain ⟨before, resolved, foreruns, holds⟩ := supplies.holds
    refine ⟨before, ?_, holds, fun slot own => ?_⟩
    · rw [inputs index name input, present, Option.map_some, resolved]
    · exact foreruns.sublist compiled planned leads found member (by simp [known])
        (argumentSource_mem_sources present) (.inr ⟨child, inside, owned own⟩)
  -- the call has two arguments, so the third input of the function is left unconnected
  have free : ∀ name, name ∉ ["input", "delay_time"] → child.note.inputs.get? name = none := by
    intro name other
    by_cases input : name ∈ function.inputs
    · obtain rfl : name = "initial_value" := by
        simp only [known, List.mem_cons, List.not_mem_nil, or_false, not_or] at input other
        exact (input.resolve_left other.1).resolve_left other.2
      exact inputs 2 "initial_value" rfl
    · exact others name input
  have isOutput : "output" ∈ Library.names function := by cases function <;> decide
  obtain ⟨slot, own, holds⟩ := Library.holds_level consistent planned leads' foundInner built nonzero free
    (by
      intro name isFed
      rcases List.mem_pair.mp isFed with rfl | rfl
      · rw [Library.level_input]
        exact fed (show function.inputs[0]? = _ from rfl) rfl first
      · rw [Library.level_delayTime]
        exact fed (show function.inputs[1]? = _ from rfl) rfl second)
    isOutput
  exact ⟨child, slot, inside, own, owned own, Library.level_output input time function ▸ holds⟩

/-- A formula that refers to such an output, and is no input, rests with it. If it is clamped to zero, the output
must not be below it. -/
theorem holds_call [Scalar.Discerns α] {y : Formula α} {owner : Name} {call : Nat} {function : Stateful}
    {x t : Equation α}
    (module : .module ⟨moduleName owner call function.name, Stateful.modelName function.name,
      callInputs owner call function [x, t]⟩ ∈ model.vars)
    (reads : y.equation = .reference (moduleName owner call function.name ++ ".output"))
    (member : .formula y ∈ model.vars) (unconnected : node.note.inputs.get? y.name = none)
    (curve : y.table? = none) (exposes : Exposes node (moduleName owner call function.name)) {input time : ℝ}
    (nonzero : time ≠ 0)
    (fed : plan.Supplies node (moduleName owner call function.name) (argumentSource owner call 0 x) input)
    (lasts : plan.Supplies node (moduleName owner call function.name) (argumentSource owner call 1 t) time)
    (clamped : (y.isFlow && y.nonNegative) = true → 0 ≤ Library.equilibrium input function) :
    ∃ slot, node.slots.get? y.name = some slot ∧ plan.Holds slot (Library.equilibrium input function) := by
  have consistent := Project.consistent_of_compile compiled
  obtain ⟨child, output, inside, here, owned, holds⟩ :=
    holds_output compiled planned leads found module nonzero fed lasts
  obtain ⟨slot, own⟩ := exists_get? consistent planned leads found member rfl
  have visible := exposes.visible
  have whole : moduleName owner call function.name ++ ".output" =
      moduleName owner call function.name ++ "." ++ "output" := by
    rw [String.append_assoc]
    rfl
  have split : Path.split (moduleName owner call function.name ++ ".output") =
      (moduleName owner call function.name, some "output") :=
    Path.split_of_append exposes.undotted (by rw [String.toList_append]; rfl)
  have dotted : Path.IsDotted (moduleName owner call function.name ++ ".output") := by
    simp [Path.IsDotted, String.toList_append]
  -- the reference leads past the dot into the child, where the output is computed earlier
  have resolved : node.slot? (moduleName owner call function.name ++ ".output") = some output := by
    rw [whole] at visible ⊢
    rw [Instance.slot?_child moduleName_ne_empty exposes.undotted visible inside]
    exact Instance.slot?_own (by decide) (by decide) here
  have source : moduleName owner call function.name ++ ".output" ∈ (Variable.formula y).sources := by
    rw [Variable.sources_of_equation? rfl, reads]
    refine Equation.mem_names_of_references (List.mem_singleton_self _) ?_
    exact Bool.eq_false_iff.mpr fun reserved => Name.not_isDotted_of_isReserved reserved dotted
  have earlier : [output, slot].Sublist (written (plan.program .initials)) := by
    refine sublist_of_sources consistent planned leads found member source (.inl own) (.inr ⟨child, ?_, owned⟩)
    rwa [Path.head, split]
  refine ⟨slot, own, holds_of_formula consistent planned leads found member unconnected own [output] ?_
    fun row suits => ?_⟩
  · exact fun other among => List.mem_singleton.mp among ▸ earlier
  · have value : (node.scope model plan.clock y.name).value row y.equation = row.get output := by
      rw [reads, Scope.value, Scope.referenceValue, ClockReference.ofName?_of_isDotted dotted]
      show Scope.slotValue _ row _ = _
      rw [Scope.slotValue, show Scope.slot? (node.scope model plan.clock y.name) _ = _ from resolved]
    have here := suits output (List.mem_singleton_self _) _ holds
    rw [Scope.formulaValue, value, curve]
    split
    · rename_i isClamped
      exact here.maximum_zero (clamped isClamped)
    · exact here

/-- A formula that is a number, and no input, holds it. -/
theorem holds_constant {y : Formula α} (member : .formula y ∈ model.vars)
    (unconnected : node.note.inputs.get? y.name = none) (curve : y.table? = none)
    (unclamped : (y.isFlow && y.nonNegative) = false) {text : String} {x : α}
    (number : y.equation = .constant text x) {r : ℝ} (stands : Scalar.StandsFor x r) :
    ∃ slot, node.slots.get? y.name = some slot ∧ plan.Holds slot r := by
  have consistent := Project.consistent_of_compile compiled
  obtain ⟨slot, own⟩ := exists_get? consistent planned leads found member rfl
  refine ⟨slot, own, holds_of_formula consistent planned leads found member unconnected own [] nofun
    fun row _ => ?_⟩
  have value : (node.scope model plan.clock y.name).value row y.equation = x := by rw [number, Scope.value]
  rw [Scope.formulaValue, value, curve, unclamped]
  exact stands

end

end Plan

namespace Simulation

open Expansion

section

variable [Scalar.Exact α] {document : Document.Project α} {project : Project α} {plan : Plan α}
  (compiled : Project.compile document = .ok project) (planned : Plan.ofProject project = .ok plan)
  {own : Document.Model α} (listed : own ∈ document.models) {path : List Name} {node : Coded α}
  (leads : plan.root.descend? path = some node) (stands : node.model = own.name)
  {definition : Document.Variable α} (defined : definition ∈ own.definitions) {y : Formula α}
  (checked : Variable.ofDefinition definition = .ok (.formula y))
include compiled planned listed leads stands defined checked

/-- A variable that is a number, and no input, supplies it to every module. -/
theorem supplies_of_number {text : String} {number : α} (equation : y.equation = .constant text number)
    (curve : y.table? = none) (unclamped : (y.isFlow && y.nonNegative) = false)
    (unconnected : node.note.inputs.get? y.name = none) (undotted : ¬ Path.IsDotted y.name)
    (notTime : y.name ≠ "time") {module source : Name} (named : Name.canonical source = y.name) {r : ℝ}
    (same : Scalar.StandsFor number r) : plan.Supplies node module source r := by
  obtain ⟨model, found, built⟩ := Project.exists_own compiled listed
  obtain ⟨result, expands, member, -⟩ := Model.exists_made built defined checked rfl
  rw [equation] at expands
  obtain rfl := Except.ok.inj expands
  obtain ⟨slot, here, holds⟩ := Plan.holds_constant compiled planned leads (stands ▸ found) member unconnected
    curve unclamped rfl same
  exact Plan.supplies_of_own (named ▸ undotted) (named ▸ notTime) (named ▸ here) holds

/-- A number that is written as an argument of a call is supplied by the variable made for it. -/
theorem supplies_of_literal {function : Stateful} {arguments : List (Equation α)}
    (called : y.equation = .call function.name arguments) {given : Expanded α (List (Equation α))}
    (expanded : expandAll y.name arguments 0 = .ok given)
    (most : given.result.length ≤ function.inputs.length) {index : Nat} {text : String} {number : α}
    (present : given.result[index]? = some (.constant text number)) {argument : Name}
    (named : Name.canonical (argumentName y.name given.calls index) = argument)
    (unconnected : node.note.inputs.get? argument = none) (undotted : ¬ Path.IsDotted argument)
    (notTime : argument ≠ "time") {module : Name} {r : ℝ} (same : Scalar.StandsFor number r) :
    plan.Supplies node module (argumentSource y.name given.calls index (.constant text number)) r := by
  obtain ⟨model, found, built⟩ := Project.exists_own compiled listed
  have expands := called ▸ expand_call_of_expandAll function expanded
    (fun empty => by simp [empty] at present) most
  obtain ⟨result, expands', -, made⟩ := Model.exists_made built defined checked rfl
  obtain rfl := Except.ok.inj (expands'.symm.trans expands)
  have moves : .auxiliary ⟨argumentName y.name given.calls index, (Equation.constant text number).print,
      some (.constant text number), none⟩ ∈ hoisted y.name given.calls 0 given.result :=
    Nat.zero_add index ▸ argumentVariable_subset_hoisted present (List.mem_singleton_self _)
  obtain ⟨v, member, checked⟩ := made _ (List.mem_append_left _ (List.mem_append_right _ moves))
  obtain rfl := Except.ok.inj checked
  subst named
  obtain ⟨slot, here, holds⟩ := Plan.holds_constant compiled planned leads (stands ▸ found) member unconnected
    rfl rfl rfl same
  exact Plan.supplies_of_own undotted notTime here holds

end

/-- Delays and smoothers start and stay in equilibrium. Let a flow or an auxiliary variable of an instance be
defined as a stateful call of an input and a time (calls in these are expanded first). If the input holds a
number and the time one that is not zero, then in all rows that a run saves, and in the row last due to be saved,
the variable equals the input, or zero if it is a trend.

The variable must be no input of the instance and have no table, and if it is clamped to zero the number must
not be below it. -/
theorem stays_in_equilibrium [Scalar.Exact α] [Scalar.Discerns α] {document : Document.Project α}
    {project : Project α} {run : Simulation α} (compiled : Project.compile document = .ok project)
    (ready : ofProject project = .ok run) {own : Document.Model α} (listed : own ∈ document.models)
    {path : List Name} {node : Coded α} (leads : run.plan.root.descend? path = some node)
    (stands : node.model = own.name) {definition : Document.Variable α}
    (defined : definition ∈ own.definitions) {y : Formula α}
    (checked : Variable.ofDefinition definition = .ok (.formula y)) {function : Stateful}
    {arguments : List (Equation α)} (called : y.equation = .call function.name arguments) {x t : Equation α}
    {hoists : List (Document.Variable α)} {call : Nat}
    (expanded : expandAll y.name arguments 0 = .ok ⟨[x, t], hoists, call⟩)
    (unconnected : node.note.inputs.get? y.name = none) (curve : y.table? = none)
    (exposes : Plan.Exposes node (moduleName y.name call function.name)) {input time : ℝ} (nonzero : time ≠ 0)
    (fed : run.plan.Supplies node (moduleName y.name call function.name) (argumentSource y.name call 0 x) input)
    (lasts : run.plan.Supplies node (moduleName y.name call function.name) (argumentSource y.name call 1 t) time)
    (clamped : (y.isFlow && y.nonNegative) = true → 0 ≤ Library.equilibrium input function) :
    ∃ slot, node.slots.get? y.name = some slot ∧ ∀ calls, (∀ name value, .set name value ∉ calls) →
      ∀ row ∈ (run.after calls).dueRow :: (run.after calls).savedHistory,
        Scalar.StandsFor (row.get slot) (Library.equilibrium input function) := by
  obtain ⟨plan, planned, rfl⟩ := ofProject_eq_ok.mp ready
  obtain ⟨model, found, built⟩ := Project.exists_own compiled listed
  have known : function.inputs = ["input", "delay_time", "initial_value"] := rfl
  have expands := called ▸ expand_call_of_expandAll function expanded (List.cons_ne_nil _ _) (by simp [known])
  -- what is left of the variable and the module of its call are part of the model
  obtain ⟨result, expands', member, made⟩ := Model.exists_made built defined checked rfl
  obtain rfl := Except.ok.inj (expands'.symm.trans expands)
  obtain ⟨w, module, checked'⟩ := made _ (List.mem_append_right _ (List.mem_singleton_self _))
  have outward : ∀ source ∈ sources y.name call 0 [x, t],
      Path.after? (moduleName y.name call function.name ++ ".") (Name.canonical source) = none := by
    simp [sources, fed.outward, lasts.outward]
  rw [ofDefinition_callModule exposes.fixed outward] at checked'
  obtain rfl := Except.ok.inj checked'
  let left : Formula α := { y with equation := .reference (moduleName y.name call function.name ++ ".output") }
  obtain ⟨slot, here, holds⟩ := Plan.holds_call (y := left) compiled planned leads (stands ▸ found) module rfl
    member unconnected curve exposes nonzero fed lasts clamped
  refine ⟨slot, here, fun calls unset row saved => ?_⟩
  obtain ⟨present, finished⟩ := occurs_after unset
  refine holds row ?_
  rcases List.mem_cons.mp saved with rfl | saved
  · exact (dueRow_cases _).elim (fun same => same ▸ present) (finished _)
  · exact finished row (Array.mem_toList_iff.mp (List.mem_of_mem_take saved))

def delayArguments : List (Equation Rational) := [.reference "x", .constant "0.5" (.value (1 / 2))]

/-- A submodel with a flow that delays a number below zero, by a time shorter than the steps. -/
def steady : Document.Model Rational :=
  ⟨"sub", none, [
    .auxiliary ⟨"x", "", some (.constant "-3" (.value (-3))), none⟩,
    .flow ⟨"y", "", some (.call "delay3" delayArguments), none, false⟩]⟩

def steadily : Document.Project Rational :=
  ⟨"", ⟨.value 0, .value 8, .value 2, some (.value 4)⟩, [⟨"main", none, [.module ⟨"m", "sub", []⟩]⟩, steady]⟩

theorem stays_in_equilibrium_steadily : ∃ project run node slot,
    Project.compile steadily = .ok project ∧ ofProject project = .ok run ∧
      run.plan.root.descend? ["m"] = some node ∧ node.slots.get? "y" = some slot ∧
      ∀ calls, (∀ name value, .set name value ∉ calls) →
        ∀ row ∈ (run.after calls).dueRow :: (run.after calls).savedHistory,
          Scalar.StandsFor (row.get slot) (-3) := by
  have check : ∃ project ∈ (Project.compile steadily).toOption, ∃ run ∈ (ofProject project).toOption,
      ∃ node ∈ run.plan.root.descend? ["m"], node.model = "sub" ∧
        (∀ name ∈ ["x", "y", argumentName "y" 0 1], node.note.inputs.get? name = none) ∧
        node.slots.get? (moduleName "y" 0 "delay3" ++ ".output") = none := by
    rw [Project.compile_eq]
    decide +kernel
  obtain ⟨project, compiled, run, ready, node, leads, stands, unconnected, visible⟩ := check
  have compiled := toOption_eq_some.mp compiled
  have ready := toOption_eq_some.mp ready
  have listed : steady ∈ steadily.models := List.mem_cons_of_mem _ List.mem_cons_self
  obtain ⟨plan, planned, rfl⟩ := ofProject_eq_ok.mp ready
  have input : ∀ module, plan.Supplies node module "x" (-3 : ℚ) := fun module =>
    supplies_of_number compiled planned listed leads stands List.mem_cons_self rfl rfl rfl rfl
      (unconnected "x" (by simp)) (by decide) (by decide) (by decide +kernel) ⟨rfl, rfl⟩
  obtain ⟨definition, defined, checked⟩ : ∃ definition ∈ steady.definitions, Variable.ofDefinition definition =
      .ok (.formula ⟨"y", "", .call (Stateful.name .delay3) delayArguments, none, true, false⟩) :=
    ⟨_, List.mem_cons_of_mem _ List.mem_cons_self, rfl⟩
  have expanded : expandAll "y" delayArguments 0 = .ok ⟨delayArguments, [], 0⟩ := rfl
  have lasts : ∀ module, plan.Supplies node module (argumentName "y" 0 1) (1 / 2 : ℚ) := fun module =>
    supplies_of_literal compiled planned listed leads stands defined checked rfl expanded (by decide)
      (show _ = some _ from rfl) (by decide +kernel : _ = argumentName "y" 0 1) (unconnected _ (by simp))
      (by decide +kernel) (by decide +kernel) ⟨rfl, rfl⟩
  -- the input and the time of the delay are constants of the model, whatever the calls
  obtain ⟨slot, here, holds⟩ := stays_in_equilibrium compiled ready listed leads stands defined checked rfl
    expanded (unconnected "y" (by simp)) rfl ⟨by decide +kernel, by decide, visible⟩ (by norm_num) (input _)
    (lasts _) (by simp)
  refine ⟨project, _, node, slot, compiled, ready, leads, here, fun calls unset row saved => ?_⟩
  have rests := holds calls unset row saved
  rw [Library.equilibrium] at rests
  exact_mod_cast rests

/-! ## Departures -/

/-- Whether a variable of an instance that is defined as a stateful call departs from the equilibrium of the
call in a row that is saved after some calls, though its input and its time stay the same in all that are. -/
def Departs (run : Simulation Rational) (calls : List (Call Rational)) (own : Document.Model Rational)
    (path : List Name) (owner : Name) : Prop :=
  ∃ node, run.plan.root.descend? path = some node ∧ node.model = own.name ∧
    ∃ definition ∈ own.definitions, ∃ y function x t,
      Variable.ofDefinition definition = .ok (.formula y) ∧ y.name = owner ∧
      y.equation = .call (Stateful.name function) [.reference x, .reference t] ∧
      ∃ before lasts slot, ∃ input time : ℝ, time ≠ 0 ∧
        Coded.sourceSlot? run.plan.root node (Source.ofSymbol (Name.canonical x)).symbol = some before ∧
        Coded.sourceSlot? run.plan.root node (Source.ofSymbol (Name.canonical t)).symbol = some lasts ∧
        node.slots.get? owner = some slot ∧
        (∀ row ∈ (run.after calls).savedHistory,
          Scalar.StandsFor (row.get before) input ∧ Scalar.StandsFor (row.get lasts) time) ∧
        ∃ row ∈ (run.after calls).savedHistory,
          ¬ Scalar.StandsFor (row.get slot) (Library.equilibrium input function)

/-- Whether the saved rows show that a smoother departs. -/
def Shows (run : Simulation Rational) (calls : List (Call Rational)) (model : Name) (path : List Name)
    (owner x t : Name) (input : ℚ) : Prop :=
  ∃ node ∈ run.plan.root.descend? path, node.model = model ∧
    ∃ before ∈ Coded.sourceSlot? run.plan.root node (Source.ofSymbol (Name.canonical x)).symbol,
    ∃ lasts ∈ Coded.sourceSlot? run.plan.root node (Source.ofSymbol (Name.canonical t)).symbol,
    ∃ slot ∈ node.slots.get? owner,
      (∀ row ∈ (run.after calls).savedHistory, row.get before = .value input ∧ row.get lasts = .value 2) ∧
      ∃ row ∈ (run.after calls).savedHistory, row.get slot ≠ .value input

instance (run : Simulation Rational) (calls : List (Call Rational)) (model : Name) (path : List Name)
    (owner x t : Name) (input : ℚ) : Decidable (Shows run calls model path owner x t input) :=
  inferInstanceAs (Decidable (∃ node ∈ run.plan.root.descend? path, _))

theorem Shows.departs {run : Simulation Rational} {calls : List (Call Rational)} {own : Document.Model Rational}
    {path : List Name} {owner x t : Name} {input : ℚ} (shows : Shows run calls own.name path owner x t input)
    {definition : Document.Variable Rational} (defined : definition ∈ own.definitions) {y : Formula Rational}
    (checked : Variable.ofDefinition definition = .ok (.formula y)) (named : y.name = owner)
    (called : y.equation = .call "smth1" [.reference x, .reference t]) : Departs run calls own path owner := by
  obtain ⟨node, leads, stands, before, first, lasts, second, slot, here, same, row, saved, differs⟩ := shows
  have exact : ∀ q : ℚ, Scalar.StandsFor (Rational.value q) (q : ℝ) := fun q => ⟨rfl, rfl⟩
  refine ⟨node, leads, stands, definition, defined, y, .smooth1, x, t, checked, named, called, before, lasts,
    slot, input, (2 : ℚ), by norm_num, first, second, here, fun row saved => ?_, row, saved, fun rests => ?_⟩
  · obtain ⟨isInput, isTime⟩ := same row saved
    exact ⟨isInput ▸ exact input, isTime ▸ exact 2⟩
  · rw [Library.equilibrium] at rests
    obtain ⟨q, value⟩ := Rational.exists_value rests.1
    rw [value] at rests differs
    exact differs (congrArg Rational.value (Rat.cast_injective rests.2))

def smoother (x t : Name) : Option (Equation Rational) := some (.call "smth1" [.reference x, .reference t])

/-- Smoothers whose output is not found, and one that waits for itself. -/
def outer : Document.Model Rational :=
  ⟨"main", none, [
    .auxiliary ⟨"x", "3", none, none⟩,
    .auxiliary ⟨"t", "2", none, none⟩,
    .auxiliary ⟨"hidden", "", smoother "x" "t", none⟩,
    .auxiliary ⟨moduleName "hidden" 0 "smth1" ++ ".output", "9", none, none⟩,
    .auxiliary ⟨"a.b", "", smoother "x" "t", none⟩,
    .module ⟨"$·a", "other", []⟩,
    .auxiliary ⟨"inward", "", smoother (moduleName "inward" 0 "smth1" ++ ".delay_time") "t", none⟩,
    .module ⟨"m", "sub", [⟨"x", "m.fed"⟩]⟩]⟩

/-- Smoothers that are clamped, have a curve, are fed and read their own model from the root, and one that is
free of all that. -/
def inner : Document.Model Rational :=
  ⟨"sub", none, [
    .auxiliary ⟨"x", "-3", none, none⟩,
    .auxiliary ⟨"t", "2", none, none⟩,
    .flow ⟨"drain", "", smoother "x" "t", none, true⟩,
    .auxiliary ⟨"curve", "", smoother "x" "t", some ⟨some [.value 0, .value 10], [.value 7, .value 7], none⟩⟩,
    .auxiliary ⟨"fed", "", smoother "x" "t", none⟩,
    .auxiliary ⟨"back", "", smoother ".m.x" ".m.t", none⟩,
    .auxiliary ⟨"free", "", smoother "x" "t", none⟩]⟩

def exceptional : Document.Project Rational :=
  ⟨"", ⟨.value 0, .value 2, .value 1, none⟩,
    [outer, inner, ⟨"other", none, [.auxiliary ⟨"b·0·smth1", "9", none, none⟩]⟩]⟩

/-- Clamping, a curve and a connection change a smoother, one whose output is not found reads something else,
a smoother that reads what is inside its own module has no input, one that reads its own model from the root
starts before its input, and an output can be set. -/
theorem departs_exceptional : ∃ project run, Project.compile exceptional = .ok project ∧
    ofProject project = .ok run ∧
    (∀ owner ∈ ["hidden", "a.b", "inward"], Departs run [.runToEnd] outer [] owner) ∧
    (∀ owner ∈ ["drain", "curve", "fed", "back"], Departs run [.runToEnd] inner ["m"] owner) ∧
    Departs run [.reset, .set (Plan.dotted ["m", moduleName "free" 0 "smth1"] "output") (.value 9), .runToEnd]
      inner ["m"] "free" := by
  have check : ∃ project ∈ (Project.compile exceptional).toOption, ∃ run ∈ (ofProject project).toOption,
      Shows run [.runToEnd] "main" [] "hidden" "x" "t" 3 ∧
      Shows run [.runToEnd] "main" [] "a.b" "x" "t" 3 ∧
      Shows run [.runToEnd] "main" [] "inward" (moduleName "inward" 0 "smth1" ++ ".delay_time") "t" 2 ∧
      Shows run [.runToEnd] "sub" ["m"] "drain" "x" "t" (-3) ∧
      Shows run [.runToEnd] "sub" ["m"] "curve" "x" "t" (-3) ∧
      Shows run [.runToEnd] "sub" ["m"] "fed" "x" "t" (-3) ∧
      Shows run [.runToEnd] "sub" ["m"] "back" ".m.x" ".m.t" (-3) ∧
      Shows run [.reset, .set (Plan.dotted ["m", moduleName "free" 0 "smth1"] "output") (.value 9), .runToEnd]
        "sub" ["m"] "free" "x" "t" (-3) := by
    rw [Project.compile_eq]
    decide +kernel
  obtain ⟨project, compiled, run, ready, hidden, dotted, inward, drain, curve, fed, back, free⟩ := check
  refine ⟨project, run, toOption_eq_some.mp compiled, toOption_eq_some.mp ready, ?_, ?_, ?_⟩
  · simp only [List.forall_mem_cons]
    exact ⟨hidden.departs (List.mem_of_getElem? (i := 2) rfl) rfl rfl rfl,
      dotted.departs (List.mem_of_getElem? (i := 4) rfl) rfl rfl rfl,
      inward.departs (List.mem_of_getElem? (i := 6) rfl) rfl rfl rfl, List.forall_mem_nil _⟩
  · simp only [List.forall_mem_cons]
    exact ⟨drain.departs (List.mem_of_getElem? (i := 2) rfl) rfl rfl rfl,
      curve.departs (List.mem_of_getElem? (i := 3) rfl) rfl rfl rfl,
      fed.departs (List.mem_of_getElem? (i := 4) rfl) rfl rfl rfl,
      back.departs (List.mem_of_getElem? (i := 5) rfl) rfl rfl rfl, List.forall_mem_nil _⟩
  · exact free.departs (List.mem_of_getElem? (i := 6) rfl) rfl rfl rfl

end Simulation
end StockFlow
