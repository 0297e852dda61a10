import StockFlow.Proofs.Catalog
import StockFlow.Proofs.Expanding
import StockFlow.Proofs.Recurrences
import StockFlow.Proofs.Relinking

/-!
# The dynamics of stateful calls

A call of a stateful function obeys the recurrence of the function wherever it stands: the module made for
it has an output that moves from row to row with the values of the call's arguments in those rows.
-/

namespace StockFlow

variable {α : Type} [Scalar α]

/-! ## Values of arguments -/

theorem Coded.value_scope {node : Coded α} {model : LinkedModel α} {clock : Clock α} (owner other : Name)
    (row : Row α) (equation : Equation α) :
    (node.scope model clock other).value row equation = (node.scope model clock owner).value row equation := by
  have sameClock : (node.scope model clock other).clock = (node.scope model clock owner).clock := rfl
  have same : (node.scope model clock other).value row (equation.mapNames id) = _ :=
    Scope.value_mapNames (f := id) sameClock rfl (fun _ _ => rfl) fun _ _ => ⟨rfl, fun _ _ => rfl⟩
  rwa [Equation.mapNames_id] at same

theorem Scope.value_loadSlot (scope : Scope α) (dt : α) (row : Row α) (path : Path) :
    (loadSlot (scope.slot? path)).value dt row = scope.slotValue row path := by
  unfold slotValue
  cases scope.slot? path <;> rfl

section

omit [Scalar α]
variable {path : Path} (relative : (Source.ofSymbol path).isAbsolute = false)
include relative

theorem Path.after?_of_relative : Path.after? "." path = none := by
  cases marked : Path.after? "." path with
  | none => rfl
  | some rest =>
    rw [Source.ofSymbol, marked] at relative
    cases relative

theorem Source.ofSymbol_of_relative : Source.ofSymbol path = .relative path := by
  rw [ofSymbol, Path.after?_of_relative relative]

theorem Coded.sourceSlot?_of_relative {root above : Coded α} :
    Coded.sourceSlot? root above (Source.ofSymbol path).symbol = above.slot? path := by
  have unmarked : Path.isMarked path = false := by
    rw [Path.isMarked, Path.after?_of_relative relative]
    rfl
  rw [Source.ofSymbol_of_relative relative, Source.symbol, Coded.sourceSlot?, unmarked]
  rfl

end

namespace Plan

/-- The course of an equation in an instance: its values in the settled rows of the steps. -/
def valueOf (plan : Plan α) (node : Coded α) (model : LinkedModel α) (owner : Name) (equation : Equation α)
    (step : Nat) : α :=
  (node.scope model plan.clock owner).value (plan.settledAt step) (equation.mapNames Name.canonical)

open Expansion

namespace IsSound

variable {project : Project α} {plan : Plan α} (sound : plan.IsSound project) {path : List Name}
  {node : Coded α} {model : LinkedModel α} (leads : plan.root.descend? path = some node)
  (found : project.find? node.model = some model) {owner : Name} {call : Nat} (tame : Name.IsTame owner)
  (unreserved : ∀ v ∈ model.vars, isReserved v.name = false)
include sound leads found tame unreserved

/-- What an argument is connected to has the value of the argument. -/
theorem value_argumentSource {index : Nat} {argument : Equation α}
    (declared : ∀ definition ∈ argumentVariable owner call index argument,
      ∃ w ∈ model.vars, Variable.ofDefinition definition = .ok w)
    (free : node.note.inputs.get? (argumentName owner call index) = none)
    (clear : ∀ name, argument = .reference name → ClockReference.ofName? (Name.canonical name) = none)
    (step : Nat) :
    (Scope.loadSlot (node.slot? (Name.canonical (argumentSource owner call index argument)))).value
      plan.clock.dt (plan.settledAt step) = plan.valueOf node model owner argument step := by
  by_cases plain : ∃ name, argument = .reference name
  · obtain ⟨name, rfl⟩ := plain
    rw [valueOf, Equation.mapNames, Scope.value, Scope.referenceValue, clear name rfl]
    exact (node.scope model plan.clock owner).value_loadSlot ..
  · -- any other argument has a variable of its own
    obtain ⟨source, made⟩ : argumentSource owner call index argument = argumentName owner call index ∧
        argumentVariable owner call index argument =
          [.auxiliary ⟨argumentName owner call index, argument.print, some argument, none⟩] := by
      cases argument with
      | reference name => exact absurd ⟨name, rfl⟩ plain
      | constant | call | group | unary | binary | conditional => exact ⟨rfl, rfl⟩
    have canonical := (isTame_argumentName tame call index).canonical_eq
    obtain ⟨w, member, checked⟩ := declared _ (made ▸ List.mem_singleton_self _)
    have isFormula : w = .formula ⟨argumentName owner call index, argument.print,
        argument.mapNames Name.canonical, none, false, false⟩ := by
      rw [← canonical]
      exact (Except.ok.inj checked).symm
    subst isFormula
    obtain ⟨slot, own⟩ := sound.exists_get? leads found member rfl
    have resolved : node.slot? (argumentName owner call index) = some slot :=
      Instance.slot?_own (sound.plain found _ member).2.1
        (fun time => Bool.false_ne_true ((unreserved _ member).symm.trans (time ▸ rfl))) own
    rw [source, canonical, resolved]
    exact (sound.course_formula leads found member free own step).trans (Coded.value_scope ..)

end IsSound

/-- Whether a stateful function called in an instance with some arguments obeys its recurrence: its output
moves with the values of the arguments. A call without a time has the time one, and one without an initial
value the default of the function. -/
def Recurs (plan : Plan α) (node : Coded α) (model : LinkedModel α) (owner : Name) (function : Stateful)
    (output : Nat → α) : List (Equation α) → Prop
  | input :: rest =>
    let value := plan.valueOf node model owner
    function.Obeys plan.clock.dt (value input) (rest[0]?.elim (fun _ => Scalar.ofNat 1) value)
      (rest[1]?.elim (function.defaultInitial (value input)) value) output
  | [] => False

section

variable {document : Document.Project α} {project : Project α} {plan : Plan α}
  (compiled : Project.compile document = .ok project) {path : List Name} {node : Coded α}
  {model : LinkedModel α} (leads : plan.root.descend? path = some node)
  (found : project.find? node.model = some model) {owner : Name} {call : Nat} {function : Stateful}
  {given : List (Equation α)}
  (member : .module ⟨moduleName owner call function.name, Stateful.modelName function.name,
    callInputs owner call function given⟩ ∈ model.vars)
include compiled leads found member

/-- Below an instance stands one for each call that is expanded in it, whose inputs are connected to the
sources of the arguments. -/
theorem exists_instance (planned : ofProject project = .ok plan) :
    ∃ child inner, node.child? (moduleName owner call function.name) = some child ∧
      project.find? child.model = some inner ∧
      Model.build (Library.model function) true = .ok inner.toModel ∧
      (∀ name, name ∉ function.inputs → child.note.inputs.get? name = none) ∧
      ∀ index name, function.inputs[index]? = some name → child.note.inputs.get? name =
        given[index]?.map fun argument => Coded.sourceSlot? plan.root node
          (Source.ofSymbol (Name.canonical (argumentSource owner call index argument))).symbol := by
  obtain ⟨made, -⟩ := made_of_ofProject (Project.consistent_of_compile compiled) planned
  cases made.of_descend? leads with
  | intro fits _ =>
    cases fits.found.symm.trans found
    obtain ⟨child, here, ofModel, inputs⟩ := fits.exists_child? (Model.mem_modules.mpr member)
    obtain ⟨inner, foundInner, built⟩ := Project.exists_library compiled function
    have wired : ∀ name, child.note.inputs.get? name =
        ((Model.wires _).get? name).map (Coded.sourceSlot? plan.root node) := fun name => by
      rw [inputs]
      exact Keyed.get?_map (f := fun _ => Coded.sourceSlot? plan.root node)
    refine ⟨child, inner, here, ofModel ▸ foundInner, built, fun name absent => ?_,
      fun index name input => ?_⟩
    · rw [wired, get?_wires_of_notMem absent]
      rfl
    · rw [wired, get?_wires input, Option.map_map, Function.comp_def]

namespace IsSound

variable (relative : ∀ source ∈ sources owner call 0 given,
    (Source.ofSymbol (Name.canonical source)).isAbsolute = false)
  (sound : plan.IsSound project) (tame : Name.IsTame owner)
  (unreserved : ∀ v ∈ model.vars, isReserved v.name = false)
  (hoists : ∀ definition ∈ hoisted owner call 0 given,
    ∃ w ∈ model.vars, Variable.ofDefinition definition = .ok w)
  (free : ∀ index < given.length, node.note.inputs.get? (argumentName owner call index) = none)
  (clear : ∀ name, .reference name ∈ given → ClockReference.ofName? (Name.canonical name) = none)
include relative sound tame unreserved hoists free clear

omit compiled member in
/-- An input of the function's model that is connected to an argument takes its values. -/
theorem courseOf_argument {path' : List Name} {child : Coded α} {inner : LinkedModel α}
    (leads' : plan.root.descend? path' = some child) (foundInner : project.find? child.model = some inner)
    (built : Model.build (Library.model function) true = .ok inner.toModel) {index : Nat} {name : Name}
    {argument : Equation α} (input : function.inputs[index]? = some name)
    (present : given[index]? = some argument)
    (connected : child.note.inputs.get? name = some (Coded.sourceSlot? plan.root node
      (Source.ofSymbol (Name.canonical (argumentSource owner call index argument))).symbol)) :
    plan.courseOf child name = plan.valueOf node model owner argument := by
  obtain ⟨v, inside, rfl, own⟩ := Library.exists_variable built
    (Library.inputs_subset_names (List.mem_of_getElem? input))
  obtain ⟨within, -⟩ := List.getElem?_eq_some_iff.mp present
  rw [Coded.sourceSlot?_of_relative (relative _ (argumentSource_mem_sources present))] at connected
  funext step
  rw [sound.courseOf_input leads' foundInner inside own connected]
  refine sound.value_argumentSource leads found tame unreserved ?_ (free index within) ?_ step
  · intro definition made
    refine hoists definition (argumentVariable_subset_hoisted present ?_)
    rwa [Nat.zero_add]
  · rintro name rfl
    exact clear name (List.mem_of_getElem? present)

theorem recurs (nonempty : given ≠ []) : ∃ child output,
    plan.root.descend? (path ++ [moduleName owner call function.name]) = some child ∧
      child.slots.get? "output" = some output ∧
      plan.Recurs node model owner function (plan.course output) given := by
  obtain ⟨child, inner, inside, foundInner, built, others, inputs⟩ :=
    exists_instance compiled leads found member sound.planned
  have leads' := Instance.descend?_concat leads inside
  have course : ∀ {index : Nat} {name : Name} {argument : Equation α},
      function.inputs[index]? = some name → given[index]? = some argument →
        plan.courseOf child name = plan.valueOf node model owner argument := by
    intro index name argument input present
    refine courseOf_argument leads found relative sound tame unreserved hoists free clear leads' foundInner
      built input present ?_
    rw [inputs index name input, present, Option.map_some]
  -- what remains is to say what the inputs of the library model are in terms of the call
  have obeys := Library.obeys sound leads' foundInner built others
  obtain ⟨v, inside, named, own⟩ :=
    Library.exists_variable built (by cases function <;> decide : "output" ∈ _)
  obtain ⟨output, here, same⟩ := sound.courseOf_eq leads' foundInner inside own
  rw [named] at here same
  refine ⟨child, output, leads', here, ?_⟩
  rw [← same]
  cases given with
  | nil => exact absurd rfl nonempty
  | cons input rest =>
    have first : plan.courseOf child "input" = plan.valueOf node model owner input :=
      course (by rfl : function.inputs[0]? = some "input") rfl
    have time : plan.courseOf child "delay_time" =
        rest[0]?.elim (fun _ => Scalar.ofNat 1) (plan.valueOf node model owner) := by
      cases present : rest[0]? with
      | some argument => exact course (by rfl : function.inputs[1]? = some "delay_time") present
      | none =>
        have unconnected := inputs 1 "delay_time" rfl
        rw [List.getElem?_cons_succ, present] at unconnected
        exact funext (Library.courseOf_delayTime sound leads' foundInner built unconnected)
    have initial : plan.courseOf child "initial_value" =
        rest[1]?.elim (function.defaultInitial (plan.courseOf child "input"))
          (plan.valueOf node model owner) := by
      cases present : rest[1]? with
      | some argument => exact course (by rfl : function.inputs[2]? = some "initial_value") present
      | none =>
        have unconnected := inputs 2 "initial_value" rfl
        rw [List.getElem?_cons_succ, present] at unconnected
        exact funext (Library.courseOf_initialValue sound leads' foundInner built unconnected)
    rw [time, initial, first] at obeys
    exact obeys

end IsSound

end

end Plan

/-! ## Calls in documents -/

theorem ClockReference.ofName?_of_isReserved {name : Name} (unreserved : isReserved name = false) :
    ofName? name = none := by
  have absent := (Bool.or_eq_false_iff.mp unreserved).2
  rwa [Option.isSome_eq_false_iff, Option.isNone_iff_eq_none] at absent

/-- Whether the canonical names of all variables of a project document are identifiers. -/
def Document.Project.HasIdentifiers (document : Document.Project α) : Prop :=
  ∀ model ∈ document.models, ∀ definition ∈ model.definitions,
    (Name.canonical definition.name).IsIdentifier

omit [Scalar α] in
instance {document : Document.Project α} : Decidable document.HasIdentifiers :=
  inferInstanceAs (Decidable (∀ _ ∈ _, _))

omit [Scalar α] in
theorem Document.Project.HasIdentifiers.hasPlainNames {document : Document.Project α}
    (identifiers : document.HasIdentifiers) : document.HasPlainNames :=
  fun model member definition listed => (identifiers model member definition listed).isPlain

namespace Project

variable {project : Project α} {model : LinkedModel α}

omit [Scalar α] in
theorem Declares.isReserved_eq_false {path : Path} (declares : project.Declares model path)
    (unreserved : ∀ v ∈ model.vars, isReserved v.name = false) : isReserved path = false := by
  cases declares with
  | own member => exact unreserved _ member
  | inner _ _ _ split =>
    refine Bool.eq_false_iff.mpr fun reserved => ?_
    rw [Path.split_of_not_dotted (Name.not_isDotted_of_isReserved reserved)] at split
    cases split

omit [Scalar α] in
/-- No input of a module of a compiled project has a reserved name for its source, if no variable has one. -/
theorem Consistent.isReserved_source (consistent : project.Consistent) {name : Name}
    (found : project.find? name = some model) (unreserved : ∀ v ∈ model.vars, isReserved v.name = false)
    {module : Module} (member : .module module ∈ model.vars) {input : Input}
    (connected : input ∈ module.inputs) {path : Path} (source : input.source = .relative path) :
    isReserved path = false := by
  obtain ⟨linked, links, within⟩ := consistent.linked found
  have among : path ∈ (Variable.module module : Variable α).sources :=
    Variable.mem_sources_module.mpr ⟨input, connected, source⟩
  obtain ⟨target, resolved, -⟩ := links.resolve (consistent.distinct found) .start member nofun
    (LinkedModel.mem_sources_node among)
  exact (links.declares_of_resolve consistent within resolved).isReserved_eq_false unreserved

section

open Expansion

variable {name owner : Name} {call : Nat} {function : Stateful} {given : List (Equation α)}
  (relative : project.HasRelativeSources) (found : project.find? name = some model)
  (member : .module ⟨moduleName owner call function.name, Stateful.modelName function.name,
    callInputs owner call function given⟩ ∈ model.vars)
  (most : given.length ≤ function.inputs.length)
include relative found member most

omit [Scalar α] in
theorem isAbsolute_of_mem_sources {source : Name} (among : source ∈ sources owner call 0 given) :
    (Source.ofSymbol (Name.canonical source)).isAbsolute = false := by
  obtain ⟨input, connected, same⟩ := exists_input most among
  rw [← same]
  exact relative model (mem_of_findNamed found) _ (Model.mem_modules.mpr member) input connected

omit [Scalar α] in
theorem ofName?_of_mem_arguments (consistent : project.Consistent)
    (unreserved : ∀ v ∈ model.vars, isReserved v.name = false) {argument : Name}
    (left : .reference argument ∈ given) : ClockReference.ofName? (Name.canonical argument) = none := by
  have among : argument ∈ sources owner call 0 given := mem_sources_of_reference left
  obtain ⟨input, connected, same⟩ := exists_input most among
  refine ClockReference.ofName?_of_isReserved
    (consistent.isReserved_source found unreserved member connected ?_)
  exact same.trans (Source.ofSymbol_of_relative
    (isAbsolute_of_mem_sources relative found member most among))

end

end Project

namespace Simulation

open Expansion

/-- After any calls that set nothing, the flows of the present row are computed, and it and the rows that
are kept are the settled ones of their steps. -/
theorem settledAt_after {project : Project α} {plan : Plan α} (sound : plan.IsSound project)
    {calls : List (Call α)} (unset : ∀ name value, .set name value ∉ calls) :
    ((start plan).after calls).present = plan.settledAt ((start plan).after calls).step ∧
      ∀ index row, ((start plan).after calls).history[index]? = some row →
        row = plan.settledAt (index * plan.clock.saveEvery) := by
  have stable : plan.IsStable := fun row size =>
    Plan.settle_settle sound.consistent sound.planned sound.plain sound.spares sound.outward size
  obtain ⟨clean, at_, same⟩ := exists_isAt_after stable
    (Plan.settle_initialRow sound.consistent sound.planned sound.plain sound.outward) unset
  refine ⟨(congrArg Simulation.present same).trans at_.present_settle, fun index row finished => ?_⟩
  exact at_.eq_settledAt_of_history ((congrArg (·.history[index]?) same).symm.trans finished)

/-- Every call of a stateful function in the equation of a variable (`Equation.expansions` lists them, at any
depth) obeys the recurrence of the function in every instance of the model, and the rows of a run in which
nothing is set, the present one and those that are kept, are those in which it does. The calls in the
arguments stand for the outputs of their modules. No connection of the instance may put another value in the
place of an argument, and no argument may read inside the module that is made for the call. -/
theorem recurrence_of_call {document : Document.Project α} {project : Project α} {first : Simulation α}
    (compiled : Project.compile document = .ok project) (ready : ofProject project = .ok first)
    (identifiers : document.HasIdentifiers) (relative : project.HasRelativeSources)
    (spares : project.SparesStocks) {own : Document.Model α} (listed : own ∈ document.models)
    {path : List Name} {node : Coded α} (leads : first.plan.root.descend? path = some node)
    (stands : node.model = own.name) {definition : Document.Variable α}
    (defined : definition ∈ own.definitions) {v : Variable α}
    (checked : Variable.ofDefinition definition = .ok v) {equation : Equation α}
    (written : v.equation? = some equation) {call : Nat} {function : Stateful}
    {arguments : List (Equation α)} (called : equation.expansions[call]? = some (function, arguments))
    (free : ∀ index < arguments.length, node.note.inputs.get? (argumentName v.name call index) = none)
    (outward : ∀ name, .reference name ∈ arguments →
      Path.after? (moduleName v.name call function.name ++ ".") (Name.canonical name) = none) :
    ∃ model before given output, project.find? own.name = some model ∧
      expandAll v.name arguments before = .ok given ∧ given.calls = call ∧
      first.plan.slot? (Plan.dotted (path ++ [moduleName v.name call function.name]) "output") =
        some output ∧
      first.plan.Recurs node model v.name function (first.plan.course output) given.result ∧
      ∀ calls, (∀ name value, .set name value ∉ calls) →
        (first.after calls).present = first.plan.settledAt (first.after calls).step ∧
        ∀ index row, (first.after calls).history[index]? = some row →
          row = first.plan.settledAt (index * first.saveEvery) := by
  obtain ⟨plan, planned, rfl⟩ := ofProject_eq_ok.mp ready
  have sound : plan.IsSound project := ⟨Project.consistent_of_compile compiled, planned,
    Project.hasPlainNames_of_compile compiled identifiers.hasPlainNames, spares, relative.readsOutward⟩
  obtain ⟨model, found, built⟩ := Project.exists_own compiled listed
  have unreserved : ∀ v ∈ model.vars, isReserved v.name = false := fun v member =>
    Model.isReserved_of_build built (identifiers own listed) member
  have identifier : v.name.IsIdentifier := by
    rw [Variable.name_of_ofDefinition checked]
    exact identifiers own listed definition defined
  obtain ⟨expanded, expands, -, made⟩ := Model.exists_made built defined checked written
  -- what the expansion made for the call of this number is part of the model
  have instantiates := (covers_of_expand expands).each call function arguments called
  rw [Nat.zero_add] at instantiates
  rcases instantiates with @⟨before, given, expansion, rfl, nonempty, most, hoists, module⟩
  obtain ⟨w, member, isModule⟩ := made _ module
  rw [ofDefinition_callModule (isTame_moduleName identifier.isTame _ _).canonical_eq
    (outward_of_expandAll identifier expansion outward)] at isModule
  obtain rfl := Except.ok.inj isModule
  obtain ⟨child, output, leads', here, recurs⟩ := Plan.IsSound.recurs compiled leads
    (stands ▸ found) member
    (fun _ => Project.isAbsolute_of_mem_sources relative found member most) sound
    identifier.isTame unreserved (fun definition among => made definition (hoists among))
    (length_of_expandAll expansion ▸ free)
    (fun _ => Project.ofName?_of_mem_arguments relative found member most sound.consistent unreserved)
    nonempty
  obtain ⟨isMade, -⟩ := Plan.made_of_ofProject sound.consistent planned
  have resolved := Plan.slot?_dotted sound.plain isMade leads'
    (Instance.slot?_own (by decide) (by decide) here)
  exact ⟨model, before, given, output, found, expansion, rfl, resolved, recurs,
    fun calls => settledAt_after sound⟩

/-- A smoother around a delay, beside a variable that is added. -/
def smoothedDelay : Equation Float :=
  .binary .add (.reference "x") (.call "smth1" [
    .call "delay3" [.binary .add (.reference "x") (.constant "1" 1)], .reference "x"])

/-- A submodel with such a smoother, whose input the main model feeds. -/
def fed : Document.Project Float :=
  ⟨"", ⟨0, 3, 1, none⟩, [
    ⟨"main", none, [
      .stock ⟨"a", "1", none, ["b"], [], false⟩,
      .flow ⟨"b", "2", none, none, false⟩,
      .module ⟨"m", "sub", [⟨"a", "m.x"⟩]⟩]⟩,
    ⟨"sub", none, [
      .auxiliary ⟨"x", "0", none, none⟩,
      .auxiliary ⟨"y", "", some smoothedDelay, none⟩]⟩]⟩

/-- The smoother is the second call that is expanded; it reads the output of the first one. -/
theorem recurrence_of_call_fed : ∃ project first node model given output,
    Project.compile fed = .ok project ∧ ofProject project = .ok first ∧
      first.plan.root.descend? ["m"] = some node ∧ project.find? "sub" = some model ∧
      first.plan.slot? (Plan.dotted ["m", moduleName "y" 1 "smth1"] "output") = some output ∧
      given = [.reference (moduleName "y" 0 "delay3" ++ ".output"), .reference "x"] ∧
      first.plan.Recurs node model "y" .smooth1 (first.plan.course output) given ∧
      (first.after [.runTo 1, .reset, .runTo 2]).present =
        first.plan.settledAt (first.after [.runTo 1, .reset, .runTo 2]).step := by
  have check : ∃ project ∈ (Project.compile fed).toOption, ∃ first ∈ (ofProject project).toOption,
      fed.HasIdentifiers ∧ project.HasRelativeSources ∧ project.SparesStocks ∧
        ∃ node ∈ first.plan.root.descend? ["m"], node.model = "sub" ∧
          ∀ index < 2, node.note.inputs.get? (argumentName "y" 1 index) = none := by
    rw [Project.compile_eq]
    decide +kernel
  obtain ⟨project, compiled, first, ready, identifiers, relative, spares, node, leads, stands, free⟩ := check
  have compiled := toOption_eq_some.mp compiled
  have ready := toOption_eq_some.mp ready
  have outward : ∀ name, .reference name ∈ [
      Equation.call "delay3" [.binary .add (.reference "x") (.constant "1" (1 : Float))], .reference "x"] →
        Path.after? (moduleName "y" 1 "smth1" ++ ".") (Name.canonical name) = none := by
    intro name among
    obtain rfl : name = "x" := by simpa using among
    decide +kernel
  obtain ⟨model, before, given, output, found, expanded, number, slot, recurs, settled⟩ :=
    recurrence_of_call compiled ready identifiers relative spares
      (List.mem_cons_of_mem _ List.mem_cons_self) leads stands
      (List.mem_cons_of_mem _ List.mem_cons_self)
      (show Variable.ofDefinition _ = .ok (.formula ⟨"y", "", smoothedDelay, none, false, false⟩) from rfl)
      rfl (show smoothedDelay.expansions[1]? = some (.smooth1, _) from rfl) free outward
  obtain rfl : before = 0 := by
    cases expanded
    exact Nat.succ.inj number
  cases expanded
  exact ⟨project, first, node, model, _, output, compiled, ready, leads, found, slot, rfl, recurs,
    (settled [.runTo 1, .reset, .runTo 2] (by simp)).1⟩

/-- Whether a call in a document does not obey its recurrence, though names, sources and inputs are as they
have to be. -/
def Deviates (document : Document.Project Float) : Prop :=
  ∃ project first, Project.compile document = .ok project ∧ ofProject project = .ok first ∧
    document.HasIdentifiers ∧ project.HasRelativeSources ∧ project.SparesStocks ∧
    ∃ own ∈ document.models, ∃ path node model, first.plan.root.descend? path = some node ∧
      node.model = own.name ∧ project.find? own.name = some model ∧
      ∃ definition ∈ own.definitions, ∃ v equation call function arguments before given output,
        Variable.ofDefinition definition = .ok v ∧ v.equation? = some equation ∧
        equation.expansions[call]? = some (function, arguments) ∧
        expandAll v.name arguments before = .ok given ∧ given.calls = call ∧
        first.plan.slot? (Plan.dotted (path ++ [moduleName v.name call function.name]) "output") =
          some output ∧
        ¬ first.plan.Recurs node model v.name function (first.plan.course output) given.result

/-- The call of a variable that smooths what its own smoother puts out. -/
def looping : Equation Float :=
  .call "smth1" [.reference (moduleName "v" 0 "smth1" ++ ".output"), .reference "two", .reference "two"]

def looped : Document.Project Float :=
  ⟨"", ⟨0, 3, 1, none⟩, [⟨"main", none, [
    .auxiliary ⟨"two", "2", none, none⟩,
    .auxiliary ⟨"v", "", some looping, none⟩]⟩]⟩

/-- The call of a variable that smooths an expression. -/
def averaging : Equation Float :=
  .call "smth1" [.binary .add (.reference "x") (.constant "1" 1)]

/-- A submodel with that variable, and a connection to what is made for the expression. -/
def replaced : Document.Project Float :=
  ⟨"", ⟨0, 3, 1, none⟩, [
    ⟨"main", none, [
      .auxiliary ⟨"seven", "7", none, none⟩,
      .module ⟨"m", "sub", [⟨"seven", "m." ++ argumentName "v" 0 0⟩]⟩]⟩,
    ⟨"sub", none, [
      .auxiliary ⟨"x", "1", none, none⟩,
      .auxiliary ⟨"v", "", some averaging, none⟩]⟩]⟩

/-- A source inside the module of a call is passed over, so the smoother follows nothing; and a connection
to the variable of an argument puts another value in its place, from which the smoother starts. -/
theorem recurrence_of_call_deviates : Deviates looped ∧ Deviates replaced := by
  constructor
  · have check : ∃ project ∈ (Project.compile looped).toOption, ∃ first ∈ (ofProject project).toOption,
        looped.HasIdentifiers ∧ project.HasRelativeSources ∧ project.SparesStocks ∧
          first.plan.root.model = "main" ∧ ∃ model ∈ project.find? "main",
            ∃ output ∈ first.plan.slot? (moduleName "v" 0 "smth1" ++ ".output"),
              Scalar.lt (first.plan.course output 1) 2 = true ∧
              Scalar.lt (first.plan.course output 0 + ((first.plan.valueOf first.plan.root model "v"
                (.reference (moduleName "v" 0 "smth1" ++ ".output")) 0 - first.plan.course output 0) /
                  first.plan.valueOf first.plan.root model "v" (.reference "two") 0 - Scalar.zero) *
                    first.plan.clock.dt) 2 = false := by
      rw [Project.compile_eq]
      decide +kernel
    obtain ⟨project, compiled, first, ready, identifiers, relative, spares, isMain, model, found, output,
      slot, low, high⟩ := check
    refine ⟨project, first, toOption_eq_some.mp compiled, toOption_eq_some.mp ready, identifiers, relative,
      spares, _, List.mem_singleton_self _, [], first.plan.root, model, rfl, isMain, found, _,
      List.mem_cons_of_mem _ List.mem_cons_self, .formula ⟨"v", "", looping, none, false, false⟩, looping,
      0, .smooth1, _, 0, _, output, rfl, rfl, rfl, rfl, rfl, slot, fun recurs => ?_⟩
    rw [recurs.moves 0] at low
    exact Bool.noConfusion (low.symm.trans high)
  · have check : ∃ project ∈ (Project.compile replaced).toOption,
        ∃ first ∈ (ofProject project).toOption,
          replaced.HasIdentifiers ∧ project.HasRelativeSources ∧ project.SparesStocks ∧
            ∃ node ∈ first.plan.root.descend? ["m"], node.model = "sub" ∧
              ∃ model ∈ project.find? "sub",
                ∃ output ∈ first.plan.slot? (Plan.dotted ["m", moduleName "v" 0 "smth1"] "output"),
                  Scalar.lt (first.plan.course output 0) 3 = false ∧
                  Scalar.lt (first.plan.valueOf node model "v"
                    (.binary .add (.reference "x") (.constant "1" 1)) 0) 3 = true := by
      rw [Project.compile_eq]
      decide +kernel
    obtain ⟨project, compiled, first, ready, identifiers, relative, spares, node, leads, stands, model, found,
      output, slot, high, low⟩ := check
    refine ⟨project, first, toOption_eq_some.mp compiled, toOption_eq_some.mp ready, identifiers, relative,
      spares, _, List.mem_cons_of_mem _ List.mem_cons_self, ["m"], node, model, leads, stands, found, _,
      List.mem_cons_of_mem _ List.mem_cons_self, .formula ⟨"v", "", averaging, none, false, false⟩,
      averaging, 0, .smooth1, _, 0, _, output, rfl, rfl, rfl, rfl, rfl, slot, fun recurs => ?_⟩
    rw [recurs.starts] at high
    exact Bool.noConfusion (high.symm.trans low)

end Simulation
end StockFlow
